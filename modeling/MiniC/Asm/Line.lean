/-
Lines of code with symbolic labels, and the consolidation of labels: of
labels in a row only the last one stays, jumps go to it, and a jump to the
line right behind it is dropped. A line is generic in what its instructions
are. Consumed by code generation and by the listing.
-/

namespace MiniC.Asm

/-- Jumps: always, if the last comparison was of equals, or if not. -/
inductive Jump where
  | jmp
  | je
  | jne
deriving DecidableEq, Repr

/-- The jump as it is written. -/
def Jump.mnemonic : Jump → String
  | .jmp => "jmp"
  | .je => "je"
  | .jne => "jne"

/-- A line of a function. What an epilogue is made of depends on the
function's frame. -/
inductive Line (ι : Type) where
  | label (n : Nat)
  | jump (kind : Jump) (target : Nat)
  | insn (i : ι)
  | epilogue
deriving DecidableEq, Repr

/-- The name of a numbered label. -/
def labelName (n : Nat) : String := ".L" ++ toString n

namespace Line

variable {ι κ : Type}

/-- A line with its instruction replaced. -/
def map (f : ι → κ) : Line ι → Line κ
  | .label n => .label n
  | .jump kind target => .jump kind target
  | .insn i => .insn (f i)
  | .epilogue => .epilogue

/-- Whether a line is an epilogue. -/
def isEpilogue : Line ι → Bool
  | .epilogue => true
  | _ => false

/-- The label that a line defines. -/
def defines? : Line ι → Option Nat
  | .label n => some n
  | _ => none

/-- The label that a line jumps to. -/
def target? : Line ι → Option Nat
  | .jump _ n => some n
  | _ => none

-- ======================================================== consolidation

/-- Each label that another label follows at once, with that other label;
later lines first. -/
def aliases : List (Line ι) → List (Nat × Nat)
  | .label a :: .label b :: rest => aliases (.label b :: rest) ++ [(a, b)]
  | _ :: rest => aliases rest
  | [] => []

/-- The end of the chain of aliases that starts at a label, at most `fuel`
links away. -/
def resolve (links : List (Nat × Nat)) : Nat → Nat → Nat
  | 0, n => n
  | fuel + 1, n =>
    match links.lookup n with
    | some next => resolve links fuel next
    | none => n

/-- Drops aliased labels and sends jumps to where their labels went. No
chain has more links than there are aliases. -/
def redirect (links : List (Nat × Nat)) (lines : List (Line ι)) : List (Line ι) :=
  lines.filterMap fun
    | .label n => if (links.lookup n).isSome then none else some (.label n)
    | .jump kind n => some (.jump kind (resolve links links.length n))
    | line => some line

/-- Drops every jump to the line right behind it. -/
def dropJumps : List (Line ι) → List (Line ι)
  | [] => []
  | line :: rest =>
    match line, rest with
    | .jump .jmp n, .label m :: _ => if n = m then dropJumps rest else line :: dropJumps rest
    | _, _ => line :: dropJumps rest

/-- Consolidates the labels of a function. -/
def mergeLabels (lines : List (Line ι)) : List (Line ι) :=
  dropJumps (redirect (aliases lines) lines)

end Line

end MiniC.Asm
