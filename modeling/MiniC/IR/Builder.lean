/-
Building a function block by block. A builder hands out names that do not
clash with each other or with the parameters, numbers the temporaries, and
adds instructions to the last block. Consumed by the lowering of functions.
-/
import MiniC.IR.Basic

namespace MiniC.IR

-- ================================================================ names

/-- The names handed out so far, parameters included, and for each base the
number of the next name to try. -/
structure Names where
  counters : List (String × Nat)
  taken : List String
deriving DecidableEq, Repr

namespace Names

/-- Nothing is handed out yet, the given names apart. -/
def reserving (taken : List String) : Names := ⟨[], taken⟩

/-- The `k`-th name of a base: the base itself, then the base with a
number. -/
def candidate (base : String) (k : Nat) : String :=
  if k = 0 then base else base ++ toString k

/-- The number of the next name to try for a base. -/
def counter (n : Names) (base : String) : Nat := (n.counters.lookup base).getD 0

/-- The number of the first free name of a base from `k` on, within `fuel`
tries. -/
def firstFree (taken : List String) (base : String) : Nat → Nat → Nat
  | 0, k => k
  | fuel + 1, k =>
    if taken.contains (candidate base k) then firstFree taken base fuel (k + 1) else k

/-- Hands out the first free name of a base. The names of a base are all
different, so one of the first `taken.length + 1` of them is free. -/
def unique (n : Names) (base : String) : String × Names :=
  let k := firstFree n.taken base (n.taken.length + 1) (n.counter base)
  let name := candidate base k
  (name, ⟨(base, k + 1) :: n.counters, name :: n.taken⟩)

end Names

-- ============================================================== builder

/-- A function under construction. -/
structure Builder where
  function : Function
  names : Names
  nextTemp : Nat
deriving DecidableEq, Repr

namespace Builder

/-- Hands out a name. -/
def unique (b : Builder) (base : String) : String × Builder :=
  let (name, names) := b.names.unique base
  (name, { b with names })

/-- Hands out the number of a temporary. -/
def freshTemp (b : Builder) : Nat × Builder :=
  (b.nextTemp, { b with nextTemp := b.nextTemp + 1 })

/-- Opens a block behind the last one. -/
def append (b : Builder) (label : String) : Builder :=
  { b with function := { b.function with blocks := b.function.blocks ++ [⟨label, []⟩] } }

/-- Opens the entry block of a function that has no block. -/
def enter (b : Builder) : Builder :=
  let (label, b) := b.unique "entry"
  b.append label

/-- An empty function with its entry block. -/
def start (name : String) (returnType : Ty) (params : List (String × Ty)) : Builder :=
  enter ⟨⟨name, returnType, params, []⟩, .reserving (params.map (·.1)), 0⟩

/-- The block that instructions are added to. -/
def current? (b : Builder) : Option Block := b.function.blocks.getLast?

/-- Whether the current block has come to its end. -/
def terminated (b : Builder) : Bool := b.current?.any Block.terminated

/-- Whether the current block ends by leaving the function. -/
def returned (b : Builder) : Bool := b.current?.any Block.returned

/-- Adds an instruction to the last of the given blocks. -/
def addToLast (instr : Instr) : List Block → List Block
  | [] => []
  | [block] => [{ block with body := block.body ++ [instr] }]
  | block :: rest => block :: addToLast instr rest

/-- Adds an instruction to the current block, whatever it ends with. -/
def push (b : Builder) (instr : Instr) : Builder :=
  let b := if b.function.blocks.isEmpty then b.enter else b
  { b with function := { b.function with blocks := addToLast instr b.function.blocks } }

/-- Adds an instruction; behind a terminator it gets a block of its own. -/
def emit (b : Builder) (instr : Instr) : Builder :=
  if b.terminated then
    let (label, b) := b.unique "unreachable"
    (b.append label).push instr
  else b.push instr

/-- Jumps to a label unless the current block has come to its end. -/
def jumpTo (b : Builder) (label : String) : Builder :=
  if b.terminated then b else b.emit (.jump label)

/-- Removes every block. -/
def clear (b : Builder) : Builder := { b with function := { b.function with blocks := [] } }

end Builder

end MiniC.IR
