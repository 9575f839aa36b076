/-
The stack frame of a function under generation. Slots are handed out
downwards from the base pointer and never given back; names are bound to
slots in nested scopes; pushes are counted so that one can tell whether the
frame may live below the stack pointer. Consumed by code generation.
-/
import MiniC.Layout

namespace MiniC

/-- The storage of a local: it starts so many bytes below the base pointer. -/
structure StackSlot where
  offset : Nat
  ty : Ty
deriving DecidableEq, Repr

/-- A frame: scopes with their bindings, innermost first, the bytes handed
out, the bytes pushed at the moment, whether anything was ever pushed, and
the number of the next label. -/
structure Frame where
  scopes : List (List (String × StackSlot))
  depth : Nat
  pushed : Nat
  everPushed : Bool
  nextLabel : Nat
deriving DecidableEq, Repr

namespace Frame

/-- An empty frame with one scope. -/
def empty : Frame := ⟨[[]], 0, 0, false, 0⟩

/-- How many bytes below the stack pointer a function that pushes nothing
may use. -/
def redZone : Nat := 120

/-- Opens a scope. -/
def pushScope (f : Frame) : Frame := { f with scopes := [] :: f.scopes }

/-- Closes the innermost scope. -/
def popScope (f : Frame) : Frame := { f with scopes := f.scopes.drop 1 }

/-- Hands out a slot, aligned by its offset. -/
def alloc? (f : Frame) (size align : Nat) : Option (Nat × Frame) := do
  let start ← alignUp? f.depth align
  let depth ← fits64 (start + size)
  return (depth, { f with depth })

/-- Binds a name in the innermost scope; without a scope nothing happens. -/
def bind (f : Frame) (name : String) (slot : StackSlot) : Frame :=
  match f.scopes with
  | [] => f
  | scope :: outer => { f with scopes := ((name, slot) :: scope) :: outer }

/-- The slot of a name; the innermost scope that binds it decides. -/
def lookup? (f : Frame) (name : String) : Option StackSlot :=
  f.scopes.findSome? fun scope => scope.lookup name

/-- Hands out a label. -/
def freshLabel (f : Frame) : Nat × Frame :=
  (f.nextLabel, { f with nextLabel := f.nextLabel + 1 })

/-- Counts a push of eight bytes. -/
def push (f : Frame) : Frame := { f with pushed := f.pushed + 8, everPushed := true }

/-- Counts a pop of eight bytes, of which there must be as many. -/
def pop? (f : Frame) : Option Frame :=
  if f.pushed < 8 then none else some { f with pushed := f.pushed - 8 }

/-- Whether the frame may live below the stack pointer without reserving
room. -/
def usesRedZone (f : Frame) (noRedZone : Bool) : Bool :=
  !noRedZone && !f.everPushed && f.depth < redZone

/-- The room to reserve, which keeps the stack pointer aligned to sixteen. -/
def size? (f : Frame) : Option Nat := alignUp? f.depth 16

end Frame

end MiniC
