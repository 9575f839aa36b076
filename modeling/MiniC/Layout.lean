/-
Sizes and alignments in memory. Members of an aggregate stand in the order
of their declaration, each at the first offset its alignment allows, and
the whole is padded to the largest alignment. All sizes are checked to fit
in 64 bits. Consumed by code generation.
-/
import MiniC.Codegen.Error
import MiniC.Program

namespace MiniC

/-- A size or offset, if 64 bits can hold it. -/
def fits64 (n : Nat) : Option Nat := if n < 0x10000000000000000 then some n else none

/-- The least multiple of `align` that is not below `value`, if the
rounding stays within 64 bits. Alignments zero and one leave the value. -/
def alignUp? (value align : Nat) : Option Nat :=
  if align ≤ 1 then some value
  else (fits64 (value + align)).map fun sum => (sum - 1) / align * align

/-- A member at its offset. -/
structure Member where
  name : String
  ty : Ty
  offset : Nat
deriving DecidableEq, Repr

/-- An aggregate in memory. -/
structure Layout where
  size : Nat
  align : Nat
  members : List Member
deriving DecidableEq, Repr

namespace Layout

/-- The layout of nothing. -/
def empty : Layout := ⟨0, 1, []⟩

/-- The member of the given name, the first if there are several. -/
def member? (l : Layout) (name : String) : Option Member :=
  l.members.find? (·.name == name)

/-- Turns a missing size into the failure it is. -/
def sized {α : Type} : Option α → Except GenError α
  | some a => .ok a
  | none => .error .unrepresentable

/-- Puts a member of the given size and alignment behind the others; no
padding follows it yet. -/
def add (l : Layout) (name : String) (ty : Ty) (size align : Nat) : Except GenError Layout := do
  let offset ← sized (alignUp? l.size align)
  let size ← sized (fits64 (offset + size))
  return ⟨size, max l.align align, l.members ++ [⟨name, ty, offset⟩]⟩

/-- Pads the whole to its alignment. -/
def pad (l : Layout) : Except GenError Layout := do
  let size ← sized (alignUp? l.size l.align)
  return { l with size }

/-- Size and alignment of a type, given the layouts of aggregates. -/
def measure (layoutOf : String → Except GenError Layout) : Ty → Except GenError (Nat × Nat)
  | .void => .error (.notReachable .voidStorage)
  | .named name => (layoutOf name).map fun l => (l.size, l.align)
  | ty => .ok (ty.size, ty.size)

/-- The layout of members, given the layouts of the aggregates in them. -/
def ofMembers (layoutOf : String → Except GenError Layout) (members : List VariableDecl) :
    Except GenError Layout := do
  let l ← members.foldlM
    (fun l m => do
      let (size, align) ← measure layoutOf m.ty
      l.add m.name m.ty size align)
    empty
  l.pad

end Layout

namespace Program

/-- The layout of an aggregate in which aggregates nest at most `fuel`
deep. -/
def layoutWith (p : Program) : Nat → String → Except GenError Layout
  | 0, _ => .error .unrepresentable
  | fuel + 1, name =>
    match p.aggregate? name with
    | none => .error (.undeclared name)
    | some decl => Layout.ofMembers (p.layoutWith fuel) decl.members

/-- The layout of an aggregate. A chain of aggregates that contain each
other is no longer than there are aggregates, or some contains itself. -/
def layout (p : Program) (name : String) : Except GenError Layout :=
  p.layoutWith (p.aggregates.length + 1) name

/-- Size and alignment of a type. -/
def sizeAlign (p : Program) (ty : Ty) : Except GenError (Nat × Nat) :=
  Layout.measure p.layout ty

end Program

end MiniC
