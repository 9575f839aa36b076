/-
What code generation works with: the values of literals as the machine
takes them, the pool of strings, the resolution of names to places, and the
types of expressions. Nothing here emits code. Consumed by code generation
for expressions and statements.
-/
import MiniC.Asm.Listing
import MiniC.Frame

namespace MiniC.Codegen

open Asm

-- ============================================================= literals

/-- A whole number wrapped to a type; a truth value tells whether it
differs from zero, and a type of eight bytes or none keeps the number. -/
def wrapTo : Ty → Int → Int
  | .bool, n => if n = 0 then 0 else 1
  | ty, n =>
    match ty.size with
    | 1 => Integer.wrap 1 n
    | 2 => Integer.wrap 2 n
    | 4 => Integer.wrap 4 n
    | _ => n

/-- The immediate of a literal for a destination of the given type. -/
def immediate (lit : NumberLiteral) (ty : Ty) : Except GenError Int := do
  let n ← GenError.liftEval lit.toInt
  return wrapTo ty n

/-- A literal as a floating point number is written. -/
def realText (lit : NumberLiteral) : Except GenError String :=
  match lit.number with
  | .ok number => .ok (Floating.doubleText number.toReal)
  | .error _ => .error (.notReachable (.malformedLiteral lit.text))

/-- The width of a type's values. -/
def widthOf (ty : Ty) : Except GenError Width :=
  match Width.ofBytes? ty.size with
  | some width => .ok width
  | none => .error (.notImplemented (.valuesOf ty))

-- ========================================================== string pool

/-- The strings of a program in the order they were met. Every occurrence
has a label of its own. -/
structure StringPool where
  values : List String
deriving DecidableEq, Repr

namespace StringPool

/-- A pool with no string in it. -/
def empty : StringPool := ⟨[]⟩

/-- The label of the string met as number `n`. -/
def label (n : Nat) : String := "__str" ++ toString n

/-- Adds a string; its label is the result. -/
def intern (p : StringPool) (value : String) : String × StringPool :=
  (label p.values.length, ⟨p.values ++ [value]⟩)

/-- The bytes of a string. -/
def bytesOf (value : String) : List UInt8 := value.toUTF8.toList

/-- The data of the pool, each string under its label. -/
def data (p : StringPool) : List Datum :=
  p.values.zipIdx.map fun v => .string (label v.2) (bytesOf v.1)

end StringPool

-- =============================================================== places

/-- What the code of a function is generated against. -/
structure Env where
  program : Program
  globals : List (String × Ty)
  returnType : Ty

namespace Env

/-- The place and type of a name: a local's slot, else a global. -/
def locate (env : Env) (frame : Frame) (name : String) : Except GenError (Place × Ty) :=
  match frame.lookup? name with
  | some slot => .ok (.stack slot.offset, slot.ty)
  | none =>
    match env.globals.lookup name with
    | some ty => .ok (.static name 0, ty)
    | none => .error (.undeclared name)

/-- The place so many bytes into another: on the stack addresses grow
towards the base pointer. -/
def shift (place : Place) (offset : Nat) : Except GenError Place :=
  match place with
  | .stack base => if offset ≤ base then .ok (.stack (base - offset)) else .error .unrepresentable
  | .static name base => .ok (.static name (base + offset))

/-- The place and type of a member. -/
def locateMember (env : Env) (frame : Frame) (object : Ident) (accessor : Accessor)
    (field : Ident) : Except GenError (Place × Ty) := do
  match accessor with
  | .arrow => throw (.notImplemented .pointerMember)
  | .scope => throw (.notImplemented .staticMember)
  | .dot =>
    let (place, ty) ← env.locate frame object.name
    match ty with
    | .named aggregate =>
      let layout ← env.program.layout aggregate
      match layout.member? field.name with
      | some member =>
        let place ← shift place member.offset
        return (place, member.ty)
      | none => throw (.notReachable (.noMember field.name aggregate))
    | ty => throw (.notReachable (.memberOf ty))

/-- The place and type of an expression that names one. -/
def place? (env : Env) (frame : Frame) : Expr → Except GenError (Option (Place × Ty))
  | .ident i => some <$> env.locate frame i.name
  | .member object accessor field _ => some <$> env.locateMember frame object accessor field
  | _ => .ok none

/-- The place and type that an assignment writes to. -/
def target (env : Env) (frame : Frame) (e : Expr) : Except GenError (Place × Ty) := do
  match ← env.place? frame e with
  | some found => return found
  | none => throw (.notReachable .assignmentTarget)

-- ================================================================ types

/-- The type of an expression. -/
def typeOf (env : Env) (frame : Frame) : Expr → Except GenError Ty
  | .number lit => .ok lit.ty
  | .string _ => .ok .string
  | .ident i => Prod.snd <$> env.locate frame i.name
  | .member object accessor field _ => Prod.snd <$> env.locateMember frame object accessor field
  | .binary op lhs rhs constant operandsMatch pos =>
    if constant then
      NumberLiteral.ty <$>
        GenError.liftEval (Expr.binary op lhs rhs constant operandsMatch pos).evaluate
    else
      match op with
      | .assign | .compound _ => env.typeOf frame lhs
      | .compare _ => .ok .bool
      | .arith _ => do
        let left ← env.typeOf frame lhs
        let right ← env.typeOf frame rhs
        return Ty.promote left right
  | .unary op _ operand _ =>
    match op with
    | .not => .ok .bool
    | .plus | .minus => do
      let ty ← env.typeOf frame operand
      return Ty.promote ty .int
    | .incr | .decr => env.typeOf frame operand

end Env

end MiniC.Codegen
