/-
Lowering expressions: each becomes a value, with the instructions that
compute it added to the function under construction. Operands are lowered
from the left; an operation whose operands are the same identifier loads it
once. Consumed by the lowering of statements.
-/
import MiniC.Lowering.Basic

namespace MiniC.Lowering

/-- The type in which two operands meet: that of the larger one, the left
on a tie, and never less than an int. -/
def arithType (lhs rhs : IR.Ty) : IR.Ty :=
  match if rhs.size ≤ lhs.size then lhs else rhs with
  | .i1 | .i8 | .i16 => .i32
  | ty => ty

/-- Both operands in the type in which they meet, which is an integer
type or that of no value. -/
def meet (lhs rhs : IR.Value) : Lower (IR.Ty × IR.Value × IR.Value) := do
  let ty := arithType lhs.ty rhs.ty
  if ty.isFloating then fail (.notImplemented .floatingArithmetic)
  else if ty = .ptr then fail (.notImplemented .pointerArithmetic)
  else
    let lhs ← convert lhs ty
    let rhs ← convert rhs ty
    return (ty, lhs, rhs)

/-- An arithmetic operation on values. -/
def arith (op : Arith) (lhs rhs : IR.Value) : Lower IR.Value := do
  let (ty, lhs, rhs) ← meet lhs rhs
  define (.arith op ty lhs rhs)

/-- A comparison of values. -/
def compare (op : Comparison) (lhs rhs : IR.Value) : Lower IR.Value := do
  let (_, lhs, rhs) ← meet lhs rhs
  define (.compare op lhs rhs)

variable (globals : List (String × IR.Slot))

/-- The storage that an assignment writes to. -/
def target : MiniC.Expr → Lower IR.Slot
  | .ident i => storage globals i.name
  | .member _ _ _ _ => fail (.notImplemented .memberAssignment)
  | _ => fail (.notReachable .assignmentTarget)

/-- The storage that an increment or decrement changes. -/
def stepTarget : MiniC.Expr → Lower IR.Slot
  | .ident i => storage globals i.name
  | _ => fail (.notImplemented .steppedOperand)

/-- An increment or decrement: the stored value in front of its operand,
the one before it behind. -/
def step (op : Arith) (fixity : Fixity) (slot : IR.Slot) : Lower IR.Value := do
  let old ← load slot
  let new ← arith op old (.constant old.ty "1")
  let new ← store new slot
  match fixity with
  | .before => return new
  | .after => return old

/-- Lowers an expression to its value. -/
def expr : MiniC.Expr → Lower IR.Value
  | .number lit => literal lit
  | .ident i => do
    let slot ← storage globals i.name
    load slot
  | .binary op lhs rhs constant operandsMatch pos => do
    if constant then
      let lit ← liftEval (MiniC.Expr.binary op lhs rhs constant operandsMatch pos).evaluate
      literal lit
    else
      match op with
      | .assign =>
        let slot ← target globals lhs
        let value ← expr rhs
        store value slot
      | .compound op =>
        let slot ← target globals lhs
        let current ← load slot
        let operand ← if operandsMatch then pure current else expr rhs
        let result ← arith op current operand
        store result slot
      | .arith op =>
        let left ← expr lhs
        let right ← if operandsMatch then pure left else expr rhs
        arith op left right
      | .compare op =>
        let left ← expr lhs
        let right ← if operandsMatch then pure left else expr rhs
        compare op left right
  | .unary op fixity operand _ => do
    match op with
    | .plus =>
      let value ← expr operand
      arith .add (.constant value.ty "0") value
    | .minus =>
      let value ← expr operand
      arith .sub (.constant value.ty "0") value
    | .not =>
      let value ← expr operand
      define (.compare .eq value (.constant value.ty "0"))
    | .incr =>
      let slot ← stepTarget globals operand
      step .add fixity slot
    | .decr =>
      let slot ← stepTarget globals operand
      step .sub fixity slot
  | .string _ => fail (.notImplemented .stringLiteral)
  | .member _ _ _ _ => fail (.notImplemented .memberExpression)

/-- Lowers a condition to a truth value. -/
def condition (e : MiniC.Expr) : Lower IR.Value := do
  let value ← expr globals e
  convert value .i1

end MiniC.Lowering
