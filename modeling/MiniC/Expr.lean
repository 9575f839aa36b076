/-
Expressions. A binary node remembers two facts about its operands that the
later stages act on: whether it is constant, so that it can be folded, and
whether both operands are the same identifier. `Expr.combine` computes
them; nothing later changes them. Consumed by the parser and everything
behind it.
-/
import MiniC.Literal

namespace MiniC

/-- An identifier in use; `assignable` if it may stand on the left of an
assignment. -/
structure Ident where
  name : String
  assignable : Bool
  pos : Position
deriving DecidableEq, Repr

/-- A string in use, with its length in bytes. -/
structure StringLiteral where
  value : String
  length : Nat
  pos : Position
deriving DecidableEq, Repr

/-- An expression. -/
inductive Expr where
  | ident (i : Ident)
  | number (lit : NumberLiteral)
  | string (lit : StringLiteral)
  | binary (op : BinaryOp) (lhs rhs : Expr) (constant operandsMatch : Bool) (pos : Position)
  | unary (op : UnaryOp) (fixity : Fixity) (operand : Expr) (pos : Position)
  | member (object : Ident) (accessor : Accessor) (field : Ident) (pos : Position)
deriving DecidableEq, Repr

namespace Expr

/-- The place an expression is cited by: of a binary or unary node the
place of its operator. -/
def pos : Expr → Position
  | .ident i => i.pos
  | .number lit => lit.pos
  | .string lit => lit.pos
  | .binary _ _ _ _ _ pos => pos
  | .unary _ _ _ pos => pos
  | .member _ _ _ pos => pos

/-- Whether the expression is a number or a binary node known to fold. -/
def isConstant : Expr → Bool
  | .number _ => true
  | .binary _ _ _ constant _ _ => constant
  | _ => false

/-- Whether the expression names a place that can be stored into. -/
def isAssignable : Expr → Bool
  | .ident i => i.assignable
  | .member _ _ _ _ => true
  | _ => false

/-- Whether an operation on these operands folds: both are numbers, or one
is a number and the other a binary node that folds. -/
def foldable (op : BinaryOp) (lhs rhs : Expr) : Bool :=
  !op.isAssignment &&
    match lhs, rhs with
    | .number _, .number _ => true
    | .binary _ _ _ constant _ _, .number _ => constant
    | .number _, .binary _ _ _ constant _ _ => constant
    | _, _ => false

/-- Whether both operands are the same identifier. -/
def sameIdent (lhs rhs : Expr) : Bool :=
  match lhs, rhs with
  | .ident a, .ident b => a.name == b.name
  | _, _ => false

/-- The binary node of an operator and its operands. -/
def combine (op : BinaryOp) (lhs rhs : Expr) (pos : Position) : Expr :=
  .binary op lhs rhs (foldable op lhs rhs) (sameIdent lhs rhs) pos

/-- Folds an expression into a literal: operands first, left before right.
Only nodes marked constant fold; the signs and the complement of what folds
do too. -/
def evaluate : Expr → Except EvalError NumberLiteral
  | .number lit => .ok lit
  | .binary op lhs rhs constant _ pos =>
    if constant then do
      let a ← lhs.evaluate
      let b ← rhs.evaluate
      NumberLiteral.fold op a b pos
    else .error .notConstant
  | .unary .plus _ operand _ => operand.evaluate
  | .unary .minus _ operand _ => do
    let lit ← operand.evaluate
    lit.negate
  | .unary .not _ operand pos => do
    let lit ← operand.evaluate
    lit.complement pos
  | _ => .error .notConstant

/-- Whether a constant condition is false. -/
def foldsToZero (e : Expr) : Except EvalError Bool := do
  let lit ← e.evaluate
  lit.isZero

end Expr

end MiniC
