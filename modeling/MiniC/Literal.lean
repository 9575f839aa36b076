/-
Number literals and the folding of constant operations on them. A literal
is a text with a type; its number is a whole one in 64 signed bits or, for
the floating types, a double. Folding whole numbers is exact or fails:
a result outside 64 bits is an error, never a wrapped value. Consumed by
the parser, which notes constant conditions and narrowed initializers, and
by both back ends.
-/
import MiniC.Floating.Text
import MiniC.Integer
import MiniC.Operator
import MiniC.Position
import MiniC.Ty

namespace MiniC

/-- Why an expression cannot be folded into a literal. -/
inductive EvalError where
  | divisionByZero
  | overflow
  | malformed (text : String)
  | notConstant
deriving DecidableEq, Repr

/-- The failure in words. -/
def EvalError.message : EvalError → String
  | .divisionByZero => "division by zero"
  | .overflow => "integer overflow"
  | .malformed text => "malformed literal '" ++ text ++ "'"
  | .notConstant => "expression is not constant"

/-- A number as a program writes it, or as folding leaves it. -/
structure NumberLiteral where
  ty : Ty
  text : String
  pos : Position
deriving DecidableEq, Repr

/-- The value of a number literal. -/
inductive Number where
  | int (n : Int)
  | real (x : Float)

namespace Number

/-- The whole part, within 64 signed bits. -/
def toInt : Number → Int
  | .int n => n
  | .real x => Floating.toLong x

/-- The nearest double. -/
def toReal : Number → Float
  | .int n => Floating.ofInt n
  | .real x => x

/-- Whether the number is zero, of either sign. -/
def isZero : Number → Bool
  | .int n => n == 0
  | .real x => x == 0

end Number

-- ============================================================== results

namespace NumberLiteral

/-- The literal of a truth value. -/
def boolean (b : Bool) (pos : Position) : NumberLiteral :=
  ⟨.bool, if b then "1" else "0", pos⟩

/-- The type of a folded whole number: long if it came from a long or does
not fit in an int. -/
def intType (n : Int) (ty : Ty) : Ty :=
  if ty = .long || !Integer.fitsInt n then .long else .int

/-- The literal of a folded whole number. -/
def ofInt (n : Int) (ty : Ty) (pos : Position) : NumberLiteral :=
  ⟨intType n ty, toString n, pos⟩

/-- A floating point number as a literal of its type spells it. -/
def realText (ty : Ty) (x : Float) : String :=
  if ty = .float then Floating.singleText x else Floating.doubleText x

-- =============================================================== values

/-- The number a literal denotes; its type decides how the text is read. -/
def number (lit : NumberLiteral) : Except EvalError Number :=
  if lit.ty.isFloating then
    match Floating.ofText? lit.text with
    | some x => .ok (.real x)
    | none => .error (.malformed lit.text)
  else
    match Integer.ofText? lit.text with
    | some n => .ok (.int n)
    | none => .error (.malformed lit.text)

/-- The whole part of a literal's number. -/
def toInt (lit : NumberLiteral) : Except EvalError Int :=
  lit.number.map Number.toInt

/-- Whether a literal's number is zero. -/
def isZero (lit : NumberLiteral) : Except EvalError Bool :=
  lit.number.map Number.isZero

end NumberLiteral

-- ============================================================== folding

/-- A whole number, if it fits in 64 signed bits. -/
def checkedInt (n : Int) : Except EvalError Int :=
  if Integer.fitsLong n then .ok n else .error .overflow

/-- An operation on whole numbers; division goes toward zero. -/
def Arith.foldInt (op : Arith) (a b : Int) : Except EvalError Int :=
  match op with
  | .add => checkedInt (a + b)
  | .sub => checkedInt (a - b)
  | .mul => checkedInt (a * b)
  | .div => if b = 0 then .error .divisionByZero else checkedInt (a.tdiv b)

/-- An operation on doubles; only division by zero fails. -/
def Arith.foldReal (op : Arith) (a b : Float) : Except EvalError Float :=
  match op with
  | .add => .ok (a + b)
  | .sub => .ok (a - b)
  | .mul => .ok (a * b)
  | .div => if b == 0 then .error .divisionByZero else .ok (a / b)

/-- A comparison of whole numbers. -/
def Comparison.holdsInt (op : Comparison) (a b : Int) : Bool :=
  match op with
  | .lt => a < b
  | .gt => a > b
  | .le => a ≤ b
  | .ge => a ≥ b
  | .eq => a == b
  | .ne => a != b

/-- A comparison of doubles; what is no number differs from everything. -/
def Comparison.holdsReal (op : Comparison) (a b : Float) : Bool :=
  match op with
  | .lt => a < b
  | .gt => a > b
  | .le => a ≤ b
  | .ge => a ≥ b
  | .eq => a == b
  | .ne => a != b

namespace NumberLiteral

/-- Folds an operation on two literals in the type in which they meet. An
assignment folds to nothing. -/
def fold (op : BinaryOp) (lhs rhs : NumberLiteral) (pos : Position) :
    Except EvalError NumberLiteral := do
  let ty := Ty.promote lhs.ty rhs.ty
  let a ← lhs.number
  let b ← rhs.number
  if ty.isFloating then
    match op with
    | .arith op =>
      let x ← op.foldReal a.toReal b.toReal
      return ⟨ty, realText ty x, pos⟩
    | .compare op => return boolean (op.holdsReal a.toReal b.toReal) pos
    | _ => throw .notConstant
  else
    match op with
    | .arith op =>
      let n ← op.foldInt a.toInt b.toInt
      return ofInt n ty pos
    | .compare op => return boolean (op.holdsInt a.toInt b.toInt) pos
    | _ => throw .notConstant

/-- The literal of the opposite number, at the same place. -/
def negate (lit : NumberLiteral) : Except EvalError NumberLiteral := do
  match ← lit.number with
  | .int n =>
    let m ← checkedInt (-n)
    return ofInt m (Ty.promote lit.ty .int) lit.pos
  | .real x => return ⟨lit.ty, realText lit.ty (-x), lit.pos⟩

/-- The truth value of the opposite, at the given place. -/
def complement (lit : NumberLiteral) (pos : Position) : Except EvalError NumberLiteral :=
  lit.isZero.map fun zero => boolean zero pos

end NumberLiteral

end MiniC
