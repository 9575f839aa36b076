/-
The operators of the source language. A binary operator is a plain
assignment, an arithmetic operator, an arithmetic operator combined with an
assignment, or a comparison; binding strength and associativity follow from
which of these it is. Consumed by the parser, constant folding and both
back ends.
-/

namespace MiniC

/-- The four arithmetic operations. -/
inductive Arith where
  | add
  | sub
  | mul
  | div
deriving DecidableEq, Repr

/-- The six comparisons. -/
inductive Comparison where
  | lt
  | gt
  | le
  | ge
  | eq
  | ne
deriving DecidableEq, Repr

/-- A binary operator; `compound` stores the result in its left operand. -/
inductive BinaryOp where
  | assign
  | compound (op : Arith)
  | arith (op : Arith)
  | compare (op : Comparison)
deriving DecidableEq, Repr

/-- A unary operator. -/
inductive UnaryOp where
  | plus
  | minus
  | not
  | incr
  | decr
deriving DecidableEq, Repr

/-- On which side of its operand a unary operator stands. -/
inductive Fixity where
  | before
  | after
deriving DecidableEq, Repr

/-- How a member is reached: through the object, a pointer to it, or the
aggregate's name. -/
inductive Accessor where
  | dot
  | arrow
  | scope
deriving DecidableEq, Repr

/-- The operation as a program spells it. -/
def Arith.spelling : Arith → String
  | .add => "+"
  | .sub => "-"
  | .mul => "*"
  | .div => "/"

/-- The comparison as a program spells it. -/
def Comparison.spelling : Comparison → String
  | .lt => "<"
  | .gt => ">"
  | .le => "<="
  | .ge => ">="
  | .eq => "=="
  | .ne => "!="

namespace BinaryOp

/-- The operator as a program spells it. -/
def spelling : BinaryOp → String
  | .assign => "="
  | .compound op => op.spelling ++ "="
  | .arith op => op.spelling
  | .compare op => op.spelling

/-- Binding strength; what binds tighter has the larger number. -/
def precedence : BinaryOp → Nat
  | .assign | .compound _ => 1
  | .compare _ => 10
  | .arith .add | .arith .sub => 20
  | .arith .mul | .arith .div => 30

/-- Whether the operator stores into its left operand. -/
def isAssignment : BinaryOp → Bool
  | .assign | .compound _ => true
  | _ => false

/-- Whether the operator compares its operands. -/
def isComparison : BinaryOp → Bool
  | .compare _ => true
  | _ => false

/-- Whether a chain of the operator groups from the right. -/
def isRightAssoc (op : BinaryOp) : Bool := op.isAssignment

/-- The operation a compound assignment performs before it stores. -/
def compoundBase? : BinaryOp → Option Arith
  | .compound op => some op
  | _ => none

end BinaryOp

/-- The operator as a program spells it. -/
def UnaryOp.spelling : UnaryOp → String
  | .plus => "+"
  | .minus => "-"
  | .not => "!"
  | .incr => "++"
  | .decr => "--"

/-- The accessor as a program spells it. -/
def Accessor.spelling : Accessor → String
  | .dot => "."
  | .arrow => "->"
  | .scope => "::"

end MiniC
