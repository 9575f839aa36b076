/-
The ways code generation can fail, as causes with one wording each.
Consumed by the layout of aggregates and by code generation.
-/
import MiniC.Literal

namespace MiniC

/-- A construct that no code is generated for yet. -/
inductive GenGap where
  | valuesOf (ty : Ty)
  | conversion (source target : Ty)
  | numberStoredAs (ty : Ty)
  | parametersOf (ty : Ty)
  | pointerMember
  | staticMember
  | floatingIncrement
  | floatingArithmetic
  | floatingRegister
  | floatingCondition
  | floatingReturn
  | stringArithmetic
  | aggregateInitializer
  | globalInitializer
  | manyParameters
deriving DecidableEq, Repr

/-- A tree that no accepted program contains. -/
inductive GenBreach where
  | memberOf (ty : Ty)
  | noMember (member aggregate : String)
  | assignmentTarget
  | voidReturn
  | voidStorage
  | nestedDeclaration
  | malformedLiteral (text : String)
deriving DecidableEq, Repr

/-- Why no code is generated for a program. The last cause is a size, an
offset or a stack depth that 64 bits cannot hold. -/
inductive GenError where
  | noEntryPoint
  | undeclared (name : String)
  | notImplemented (what : GenGap)
  | notReachable (what : GenBreach)
  | eval (e : EvalError)
  | unrepresentable
deriving DecidableEq, Repr

/-- The construct in words. -/
def GenGap.describe : GenGap → String
  | .valuesOf ty => "values of type '" ++ ty.spelling ++ "'"
  | .conversion source target =>
    "conversion from '" ++ source.spelling ++ "' to '" ++ target.spelling ++ "'"
  | .numberStoredAs ty => "numeric value stored as '" ++ ty.spelling ++ "'"
  | .parametersOf ty => "parameters of type '" ++ ty.spelling ++ "'"
  | .pointerMember => "member access through a pointer"
  | .staticMember => "static member access"
  | .floatingIncrement => "floating point increments"
  | .floatingArithmetic => "floating point arithmetic"
  | .floatingRegister => "floating point values in registers"
  | .floatingCondition => "floating point conditions"
  | .floatingReturn => "floating point return values"
  | .stringArithmetic => "string arithmetic"
  | .aggregateInitializer => "aggregate initializers"
  | .globalInitializer => "non-constant global initializer"
  | .manyParameters => "more than six parameters"

/-- The tree in words. -/
def GenBreach.describe : GenBreach → String
  | .memberOf ty => "member access on '" ++ ty.spelling ++ "'"
  | .noMember member aggregate => "no member '" ++ member ++ "' in '" ++ aggregate ++ "'"
  | .assignmentTarget => "assignment to a non-lvalue"
  | .voidReturn => "value returned from a void function"
  | .voidStorage => "storage of type void"
  | .nestedDeclaration => "nested declaration"
  | .malformedLiteral text => "malformed literal '" ++ text ++ "'"

/-- The failure in words. -/
def GenError.message : GenError → String
  | .noEntryPoint => "No entry point 'main'"
  | .undeclared name => "use of undeclared identifier '" ++ name ++ "'"
  | .notImplemented what => "not implemented: " ++ what.describe
  | .notReachable what => "not reachable: " ++ what.describe
  | .eval e => e.message
  | .unrepresentable => "size out of range"

/-- A folding as a step of code generation. -/
def GenError.liftEval {α : Type} : Except EvalError α → Except GenError α
  | .ok a => .ok a
  | .error e => .error (.eval e)

end MiniC
