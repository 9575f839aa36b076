/-
What lowering works with: the ways it can fail, constants of one type made
over into another, and the steps that add instructions to the function
under construction and find the storage of a name. Consumed by the lowering
of expressions and statements.
-/
import MiniC.Expr
import MiniC.IR.Builder

namespace MiniC

-- ============================================================= failures

/-- A construct that has no lowering yet. -/
inductive LowerGap where
  | aggregateStorage (ty : Ty)
  | aggregateReturn
  | conversion (source target : IR.Ty)
  | floatingArithmetic
  | pointerArithmetic
  | memberAssignment
  | memberExpression
  | stringLiteral
  | steppedOperand
  | globalInitializer
deriving DecidableEq, Repr

/-- A tree that no accepted program contains. -/
inductive LowerBreach where
  | voidStorage
  | malformedConstant (text : String)
  | assignmentTarget
  | aggregateLiteral
  | nestedDeclaration
deriving DecidableEq, Repr

/-- Why a program cannot be lowered. -/
inductive LowerError where
  | unknownIdentifier (name : String)
  | notImplemented (what : LowerGap)
  | notReachable (what : LowerBreach)
  | eval (e : EvalError)
deriving DecidableEq, Repr

/-- The construct in words. -/
def LowerGap.describe : LowerGap → String
  | .aggregateStorage ty => "storage of aggregate type '" ++ ty.spelling ++ "'"
  | .aggregateReturn => "aggregate return types"
  | .conversion source target => "conversion from " ++ source.spelling ++ " to " ++ target.spelling
  | .floatingArithmetic => "floating point arithmetic"
  | .pointerArithmetic => "pointer arithmetic"
  | .memberAssignment => "member assignment"
  | .memberExpression => "member expressions"
  | .stringLiteral => "string literals"
  | .steppedOperand => "increment of a non-identifier"
  | .globalInitializer => "non-constant global initializer"

/-- The tree in words. -/
def LowerBreach.describe : LowerBreach → String
  | .voidStorage => "storage of type void"
  | .malformedConstant text => "malformed constant '" ++ text ++ "'"
  | .assignmentTarget => "assignment to a non-lvalue"
  | .aggregateLiteral => "literal of aggregate type"
  | .nestedDeclaration => "nested declaration"

/-- The failure in words. -/
def LowerError.message : LowerError → String
  | .unknownIdentifier name => "identifier '" ++ name ++ "' has no storage in any block"
  | .notImplemented what => "not implemented: " ++ what.describe
  | .notReachable what => "not reachable: " ++ what.describe
  | .eval e => e.message

namespace Lowering

-- ============================================================ constants

/-- How a variable of a source type is stored. -/
def slotType : Ty → Except LowerError IR.Ty
  | .void => .error (.notReachable .voidStorage)
  | ty =>
    match IR.Ty.ofSource? ty with
    | some ty => .ok ty
    | none => .error (.notImplemented (.aggregateStorage ty))

/-- A whole number wrapped to an integer type; a truth value tells whether
it differs from zero. -/
def wrapTo : IR.Ty → Int → Int
  | .i1, n => if n = 0 then 0 else 1
  | .i8, n => Integer.wrap 1 n
  | .i16, n => Integer.wrap 2 n
  | .i32, n => Integer.wrap 4 n
  | _, n => n

/-- The whole number of a constant's text, as its type has it read. -/
def constantInt? (text : String) (source : IR.Ty) : Option Int :=
  if source.isFloating then (Floating.ofText? text).map Floating.toLong
  else Integer.ofText? text

/-- A constant made over into another type. -/
def retype (text : String) (source target : IR.Ty) : Except LowerError IR.Value :=
  let malformed := LowerError.notReachable (.malformedConstant text)
  if source = target then .ok (.constant target text)
  else if target.isFloating then
    match Floating.ofText? text with
    | some x => .ok (.constant target (Floating.doubleText x))
    | none => .error malformed
  else
    match constantInt? text source with
    | some n => .ok (.constant target (toString (wrapTo target n)))
    | none => .error malformed

/-- The constant of a literal. -/
def literal (lit : NumberLiteral) : Except LowerError IR.Value :=
  match IR.Ty.ofSource? lit.ty with
  | some ty => .ok (.constant ty lit.text)
  | none => .error (.notReachable .aggregateLiteral)

/-- A folding as a step of lowering. -/
def liftEval {α : Type} : Except EvalError α → Except LowerError α
  | .ok a => .ok a
  | .error e => .error (.eval e)

-- ================================================================ steps

/-- A function under construction and the storage of the names in sight,
innermost scope first. -/
structure State where
  builder : IR.Builder
  scopes : List (List (String × IR.Slot))

/-- A step of lowering. -/
abbrev Lower (α : Type) : Type := StateT State (Except LowerError) α

/-- Stops lowering. -/
def fail {α : Type} (e : LowerError) : Lower α := throw e

/-- Uses what the builder hands out. -/
def build {α : Type} (f : IR.Builder → α × IR.Builder) : Lower α :=
  modifyGet fun s =>
    let (a, builder) := f s.builder
    (a, { s with builder })

/-- Adds an instruction. -/
def emit (instr : IR.Instr) : Lower Unit := build fun b => ((), b.emit instr)

/-- Hands out a name. -/
def unique (base : String) : Lower String := build fun b => b.unique base

/-- Opens a block. -/
def append (label : String) : Lower Unit := build fun b => ((), b.append label)

/-- Jumps to a label unless the block has come to its end. -/
def jumpTo (label : String) : Lower Unit := build fun b => ((), b.jumpTo label)

/-- Computes a temporary. -/
def define (definition : IR.Definition) : Lower IR.Value := do
  let index ← build IR.Builder.freshTemp
  emit (.define index definition)
  return .temp definition.ty index

/-- Reserves a local slot. -/
def alloca (base : String) (ty : IR.Ty) : Lower IR.Slot := do
  let name ← unique base
  let slot : IR.Slot := ⟨name, false, ty⟩
  emit (.alloca slot)
  return slot

/-- Converts a value to another type: constants on the spot, others by a
comparison with zero or a change of width. -/
def convert (value : IR.Value) (target : IR.Ty) : Lower IR.Value := do
  let source := value.ty
  if source = target then return value
  else
    match value with
    | .constant _ text => retype text source target
    | value =>
      if source.isFloating || target.isFloating then
        fail (.notImplemented (.conversion source target))
      else if target = .i1 then define (.compare .ne value (.constant source "0"))
      else
        let op : IR.Cast :=
          if target.bits < source.bits then .trunc
          else if source = .i1 then .zext
          else .sext
        define (.cast op value target)

/-- Loads a slot. -/
def load (slot : IR.Slot) : Lower IR.Value := define (.load slot)

/-- Stores a value, converted to the slot's type; that is the result. -/
def store (value : IR.Value) (slot : IR.Slot) : Lower IR.Value := do
  let value ← convert value slot.ty
  emit (.store value slot)
  return value

-- ================================================================ names

/-- Binds a name to its storage in the innermost scope. -/
def bind (name : String) (slot : IR.Slot) : Lower Unit :=
  modify fun s =>
    match s.scopes with
    | [] => s
    | scope :: outer => { s with scopes := ((name, slot) :: scope) :: outer }

/-- The storage of a name: of the scopes that bind it the innermost
decides, globals come last. -/
def storage (globals : List (String × IR.Slot)) (name : String) : Lower IR.Slot := do
  let s ← get
  let found := (s.scopes.findSome? fun scope => scope.lookup name).orElse fun _ =>
    globals.lookup name
  match found with
  | some slot => return slot
  | none => fail (.unknownIdentifier name)

/-- Runs a step in a scope of its own. -/
def inScope {α : Type} (step : Lower α) : Lower α := do
  modify fun s => { s with scopes := [] :: s.scopes }
  let a ← step
  modify fun s => { s with scopes := s.scopes.drop 1 }
  return a

end Lowering

end MiniC
