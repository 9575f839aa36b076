/-
Lowering statements, functions and programs. An if or while whose condition
folds is decided here and only the part that runs is lowered. Code behind a
return gets a block of its own. A body that falls off its end returns zero.
Consumed by the compiler's pipeline.
-/
import MiniC.IR.Printer
import MiniC.Lowering.Expr
import MiniC.Program

namespace MiniC.Lowering

variable (globals : List (String × IR.Slot))

/-- A local variable; its name comes into sight behind the initializer. -/
def variableDecl (decl : VariableDecl) : Lower Unit := do
  let ty ← slotType decl.ty
  let slot ← alloca decl.name ty
  match decl.init with
  | some init =>
    let value ← expr globals init
    let _ ← store value slot
  | none => pure ()
  bind decl.name slot

/-- A return. Behind another return it gets a block of its own. -/
def ret (value : Option MiniC.Expr) : Lower Unit := do
  let result ←
    match value with
    | some e =>
      let result ← expr globals e
      let s ← get
      some <$> convert result s.builder.function.returnType
    | none => pure none
  if (← get).builder.returned then
    let label ← unique "return"
    append label
  emit (.ret result)

mutual

/-- Lowers a statement. -/
def stmt : Stmt → Lower Unit
  | .block body => inScope (stmts body)
  | .branch arm => ifArm arm
  | .loop e body _ => do
    let never ← if e.isConstant then liftEval e.foldsToZero else pure false
    if never then return ()
    else
      let test ← unique "while.cond"
      let enter ← unique "while.body"
      let done ← unique "while.end"
      jumpTo test
      append test
      let value ← condition globals e
      emit (.branch value enter done)
      append enter
      inScope (stmts body)
      jumpTo test
      append done
  | .ret value _ => ret globals value
  | .variable decl => variableDecl globals decl
  | .expr e => do
    let _ ← expr globals e
  | .function _ => fail (.notReachable .nestedDeclaration)
  | .aggregate _ => fail (.notReachable .nestedDeclaration)

/-- Lowers statements in order. -/
def stmts : List Stmt → Lower Unit
  | [] => return ()
  | s :: rest => do
    stmt s
    stmts rest

/-- Lowers an arm of an if chain. -/
def ifArm : Arm → Lower Unit
  | ⟨e, consequent, alternate, _⟩ => do
    if e.isConstant then
      let zero ← liftEval e.foldsToZero
      if zero then otherwise alternate else inScope (stmts consequent)
    else
      let value ← condition globals e
      let onTrue ← unique "if.then"
      match alternate with
      | .none =>
        let done ← unique "if.end"
        emit (.branch value onTrue done)
        append onTrue
        inScope (stmts consequent)
        jumpTo done
        append done
      | alternate =>
        let onFalse ← unique "if.else"
        let done ← unique "if.end"
        emit (.branch value onTrue onFalse)
        append onTrue
        inScope (stmts consequent)
        jumpTo done
        append onFalse
        otherwise alternate
        jumpTo done
        append done

/-- Lowers what an arm leads to when its condition fails. -/
def otherwise : Alternate → Lower Unit
  | .none => return ()
  | .block body => inScope (stmts body)
  | .elseIf arm => ifArm arm

end

-- =========================================================== functions

/-- A parameter is stored into a slot, which its name stands for. -/
def spill (param : String × IR.Ty) : Lower Unit := do
  let slot ← alloca (param.1 ++ ".addr") param.2
  emit (.store (.argument param.2 param.1) slot)
  bind param.1 slot

/-- The value a body returns that falls off its end. -/
def defaultReturn (ty : IR.Ty) : Option IR.Value :=
  if ty = .void then none
  else some (.constant ty (if ty.isFloating then "0.0" else "0"))

/-- The whole of a function: parameters share the scope of its body. -/
def functionSteps (decl : FunctionDecl) (returnType : IR.Ty) (params : List (String × IR.Ty)) :
    Lower Unit := do
  params.forM spill
  stmts globals decl.body
  unless (← get).builder.terminated do
    emit (.ret (defaultReturn returnType))

/-- Lowers a function over the given globals. -/
def function (decl : FunctionDecl) : Except LowerError IR.Function := do
  let returnType ←
    match IR.Ty.ofSource? decl.returnType with
    | some ty => pure ty
    | none => throw (.notImplemented .aggregateReturn)
  let params ← decl.params.mapM fun p => do return (p.name, ← slotType p.ty)
  let start : State := ⟨.start decl.name returnType params, [[]]⟩
  let (_, s) ← (functionSteps globals decl returnType params).run start
  return s.builder.function

end Lowering

-- ============================================================ programs

namespace Lowering

/-- Lowers a global variable; only a constant can initialize it. -/
def global (decl : VariableDecl) : Except LowerError IR.Global := do
  let ty ← slotType decl.ty
  let init ←
    match decl.init with
    | some e =>
      if e.isConstant then
        let lit ← liftEval e.evaluate
        match IR.Ty.ofSource? lit.ty with
        | some source => some <$> retype lit.text source ty
        | none => throw (.notReachable .aggregateLiteral)
      else throw (.notImplemented .globalInitializer)
    | none => pure none
  return ⟨⟨decl.name, true, ty⟩, init⟩

/-- Where names find global storage; of two globals of one name the later
counts. -/
def globalStorage (globals : List IR.Global) : List (String × IR.Slot) :=
  (globals.map fun g => (g.slot.name, g.slot)).reverse

end Lowering

/-- Lowers one function of a program. -/
def Program.lowerFunction (p : Program) (decl : FunctionDecl) : Except LowerError IR.Function := do
  let globals ← p.globals.mapM Lowering.global
  Lowering.function (Lowering.globalStorage globals) decl

/-- Lowers every global and every function of a program. -/
def Program.lower (p : Program) : Except LowerError IR.Module := do
  let globals ← p.globals.mapM Lowering.global
  let functions ← p.functions.mapM (Lowering.function (Lowering.globalStorage globals))
  return ⟨globals, functions⟩

end MiniC
