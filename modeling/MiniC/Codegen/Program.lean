/-
Code for statements, functions and programs. An if or while whose condition
folds is decided here. An else-if chain shares the end label of its first
arm; a loop tests at the bottom and is entered by a jump to the test. A
body that may fall off its end leaves zero in eax. The frame is set up when
all of it is known. Consumed by the compiler's pipeline.
-/
import MiniC.Codegen.Expr

namespace MiniC.Codegen

open Asm

/-- The lines of a function's body. -/
abbrev Lines : Type := List (Line Instr)

/-- Instructions as lines. -/
def lines (code : Code) : Lines := code.map .insn

-- ============================================================== returns

mutual

/-- Whether every way through a statement ends in a return. -/
def returns : Stmt → Bool
  | .ret _ _ => true
  | .block body => anyReturns body
  | .branch arm => armReturns arm
  | _ => false

/-- Whether one of the statements returns on every way. -/
def anyReturns : List Stmt → Bool
  | [] => false
  | s :: rest => returns s || anyReturns rest

/-- Whether every way through an if chain ends in a return; a condition
that folds leaves one way. -/
def armReturns : Arm → Bool
  | ⟨e, consequent, alternate, _⟩ =>
    if e.isConstant then
      match e.foldsToZero with
      | .ok false => anyReturns consequent
      | .ok true => alternateReturns alternate
      | .error _ => false
    else anyReturns consequent && alternateReturns alternate

/-- Whether every way through an alternate ends in a return. -/
def alternateReturns : Alternate → Bool
  | .none => false
  | .block body => anyReturns body
  | .elseIf arm => armReturns arm

end

-- =========================================================== statements

/-- Whether lines end in an epilogue. -/
def endsInEpilogue (ls : Lines) : Bool := ls.getLast?.any Line.isEpilogue

/-- Hands out a label. -/
def freshLabel : Gen Nat := framed Frame.freshLabel

/-- Runs a step in a scope of its own. -/
def inScope (step : Gen Lines) : Gen Lines := do
  framed fun f => ((), f.pushScope)
  let ls ← step
  framed fun f => ((), f.popScope)
  return ls

variable (env : Env)

/-- A return: the value in rax, converted to the function's type. -/
def ret (value : Option Expr) : Gen Lines := do
  match value with
  | none => return [.epilogue]
  | some e =>
    let ty := env.returnType
    if ty = .void then fail (.notReachable .voidReturn)
    else if ty.isFloating then fail (.notImplemented .floatingReturn)
    else
      let code ← evalTo env e (eval env e) ty
      return lines code ++ [.epilogue]

/-- A local variable; its name comes into sight behind the initializer. -/
def variableDecl (decl : VariableDecl) : Gen Lines := do
  let (size, align) ← env.program.sizeAlign decl.ty
  let offset ← framed? fun f => f.alloc? size align
  let code ←
    match decl.init with
    | none => pure []
    | some init =>
      match decl.ty with
      | .named _ => fail (.notImplemented .aggregateInitializer)
      | ty => storeValue env (.stack offset) ty init (eval env init)
  framed fun f => ((), f.bind decl.name ⟨offset, decl.ty⟩)
  return lines code

mutual

/-- The lines of a statement. -/
def stmt : Stmt → Gen Lines
  | .block body => inScope (stmts body)
  | .branch arm => ifArm none arm
  | .loop e body _ => do
    let never ← if e.isConstant then GenError.liftEval e.foldsToZero else pure false
    if never then return []
    else
      let enter ← freshLabel
      let check ← freshLabel
      let inner ← inScope (stmts body)
      let bottom ←
        if e.isConstant then pure [Line.jump .jmp enter]
        else do
          let code ← test env e
          pure (lines code ++ [.jump .jne enter])
      return [.jump .jmp check, .label enter] ++ inner ++ [.label check] ++ bottom
  | .ret value _ => ret env value
  | .variable decl => variableDecl env decl
  | .expr e => lines <$> effect env e
  | .function _ => fail (.notReachable .nestedDeclaration)
  | .aggregate _ => fail (.notReachable .nestedDeclaration)

/-- The lines of statements in order. -/
def stmts : List Stmt → Gen Lines
  | [] => return []
  | s :: rest => do
    let first ← stmt s
    let others ← stmts rest
    return first ++ others

/-- The lines of an if chain from an arm on. The end label is given by the
arm before, if there is one; the first arm defines it, unless nothing falls
through to it. -/
def ifArm : Option Nat → Arm → Gen Lines
  | shared, ⟨e, consequent, alternate, pos⟩ => do
    if e.isConstant then
      let zero ← GenError.liftEval e.foldsToZero
      if zero then otherwise shared alternate else inScope (stmts consequent)
    else
      let done ←
        match shared with
        | some done => pure done
        | none => freshLabel
      let ending : Lines :=
        if shared.isNone && !armReturns ⟨e, consequent, alternate, pos⟩ then [.label done] else []
      match alternate with
      | .none =>
        let code ← test env e
        let inner ← inScope (stmts consequent)
        return lines code ++ [.jump .je done] ++ inner ++ ending
      | alternate =>
        let other ← freshLabel
        let code ← test env e
        let inner ← inScope (stmts consequent)
        let skip : Lines := if endsInEpilogue inner then [] else [.jump .jmp done]
        let outer ← otherwise (some done) alternate
        return lines code ++ [.jump .je other] ++ inner ++ skip ++ [.label other] ++ outer ++ ending

/-- The lines of what an arm leads to when its condition fails. -/
def otherwise : Option Nat → Alternate → Gen Lines
  | _, .none => return []
  | _, .block body => inScope (stmts body)
  | shared, .elseIf arm => ifArm shared arm

end

-- ============================================================ functions

/-- Stores a parameter from its register into a slot of its own. -/
def spill (param : VariableDecl) (r : Reg) : Gen Instr := do
  match param.ty with
  | .float | .double | .named _ => fail (.notImplemented (.parametersOf param.ty))
  | ty =>
    let width ← widthOf ty
    let offset ← framed? fun f => f.alloc? width.bytes width.bytes
    framed fun f => ((), f.bind param.name ⟨offset, ty⟩)
    return .mov (.mem width (.stack offset)) (reg width r)

/-- Stores the parameters, of which there are at most six. -/
def spillAll (params : List VariableDecl) : Gen Code := do
  if paramRegs.length < params.length then fail (.notImplemented .manyParameters)
  else (params.zip paramRegs).mapM fun p => spill p.1 p.2

/-- What a body ends with that may fall off its end. -/
def fallOff (body : List Stmt) : Lines :=
  if anyReturns body then [] else [.insn (.alu .xor (reg .dword .rax) (reg .dword .rax)), .epilogue]

/-- The lines of a function without its frame. -/
def bodyLines (decl : FunctionDecl) : Gen Lines := do
  let spills ← spillAll decl.params
  let body ← stmts env decl.body
  if (← get).frame.pushed ≠ 0 then fail .unrepresentable
  else return lines spills ++ body ++ fallOff decl.body

/-- The room that a frame reserves, if it reserves any. -/
def reservation? (frame : Frame) (noRedZone : Bool) : Except GenError (Option Nat) :=
  if frame.usesRedZone noRedZone then .ok none
  else
    match frame.size? with
    | some size => .ok (if 0 < size then some size else none)
    | none => .error .unrepresentable

/-- Sets the frame up and resolves the epilogues: labels are consolidated
first. -/
def withFrame (reserved : Option Nat) (body : Lines) : Lines :=
  let room : Lines :=
    match reserved with
    | some size => [.insn (.alu .sub (reg .qword .rsp) (.imm size))]
    | none => []
  let restore := if reserved.isSome then Instr.leave else .pop .rbp
  [.insn (.push .rbp), .insn (.mov (reg .qword .rbp) (reg .qword .rsp))] ++ room
    ++ (Line.mergeLabels body).flatMap fun
      | .epilogue => [.insn restore, .insn .ret]
      | line => [line]

/-- The lines of a function; the string pool is carried along. -/
def function (program : Program) (globals : List (String × Ty)) (noRedZone : Bool)
    (strings : StringPool) (decl : FunctionDecl) : Except GenError (Lines × StringPool) := do
  let env : Env := ⟨program, globals, decl.returnType⟩
  let (body, s) ← (bodyLines env decl).run ⟨.empty, strings⟩
  let reserved ← reservation? s.frame noRedZone
  return (withFrame reserved body, s.strings)

-- ============================================================= programs

/-- Adds a global variable to the data or to the reserved room. -/
def global (program : Program) (decl : VariableDecl) (asm : Assembly) (strings : StringPool) :
    Except GenError (Assembly × StringPool) := do
  let (size, _) ← program.sizeAlign decl.ty
  match decl.ty, Width.ofBytes? size with
  | .named _, _ | _, none =>
    if decl.init.isSome then throw (.notImplemented .aggregateInitializer)
    else return ({ asm with bss := asm.bss ++ [.bytes decl.name size] }, strings)
  | ty, some width =>
    match decl.init with
    | none => return ({ asm with bss := asm.bss ++ [.cell decl.name width] }, strings)
    | some init =>
      match init, ty with
      | .string lit, .string =>
        let (label, strings) := strings.intern lit.value
        return ({ asm with data := asm.data ++ [.address decl.name label] }, strings)
      | init, ty =>
        if init.isConstant then
          let lit ← GenError.liftEval init.evaluate
          if ty.isFloating then
            let text ← realText lit
            return ({ asm with data := asm.data ++ [.real decl.name width text] }, strings)
          else
            let n ← immediate lit ty
            return ({ asm with data := asm.data ++ [.integer decl.name width n] }, strings)
        else throw (.notImplemented .globalInitializer)

/-- Adds global variables in order. -/
def globals (program : Program) :
    List VariableDecl → Assembly → StringPool → Except GenError (Assembly × StringPool)
  | [], asm, strings => return (asm, strings)
  | decl :: rest, asm, strings => do
    let (asm, strings) ← global program decl asm strings
    globals program rest asm strings

/-- Where names find the types of globals; of two globals of one name the
later counts. -/
def globalTypes (decls : List VariableDecl) : List (String × Ty) :=
  (decls.map fun d => (d.name, d.ty)).reverse

/-- Adds functions in order. -/
def functions (program : Program) (noRedZone : Bool) :
    List FunctionDecl → Assembly → StringPool → Except GenError (Assembly × StringPool)
  | [], asm, strings => return (asm, strings)
  | decl :: rest, asm, strings => do
    let types := globalTypes program.globals
    let (body, strings) ← function program types noRedZone strings decl
    let asm := { asm with functions := asm.functions ++ [(decl.name, body)] }
    functions program noRedZone rest asm strings

end Codegen

/-- Generates the code of a program. A program without declarations needs
none; every other one needs a `main`. Strings follow the other data. -/
def Program.generate (p : Program) (noRedZone : Bool) : Except GenError Asm.Assembly := do
  if p.body.isEmpty then return .empty
  else if (p.function? "main").isNone then throw .noEntryPoint
  else
    let (asm, strings) ← Codegen.globals p p.globals .empty .empty
    let (asm, strings) ← Codegen.functions p noRedZone p.functions asm strings
    return { asm with data := asm.data ++ strings.data }

end MiniC
