/-
Code for expressions. The value of an expression is left in the low bytes
of rax; rcx holds the right operand of an operation that needs it in a
register, and a right operand that is itself computed is evaluated with the
left one pushed on the stack. Code is a plain list of instructions without
labels. Consumed by code generation for statements.
-/
import MiniC.Codegen.Basic

namespace MiniC.Codegen

open Asm

/-- The instructions of a computation. -/
abbrev Code : Type := List Instr

-- =============================================================== moving

/-- A register as an operand. -/
def reg (width : Width) (r : Reg) : Operand := .reg width r

/-- Loads a place into a register, extended or tested for the destination
type. -/
def loadInto (r : Reg) (place : Place) (source target : Ty) : Except GenError Code := do
  let src ← widthOf source
  let dst ← widthOf target
  if source.isFloating || target.isFloating then
    if source = target then return [.mov (reg dst r) (.mem dst place)]
    else throw (.notImplemented (.conversion source target))
  else if target = .bool && source ≠ .bool then
    return [.alu .cmp (.mem src place) (.imm 0), .set .ne r]
  else if dst.bytes ≤ src.bytes then
    -- Narrowing reads the low bytes.
    return [.mov (reg dst r) (.mem dst place)]
  else if dst.bytes = src.bytes + 1 then
    return [.alu .xor (reg .dword r) (reg .dword r), .mov (reg src r) (.mem src place)]
  else if src = .dword && r = .rax && source.isSigned then
    return [.mov (reg .dword .rax) (.mem src place), .cdqe]
  else if src = .dword && source.isSigned then
    return [.widen .movsxd (reg dst r) (.mem src place)]
  else
    let op := if source.isSigned then Widen.movsx else .movzx
    return [.widen op (reg dst r) (.mem src place)]

/-- Converts the value in rax between types. -/
def convert (source target : Ty) : Except GenError Code := do
  if source = target then return []
  else if source.isFloating || target.isFloating then
    throw (.notImplemented (.conversion source target))
  else
    let src ← widthOf source
    let dst ← widthOf target
    if target = .bool then
      return [.alu .cmp (reg src .rax) (.imm 0), .set .ne .rax]
    else if dst.bytes ≤ src.bytes then
      -- The low bytes are in place.
      return []
    else if dst.bytes = src.bytes + 1 then
      return [.alu .and (reg .dword .rax) (.mask 0xff)]
    else if src = .dword && dst = .qword && source.isSigned then
      return [.cdqe]
    else
      let op := if source.isSigned then Widen.movsx else .movzx
      return [.widen op (reg dst .rax) (reg src .rax)]

/-- Stores the value in rax, converted, into a place. -/
def storeRax (place : Place) (source target : Ty) : Except GenError Code := do
  let code ← convert source target
  let dst ← widthOf target
  return code ++ [.mov (.mem dst place) (reg dst .rax)]

/-- Stores a literal into a place. A number that does not fit in 32 bits
goes through rax. -/
def storeLiteral (place : Place) (lit : NumberLiteral) (target : Ty) : Except GenError Code := do
  match target with
  | .float =>
    let real ← realText lit
    return [.mov (.mem .dword place) (.real .dword real)]
  | .double =>
    let real ← realText lit
    return [.mov (reg .qword .rax) (.real .qword real), .mov (.mem .qword place) (reg .qword .rax)]
  | .string | .named _ | .void => throw (.notImplemented (.numberStoredAs target))
  | target =>
    if lit.ty.isFloating then throw (.notImplemented (.conversion lit.ty target))
    else
      let dst ← widthOf target
      let n ← immediate lit target
      if dst = .qword && !Integer.fitsInt n then
        return [.mov (reg .qword .rax) (.imm n), .mov (.mem dst place) (reg .qword .rax)]
      else return [.mov (.mem dst place) (.imm n)]

/-- Increments or decrements a place; a truth value stays one. -/
def stepPlace (op : Arith) (place : Place) (ty : Ty) : Except GenError Instr := do
  if ty.isFloating then throw (.notImplemented .floatingIncrement)
  else
    let width ← widthOf ty
    let mem := Operand.mem width place
    match op, ty with
    | .add, .bool => return .mov mem (.imm 1)
    | _, .bool => return .alu .xor mem (.imm 1)
    | .add, _ => return .alu .add mem (.imm 1)
    | _, _ => return .alu .sub mem (.imm 1)

-- ================================================================ steps

/-- What changes while code is generated: the frame and the string pool. -/
structure State where
  frame : Frame
  strings : StringPool

/-- A step of code generation. -/
abbrev Gen (α : Type) : Type := StateT State (Except GenError) α

/-- Stops code generation. -/
def fail {α : Type} (e : GenError) : Gen α := throw e

/-- Uses what the frame hands out. -/
def framed {α : Type} (f : Frame → α × Frame) : Gen α :=
  modifyGet fun s =>
    let (a, frame) := f s.frame
    (a, { s with frame })

/-- Changes the frame, if that is possible. -/
def framed? {α : Type} (f : Frame → Option (α × Frame)) : Gen α := do
  let s ← get
  match f s.frame with
  | some (a, frame) =>
    set { s with frame }
    return a
  | none => fail .unrepresentable

/-- Runs a step between a push and a pop of rax. -/
def saved (step : Gen Code) : Gen Code := do
  framed fun f => ((), f.push)
  let code ← step
  framed? fun f => f.pop?.map fun f => ((), f)
  return .push .rax :: code ++ [.pop .rax]

/-- Adds a string to the pool; its label is the result. -/
def intern (value : String) : Gen String :=
  modifyGet fun s =>
    let (label, strings) := s.strings.intern value
    (label, { s with strings })

variable (env : Env)

/-- The place and type of an expression that names one. -/
def placeOf (e : Expr) : Gen (Option (Place × Ty)) := do env.place? (← get).frame e

/-- The place and type that an assignment writes to. -/
def targetOf (e : Expr) : Gen (Place × Ty) := do env.target (← get).frame e

/-- The type of an expression. -/
def typeOfExpr (e : Expr) : Gen Ty := do env.typeOf (← get).frame e

-- ============================================================= operands

/-- The value of an expression in rax, converted to a type; `run` computes
the expression in its own type. -/
def evalTo (e : Expr) (run : Gen (Code × Ty)) (ty : Ty) : Gen Code := do
  let place ← if e.isConstant then pure none else placeOf env e
  match place with
  | some (place, source) => loadInto .rax place source ty
  | none =>
    let (code, source) ← run
    let conversion ← convert source ty
    return code ++ conversion

/-- The right operand of an operation on a type: an immediate, a place of
the same width, or else rcx. -/
def rightOperand (e : Expr) (run : Gen (Code × Ty)) (ty : Ty) : Gen (Code × Operand) := do
  let width ← widthOf ty
  if e.isConstant then
    let lit ← GenError.liftEval e.evaluate
    if lit.ty.isFloating then fail (.notImplemented .floatingArithmetic)
    else
      let n ← immediate lit ty
      if Integer.fitsInt n then return ([], .imm n)
      else return ([.mov (reg .qword .rcx) (.imm n)], reg width .rcx)
  else
    match ← placeOf env e with
    | some (place, source) =>
      if source.isFloating then fail (.notImplemented .floatingArithmetic)
      else
        let src ← widthOf source
        if src = width then return ([], .mem width place)
        else
          let code ← loadInto .rcx place source ty
          return (code, reg width .rcx)
    | none =>
      let code ← saved do
        let code ← evalTo env e run ty
        return code ++ [.mov (reg width .rcx) (reg width .rax)]
      return (code, reg width .rcx)

/-- Both operands of an operation, the left one in rax: the type in which
they meet, its width, the code, and the right operand. -/
def operands (lhs rhs : Expr) (runLeft runRight : Gen (Code × Ty)) :
    Gen (Ty × Width × Code × Operand) := do
  let left ← typeOfExpr env lhs
  let right ← typeOfExpr env rhs
  if left = .string || right = .string then fail (.notImplemented .stringArithmetic)
  else
    let ty := Ty.promote left right
    if ty.isFloating then fail (.notImplemented .floatingArithmetic)
    else
      let width ← widthOf ty
      let first ← evalTo env lhs runLeft ty
      let (second, operand) ← rightOperand env rhs runRight ty
      return (ty, width, first ++ second, operand)

/-- The instructions of an arithmetic operation on rax. A division takes
its divisor from a register or a place. -/
def arithCode (op : Arith) (width : Width) (operand : Operand) : Code :=
  let acc := reg width .rax
  match op with
  | .add => [.alu .add acc operand]
  | .sub => [.alu .sub acc operand]
  | .mul => [.alu .imul acc operand]
  | .div =>
    let extend := if width = .qword then Instr.cqo else .cdq
    match operand with
    | .imm n => [.mov (reg width .rcx) (.imm n), extend, .idiv (reg width .rcx)]
    | operand => [extend, .idiv operand]

/-- An arithmetic operation. -/
def evalArith (op : Arith) (lhs rhs : Expr) (runLeft runRight : Gen (Code × Ty)) :
    Gen (Code × Ty) := do
  let (ty, width, code, operand) ← operands env lhs rhs runLeft runRight
  return (code ++ arithCode op width operand, ty)

/-- A comparison. -/
def evalCompare (op : Comparison) (lhs rhs : Expr) (runLeft runRight : Gen (Code × Ty)) :
    Gen (Code × Ty) := do
  let (_, width, code, operand) ← operands env lhs rhs runLeft runRight
  return (code ++ [.alu .cmp (reg width .rax) operand, .set op .rax], .bool)

-- ========================================================== assignments

/-- Stores the value of an expression into a place. -/
def storeValue (place : Place) (target : Ty) (e : Expr) (run : Gen (Code × Ty)) : Gen Code := do
  if e.isConstant then
    let lit ← GenError.liftEval e.evaluate
    storeLiteral place lit target
  else
    match ← placeOf env e with
    | some (src, source) =>
      let code ← loadInto .rax src source target
      let dst ← widthOf target
      return code ++ [.mov (.mem dst place) (reg dst .rax)]
    | none =>
      let (code, source) ← run
      let stored ← storeRax place source target
      return code ++ stored

/-- A plain assignment. -/
def assignPlain (lhs rhs : Expr) (runRight : Gen (Code × Ty)) : Gen Code := do
  let (place, ty) ← targetOf env lhs
  storeValue env place ty rhs runRight

/-- A compound assignment. -/
def assignCompound (op : Arith) (lhs rhs : Expr) (runLeft runRight : Gen (Code × Ty)) :
    Gen Code := do
  let (place, ty) ← targetOf env lhs
  let (code, result) ← evalArith env op lhs rhs runLeft runRight
  let stored ← storeRax place result ty
  return code ++ stored

/-- The value that an assignment leaves in its target, in rax. -/
def reloaded (lhs : Expr) (assign : Gen Code) : Gen (Code × Ty) := do
  let (place, ty) ← targetOf env lhs
  let code ← assign
  let load ← loadInto .rax place ty ty
  return (code ++ load, ty)

/-- An increment or decrement as a value: the new one in front of its
operand, the old one behind. -/
def evalStep (op : Arith) (fixity : Fixity) (operand : Expr) : Gen (Code × Ty) := do
  let (place, ty) ← targetOf env operand
  let width ← widthOf ty
  let load := Instr.mov (reg width .rax) (.mem width place)
  let update ← stepPlace op place ty
  match fixity with
  | .before => return ([update, load], ty)
  | .after => return ([load, update], ty)

/-- A sign in front of an operand. -/
def evalSign (negative : Bool) (operand : Expr) (run : Gen (Code × Ty)) : Gen (Code × Ty) := do
  let ty := Ty.promote (← typeOfExpr env operand) .int
  if ty.isFloating then fail (.notImplemented .floatingArithmetic)
  else
    let code ← evalTo env operand run ty
    if negative then
      let width ← widthOf ty
      return (code ++ [.neg width .rax], ty)
    else return (code, ty)

/-- A constant in rax. -/
def evalConstant (e : Expr) : Gen (Code × Ty) := do
  let lit ← GenError.liftEval e.evaluate
  if lit.ty.isFloating then fail (.notImplemented .floatingRegister)
  else
    let n ← immediate lit lit.ty
    let width ← widthOf lit.ty
    return ([.mov (reg width .rax) (.imm n)], lit.ty)

/-- The value of a variable or member in rax. -/
def evalPlace (e : Expr) : Gen (Code × Ty) := do
  let (place, ty) ← targetOf env e
  if ty.isFloating then fail (.notImplemented .floatingRegister)
  else
    let code ← loadInto .rax place ty ty
    return (code, ty)

-- ========================================================== expressions

/-- The value of an expression in rax, in its own type. -/
def eval : Expr → Gen (Code × Ty)
  | .number lit => evalConstant (.number lit)
  | .string lit => do
    let label ← intern lit.value
    return ([.lea .rax label], .string)
  | .ident i => evalPlace env (.ident i)
  | .member object accessor field pos => evalPlace env (.member object accessor field pos)
  | .binary op lhs rhs constant operandsMatch pos =>
    if constant then evalConstant (.binary op lhs rhs constant operandsMatch pos)
    else
      match op with
      | .assign => reloaded env lhs (assignPlain env lhs rhs (eval rhs))
      | .compound op => reloaded env lhs (assignCompound env op lhs rhs (eval lhs) (eval rhs))
      | .arith op => evalArith env op lhs rhs (eval lhs) (eval rhs)
      | .compare op => evalCompare env op lhs rhs (eval lhs) (eval rhs)
  | .unary op fixity operand _ =>
    match op with
    | .plus => evalSign env false operand (eval operand)
    | .minus => evalSign env true operand (eval operand)
    | .not => do
      let (code, ty) ← eval operand
      let width ← widthOf ty
      return (code ++ [.alu .cmp (reg width .rax) (.imm 0), .set .eq .rax], .bool)
    | .incr => evalStep env .add fixity operand
    | .decr => evalStep env .sub fixity operand

/-- An increment or decrement whose value nobody asks for. -/
def stepEffect (op : Arith) (operand : Expr) : Gen Code := do
  let (place, ty) ← targetOf env operand
  let update ← stepPlace op place ty
  return [update]

/-- An expression for its effects alone. -/
def effect (e : Expr) : Gen Code :=
  match e with
  | .binary .assign lhs rhs _ _ _ => assignPlain env lhs rhs (eval env rhs)
  | .binary (.compound op) lhs rhs _ _ _ =>
    assignCompound env op lhs rhs (eval env lhs) (eval env rhs)
  | .unary .incr _ operand _ => stepEffect env .add operand
  | .unary .decr _ operand _ => stepEffect env .sub operand
  | e => Prod.fst <$> eval env e

/-- Compares a condition with zero. -/
def test (e : Expr) : Gen Code := do
  match ← placeOf env e with
  | some (place, ty) =>
    if ty.isFloating then fail (.notImplemented .floatingCondition)
    else
      let width ← widthOf ty
      return [.alu .cmp (.mem width place) (.imm 0)]
  | none =>
    let (code, ty) ← eval env e
    let width ← widthOf ty
    return code ++ [.alu .cmp (reg width .rax) (.imm 0)]

end MiniC.Codegen
