/-
The grammar of statements and variables. Conditions that fold are noted as
always true or always false, initializers that fold to a wider type than
the variable's are warned about, and a return has a value exactly when its
function does. Consumed by the grammar of declarations.
-/
import MiniC.Parser.Expression

namespace MiniC.Parser

-- =========================================================== variables

/-- Warns about an initializer that folds to a literal of a larger type. -/
def checkNarrowing (ty : Ty) (init : Expr) : Parser Unit := do
  let numeric :=
    match ty with
    | .named _ | .string => false
    | _ => true
  if init.isConstant && numeric then
    let lit ← folded init.evaluate init.pos
    if ty.size < lit.ty.size then
      let message :=
        "narrowing conversion from '" ++ lit.ty.spelling ++ "' to '" ++ ty.spelling ++ "'"
      note ⟨.warning, message, init.pos⟩

/-- The initializer behind a declared name, if an equals sign follows. -/
def initializer (ty : Ty) : Parser (Option Expr) := do
  if ← accept .assign then
    let init ← expression
    checkNarrowing ty init
    return some init
  else return none

/-- The rest of a variable's declaration behind its type and name. The name
comes into sight behind the initializer. -/
def variableRest (ty : Ty) (name : String) (pos : Position) (access : Access) :
    Parser VariableDecl := do
  let init ← initializer ty
  want .semicolon
  declare name ty pos
  return ⟨ty, name, init, access, pos⟩

/-- A variable declared inside a function. -/
def localVariable : Parser Stmt := do
  let ty ← wantType
  let (name, pos) ← wantIdent
  if (← atSymbol .assign) || (← atSymbol .semicolon) then
    return .variable (← variableRest ty name pos .block)
  else
    let token ← take "';' or '='"
    unexpected "';' or '='" token

-- ========================================================== conditions

/-- Notes a condition that folds. -/
def noteCondition (condition : Expr) : Parser Unit := do
  if condition.isConstant then
    let zero ← folded condition.foldsToZero condition.pos
    let verdict := if zero then "condition is always false" else "condition is always true"
    note ⟨.note, verdict, condition.pos⟩

/-- A condition in parentheses. -/
def condition : Parser Expr := do
  want .lparen
  let e ← expression
  want .rparen
  noteCondition e
  return e

/-- A value may be returned, and must be, when the function has one. -/
def checkReturn (hasValue : Bool) (pos : Position) : Parser Unit := do
  match (← get).function with
  | some (name, ty) =>
    if ty = .void && hasValue then fail (.returnValueInVoid pos)
    else if ty ≠ .void && !hasValue then fail (.missingReturnValue name pos)
    else return ()
  | none => return ()

/-- The rest of a return behind its keyword. -/
def returnRest (pos : Position) : Parser Stmt := do
  let value ← if ← atSymbol .semicolon then pure none else some <$> expression
  want .semicolon
  checkReturn value.isSome pos
  return .ret value pos

-- ========================================================== the grammar

mutual

/-- A statement. -/
def statementWith : Nat → Parser Stmt
  | 0 => stuck
  | fuel + 1 => do
    if ← atType then localVariable
    else
      match ← peek 0 with
      | some (.symbol .lcurly) =>
        let _ ← take "'\x7b'"
        .block <$> inScope (blockRest fuel)
      | some (.keyword .returnWord) =>
        let token ← take "'return'"
        returnRest token.pos
      | some (.keyword .ifWord) =>
        let token ← take "'if'"
        .branch <$> arm fuel token.pos
      | some (.keyword .whileWord) =>
        let token ← take "'while'"
        let e ← condition
        let body ← body fuel
        return .loop e body token.pos
      | some (.keyword .elseWord) =>
        let token ← take "'else'"
        fail (.elseWithoutIf token.pos)
      | _ =>
        let e ← expression
        want .semicolon
        return .expr e

/-- Statements up to the closing brace; the opening one is taken. -/
def blockRest : Nat → Parser (List Stmt)
  | 0 => stuck
  | fuel + 1 => do
    if ← accept .rcurly then return []
    else
      match ← peek 0 with
      | none => fail (.unexpectedEof Symbol.rcurly.describe (← get).last)
      | some _ =>
        let first ← statementWith fuel
        let rest ← blockRest fuel
        return first :: rest

/-- What a condition governs: a block or a single statement, in a scope of
its own. -/
def body : Nat → Parser (List Stmt)
  | 0 => stuck
  | fuel + 1 => inScope do
    if ← accept .lcurly then blockRest fuel
    else
      let only ← statementWith fuel
      return [only]

/-- An arm of an if chain behind its keyword. -/
def arm : Nat → Position → Parser Arm
  | 0, _ => stuck
  | fuel + 1, pos => do
    let e ← condition
    let consequent ← body fuel
    if ← atKeyword .elseWord then
      let _ ← take "'else'"
      if ← atKeyword .ifWord then
        let token ← take "'if'"
        let next ← arm fuel token.pos
        return ⟨e, consequent, .elseIf next, pos⟩
      else
        let alternate ← body fuel
        return ⟨e, consequent, .block alternate, pos⟩
    else return ⟨e, consequent, .none, pos⟩

end

/-- The rest of a function's body behind its opening brace. -/
def functionBody : Parser (List Stmt) := fun s => blockRest (steps s.tokens.length) s

end MiniC.Parser
