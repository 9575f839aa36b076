/-
The grammar of declarations: functions with their parameters, aggregates
with their members and methods, and the program as a list of declarations.
An aggregate's name is in sight behind its declaration only, so that no
aggregate contains itself. The first fault ends the parse. Consumed by the
front end.
-/
import MiniC.Parser.Statement

namespace MiniC.Parser

-- =========================================================== functions

/-- A parameter behind those read so far. Defaults form a suffix of the
list. -/
def parameter (earlier : List VariableDecl) : Parser VariableDecl := do
  let ty ← wantType
  let (name, pos) ← wantIdent
  let init ← initializer ty
  if init.isNone && earlier.any (·.init.isSome) then fail (.missingDefault name pos)
  else
    declare name ty pos
    return ⟨ty, name, init, .block, pos⟩

/-- Parameters up to the closing parenthesis; a comma may stand before it. -/
def parametersWith : Nat → List VariableDecl → Parser (List VariableDecl)
  | 0, _ => stuck
  | fuel + 1, earlier => do
    if ← accept .rparen then return earlier
    else
      let decl ← parameter earlier
      if ← accept .comma then parametersWith fuel (earlier ++ [decl])
      else
        want .rparen
        return earlier ++ [decl]

/-- A parameter list in parentheses. -/
def parameters : Parser (List VariableDecl) := do
  want .lparen
  let s ← get
  parametersWith (steps s.tokens.length) []

/-- The rest of a function behind its type and name. The name is in sight
of the function itself; parameters share the scope of its body. -/
def functionRest (returnType : Ty) (name : String) (pos : Position) (access : Access) :
    Parser FunctionDecl := do
  declare name returnType pos
  within (some (name, returnType)) do
    let params ← parameters
    want .lcurly
    let body ← functionBody
    return ⟨returnType, name, params, body, access, pos⟩

-- ========================================================== aggregates

/-- The access that a keyword switches to. -/
def accessOf? : Lexeme → Option Access
  | .keyword .publicWord => some .publicMember
  | .keyword .protectedWord => some .protectedMember
  | .keyword .privateWord => some .privateMember
  | _ => none

/-- Members and methods up to the closing brace, added to those read so
far. An access label governs what follows it. -/
def membersWith : Nat → Access → AggregateDecl → Parser AggregateDecl
  | 0, _, _ => stuck
  | fuel + 1, access, decl => do
    if ← accept .rcurly then return decl
    else
      match (← peek 0).bind accessOf? with
      | some access =>
        let _ ← take "access mode"
        want .colon
        membersWith fuel access decl
      | none =>
        let ty ← wantType
        let (name, pos) ← wantIdent
        if ← atSymbol .lparen then
          let method ← functionRest ty name pos access
          membersWith fuel access { decl with methods := decl.methods ++ [method] }
        else
          let member ← variableRest ty name pos access
          membersWith fuel access { decl with members := decl.members ++ [member] }

/-- What members of an aggregate are unless a label says otherwise. -/
def defaultAccess : AggregateKind → Access
  | .struct => .publicMember
  | .cls => .privateMember

/-- An aggregate behind its keyword. -/
def aggregate (kind : AggregateKind) : Parser Stmt := do
  let (name, pos) ← wantIdent
  match (← get).program.aggregate? name with
  | some earlier => fail (.redefinition name pos earlier.pos)
  | none =>
    want .lcurly
    let s ← get
    let decl ← inScope <|
      membersWith (steps s.tokens.length) (defaultAccess kind) ⟨kind, name, [], [], pos⟩
    let _ ← accept .semicolon
    return .aggregate decl

-- ============================================================ programs

/-- A global variable or a function. -/
def globalDeclaration : Parser Stmt := do
  let ty ← wantType
  let (name, pos) ← wantIdent
  if ← atSymbol .lparen then return .function (← functionRest ty name pos .global)
  else if (← atSymbol .assign) || (← atSymbol .semicolon) then
    return .variable (← variableRest ty name pos .global)
  else
    let token ← take "';' or '='"
    unexpected "';' or '='" token

/-- A top-level declaration. -/
def topLevel : Parser Stmt := do
  match ← peek 0 with
  | some (.keyword .structWord) =>
    let _ ← take "'struct'"
    aggregate .struct
  | some (.keyword .classWord) =>
    let _ ← take "'class'"
    aggregate .cls
  | some (.keyword .elseWord) =>
    let token ← take "'else'"
    fail (.elseWithoutIf token.pos)
  | _ =>
    if ← atType then globalDeclaration
    else
      let token ← take "declaration"
      unexpected "declaration" token

/-- Declarations up to the end of the tokens. -/
def programWith : Nat → Parser Program
  | 0 => stuck
  | fuel + 1 => do
    match ← peek 0 with
    | none => return (← get).program
    | some _ =>
      let decl ← topLevel
      modify fun s => { s with program := ⟨s.program.body ++ [decl]⟩ }
      programWith fuel

/-- A whole program. -/
def program : Parser Program := fun s => programWith (steps s.tokens.length) s

end MiniC.Parser

namespace MiniC

/-- Reads a program. The report gains the notes and warnings of the parse,
not the fault that ends it. -/
def parse (tokens : List Token) (report : Report) : Except ParseError Program × Report :=
  Parser.program.outcome tokens report

end MiniC
