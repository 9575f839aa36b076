/-
The ground the grammar stands on: the ways a parse can fail, the state a
parse carries, and the steps that read tokens and record declarations. A
failed step keeps the state it reached, so that what was reported before
the failure is not lost. Consumed by the grammar modules.
-/
import MiniC.Diagnostic
import MiniC.Program
import MiniC.SymbolTable
import MiniC.Token

namespace MiniC

-- ============================================================= failures

/-- Why a token list is no program. -/
inductive ParseError where
  | unexpectedToken (expected found : String) (pos : Position)
  | unexpectedEof (expected : String) (pos : Position)
  | redefinition (name : String) (pos earlier : Position)
  | undeclared (name : String) (pos : Position)
  | missingDefault (name : String) (pos : Position)
  | unknownType (name : String) (pos : Position)
  | notAStructure (name : String) (pos : Position)
  | noMember (member aggregate : String) (pos : Position)
  | elseWithoutIf (pos : Position)
  | notAssignable (pos : Position)
  | constant (reason : EvalError) (pos : Position)
  | returnValueInVoid (pos : Position)
  | missingReturnValue (name : String) (pos : Position)
deriving DecidableEq, Repr

namespace ParseError

/-- The failure in words. -/
def message : ParseError → String
  | .unexpectedToken expected found _ => "expected " ++ expected ++ ", found " ++ found
  | .unexpectedEof expected _ => "unexpected end of file, expected " ++ expected
  | .redefinition name _ earlier =>
    "redefinition of '" ++ name ++ "' (previous definition at " ++ earlier.render ++ ")"
  | .undeclared name _ => "use of undeclared identifier '" ++ name ++ "'"
  | .missingDefault name _ => "missing default argument on parameter '" ++ name ++ "'"
  | .unknownType name _ => "unknown type name '" ++ name ++ "'"
  | .notAStructure name _ => "member reference base '" ++ name ++ "' is not a structure"
  | .noMember member aggregate _ => "no member named '" ++ member ++ "' in '" ++ aggregate ++ "'"
  | .elseWithoutIf _ => "'else' without a previous 'if'"
  | .notAssignable _ => "expression is not assignable"
  | .constant reason _ => "invalid constant expression: " ++ reason.message
  | .returnValueInVoid _ => "void function should not return a value"
  | .missingReturnValue name _ => "non-void function '" ++ name ++ "' should return a value"

/-- The place the failure is reported at. -/
def pos : ParseError → Position
  | .unexpectedToken _ _ pos
  | .unexpectedEof _ pos
  | .redefinition _ pos _
  | .undeclared _ pos
  | .missingDefault _ pos
  | .unknownType _ pos
  | .notAStructure _ pos
  | .noMember _ _ pos
  | .elseWithoutIf pos
  | .notAssignable pos
  | .constant _ pos
  | .returnValueInVoid pos
  | .missingReturnValue _ pos => pos

/-- The failure as an entry of a report. -/
def diagnostic (e : ParseError) : Diagnostic := ⟨.error, e.message, e.pos⟩

end ParseError

-- ================================================================ state

/-- Why a step stops: the tokens are faulty, or the parser is at fault
itself (out of steps, out of scopes, or looking too far ahead). No token
list leads to the second. -/
inductive Stop where
  | fault (e : ParseError)
  | stuck
deriving DecidableEq, Repr

/-- What a parse carries: the tokens ahead, the place of the last one
taken, the declarations in sight, the program so far, the function around
the current statement, and the report. -/
structure ParserState where
  tokens : List Token
  last : Position
  table : SymbolTable
  program : Program
  function : Option (String × Ty)
  report : Report

/-- A parsing step. -/
abbrev Parser (α : Type) : Type := EStateM Stop ParserState α

namespace Parser

/-- The state in front of a token list. -/
def initial (tokens : List Token) (report : Report) : ParserState :=
  { tokens, last := .start, table := .empty, program := ⟨[]⟩, function := none, report }

/-- Stops with a fault of the tokens. -/
def fail {α : Type} (e : ParseError) : Parser α := throw (.fault e)

/-- Stops with a fault of the parser. -/
def stuck {α : Type} : Parser α := throw .stuck

-- =============================================================== tokens

/-- How many tokens the parser may look at without taking them. -/
def window : Nat := 2

/-- The token `i` places ahead. -/
def peekToken (i : Nat) : Parser (Option Token) := fun s =>
  if i < window then .ok s.tokens[i]? s else .error .stuck s

/-- The lexeme `i` places ahead. -/
def peek (i : Nat) : Parser (Option Lexeme) := do
  return (← peekToken i).map (·.lexeme)

/-- Whether the next token is the given symbol. -/
def atSymbol (symbol : Symbol) : Parser Bool := do
  return (← peek 0) == some (.symbol symbol)

/-- Whether the next token is the given keyword. -/
def atKeyword (keyword : Keyword) : Parser Bool := do
  return (← peek 0) == some (.keyword keyword)

/-- Takes the next token; at the end, `expected` says what is missing. -/
def take (expected : String) : Parser Token := do
  let s ← get
  match s.tokens with
  | token :: rest =>
    set { s with tokens := rest, last := token.pos }
    return token
  | [] => fail (.unexpectedEof expected s.last)

/-- Stops at a token that is not what was expected. -/
def unexpected {α : Type} (expected : String) (found : Token) : Parser α :=
  fail (.unexpectedToken expected found.lexeme.describe found.pos)

/-- Takes the given symbol. -/
def want (symbol : Symbol) : Parser Unit := do
  let token ← take symbol.describe
  if token.lexeme = .symbol symbol then return ()
  else unexpected symbol.describe token

/-- Takes the given symbol if it is next; tells whether it was. -/
def accept (symbol : Symbol) : Parser Bool := do
  if ← atSymbol symbol then
    let _ ← take symbol.describe
    return true
  else return false

/-- Takes an identifier. -/
def wantIdent : Parser (String × Position) := do
  let token ← take "identifier"
  match token.lexeme with
  | .ident name => return (name, token.pos)
  | _ => unexpected "identifier" token

-- ========================================================= declarations

/-- Adds to the report. -/
def note (d : Diagnostic) : Parser Unit :=
  modify fun s => { s with report := s.report.push d }

/-- Stops with a failed folding, reported at the given place. -/
def folded {α : Type} (result : Except EvalError α) (pos : Position) : Parser α :=
  match result with
  | .ok a => return a
  | .error reason => fail (.constant reason pos)

/-- Declares a name in the current scope. -/
def declare (name : String) (ty : Ty) (pos : Position) : Parser Unit := do
  let s ← get
  match s.table.insert name ⟨ty, pos⟩ with
  | .ok table => set { s with table }
  | .error earlier => fail (.redefinition name pos earlier.pos)

/-- Leaves the current scope and puts the enclosing function back. -/
def leave (function : Option (String × Ty)) (s : ParserState) : Option ParserState :=
  s.table.pop?.map fun table => { s with table, function }

/-- Runs a step in a scope of its own, inside the given function; the scope
is left and the enclosing function put back whether the step fails or not. -/
def within {α : Type} (function : Option (String × Ty)) (step : Parser α) : Parser α := fun s =>
  match step { s with table := s.table.push, function } with
  | .ok a t =>
    match leave s.function t with
    | some t => .ok a t
    | none => .error .stuck t
  | .error e t =>
    match leave s.function t with
    | some t => .error e t
    | none => .error .stuck t

/-- Runs a step in a scope of its own. -/
def inScope {α : Type} (step : Parser α) : Parser α := do
  within (← get).function step

-- ================================================================ types

/-- Whether a type comes next: its keyword, or two identifiers in a row. -/
def atType : Parser Bool := do
  match ← peek 0 with
  | some (.keyword k) => return k.ty?.isSome
  | some (.ident _) =>
    match ← peek 1 with
    | some (.ident _) => return true
    | _ => return false
  | _ => return false

/-- Takes a type. A name must be that of an aggregate declared before. -/
def wantType : Parser Ty := do
  let token ← take "type name"
  match token.lexeme with
  | .keyword k =>
    match k.ty? with
    | some ty => return ty
    | none => unexpected "type name" token
  | .ident name =>
    match (← get).program.aggregate? name with
    | some _ => return .named name
    | none => fail (.unknownType name token.pos)
  | _ => unexpected "type name" token

end Parser

end MiniC
