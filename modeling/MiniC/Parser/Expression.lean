/-
The grammar of expressions, read by precedence climbing: a term, then every
operator that binds at least as tightly as the floor, each with a right
operand that first takes in what binds more tightly still. Assignments group
from the right. A minus in front of a number is folded at once. The number
of steps is bounded by the tokens ahead. Consumed by the grammar of
statements.
-/
import MiniC.Parser.State

namespace MiniC.Parser

-- ========================================================== identifiers

/-- The member behind an object of the given type. -/
def member (object : Ident) (base : Ty) : Parser Expr := do
  let token ← take "member access"
  let accessor? :=
    match token.lexeme with
    | .symbol symbol => symbol.accessor?
    | _ => none
  match accessor? with
  | none => unexpected "member access" token
  | some accessor =>
    let (name, pos) ← wantIdent
    match base with
    | .named aggregate =>
      match (← get).program.aggregate? aggregate with
      | some decl =>
        if (decl.member? name).isSome then
          return .member object accessor ⟨name, false, pos⟩ object.pos
        else fail (.noMember name aggregate pos)
      | none => fail (.unknownType aggregate object.pos)
    | _ => fail (.notAStructure object.name object.pos)

/-- Whether an accessor comes next. -/
def atAccessor : Parser Bool := do
  match ← peek 0 with
  | some (.symbol symbol) => return symbol.accessor?.isSome
  | _ => return false

/-- The type of a name in use. A name that is not in sight may still be that
of an aggregate in front of its scope accessor. -/
def typeOfName (name : String) (pos : Position) : Parser Ty := do
  let s ← get
  match s.table.lookup? name with
  | some binding => return binding.ty
  | none =>
    if (s.program.aggregate? name).isSome && (← atSymbol .scope) then return .named name
    else fail (.undeclared name pos)

/-- An identifier, with its member if an accessor follows. -/
def identifier (name : String) (pos : Position) : Parser Expr := do
  let base ← typeOfName name pos
  let ident : Ident := ⟨name, true, pos⟩
  if ← atAccessor then member ident base else return .ident ident

-- ================================================================ terms

/-- A minus and its operand; a number takes the sign and the place of it. -/
def negation (operand : Expr) (pos : Position) : Parser Expr :=
  match operand with
  | .number lit => do
    let negated ← folded lit.negate pos
    return .number { negated with pos }
  | operand => return .unary .minus .before operand pos

/-- An increment or decrement of something assignable. -/
def stepping (op : UnaryOp) (fixity : Fixity) (operand : Expr) (pos : Position) : Parser Expr :=
  if operand.isAssignable then return .unary op fixity operand pos
  else fail (.notAssignable operand.pos)

/-- The increment or decrement that a lexeme stands for. -/
def stepOp? : Lexeme → Option UnaryOp
  | .symbol .incr => some .incr
  | .symbol .decr => some .decr
  | _ => none

/-- A term with the increment or decrement that may follow it. -/
def postStep (operand : Expr) : Parser Expr := do
  match (← peek 0).bind stepOp? with
  | none => return operand
  | some op =>
    if operand.isAssignable then
      let token ← take "expression"
      return .unary op .after operand token.pos
    else fail (.notAssignable operand.pos)

/-- The operator that comes next. -/
def peekOperator : Parser (Option BinaryOp) := do
  return (← peek 0).bind Lexeme.binaryOp?

-- ========================================================== the grammar

mutual

/-- A term and the operators behind it. -/
def expressionWith : Nat → Parser Expr
  | 0 => stuck
  | fuel + 1 => do
    let lhs ← termWith fuel
    climb fuel 0 lhs

/-- Extends a left operand by the operators that bind at least as tightly
as the floor. -/
def climb : Nat → Nat → Expr → Parser Expr
  | 0, _, _ => stuck
  | fuel + 1, floor, lhs => do
    match ← peekOperator with
    | none => return lhs
    | some op =>
      if op.precedence < floor then return lhs
      else
        let token ← take "expression"
        let rhs ← termWith fuel
        let rhs ← tighten fuel op rhs
        if op.isAssignment && !lhs.isAssignable then fail (.notAssignable lhs.pos)
        else climb fuel floor (.combine op lhs rhs token.pos)

/-- Extends a right operand by what binds more tightly than its operator,
or as tightly and groups from the right. -/
def tighten : Nat → BinaryOp → Expr → Parser Expr
  | 0, _, _ => stuck
  | fuel + 1, op, rhs => do
    match ← peekOperator with
    | none => return rhs
    | some next =>
      if op.precedence < next.precedence then
        let rhs ← climb fuel (op.precedence + 1) rhs
        tighten fuel op rhs
      else if next.isRightAssoc && next.precedence = op.precedence then
        let rhs ← climb fuel op.precedence rhs
        tighten fuel op rhs
      else return rhs

/-- A primary expression and the step that may follow it. -/
def termWith : Nat → Parser Expr
  | 0 => stuck
  | fuel + 1 => do
    let operand ← primary fuel
    postStep operand

/-- A literal, an identifier, something in parentheses, or a unary operator
with its term. -/
def primary : Nat → Parser Expr
  | 0 => stuck
  | fuel + 1 => do
    let token ← take "expression"
    match token.lexeme with
    | .literal .string text => return .string ⟨text, text.utf8ByteSize, token.pos⟩
    | .literal kind text => return .number ⟨kind.ty, text, token.pos⟩
    | .ident name => identifier name token.pos
    | .symbol .lparen =>
      let inner ← expressionWith fuel
      want .rparen
      return inner
    | .symbol .sub =>
      let operand ← termWith fuel
      negation operand token.pos
    | .symbol .add =>
      let operand ← termWith fuel
      return .unary .plus .before operand token.pos
    | .symbol .excl =>
      let operand ← termWith fuel
      return .unary .not .before operand token.pos
    | .symbol .incr =>
      let operand ← termWith fuel
      stepping .incr .before operand token.pos
    | .symbol .decr =>
      let operand ← termWith fuel
      stepping .decr .before operand token.pos
    | _ => unexpected "expression" token

end

/-- How many steps suffice for a grammar rule in front of so many tokens:
no rule calls more than three others before it takes a token. -/
def steps (tokens : Nat) : Nat := 4 * (tokens + 1)

/-- An expression. -/
def expression : Parser Expr := fun s => expressionWith (steps s.tokens.length) s

end MiniC.Parser

namespace MiniC

/-- Gives a step's outcome to a caller: the result and the report. A stop
that no token list leads to shows as the end of the tokens. -/
def Parser.outcome {α : Type} (step : Parser α) (tokens : List Token) (report : Report) :
    Except ParseError α × Report :=
  match step (Parser.initial tokens report) with
  | .ok a s => (.ok a, s.report)
  | .error (.fault e) s => (.error e, s.report)
  | .error .stuck s => (.error (.unexpectedEof "declaration" s.last), s.report)

/-- Reads an expression that uses no declarations; what follows it is left
unread. -/
def parseExpression (tokens : List Token) (report : Report) : Except ParseError Expr × Report :=
  Parser.expression.outcome tokens report

end MiniC
