/-
Declarations run forward: what the steps answer that look for a symbol or a
type, bring a name into sight, or open and close a scope, where the tokens
ahead and the table are known.

Each lemma is a step executed: given the tokens ahead and the table, it names the
answer and the state behind. A symbol that may be there is taken or not, by what
is ahead (`accept_some`, `accept_none`); a name is brought into sight or refused,
by what the table says (`declare_eq`, `declare_stops`); and a scope gives back
the table it was entered with, whatever happened inside (`within_eq`). From these
whole programs are read whose declarations are known one after the other
(`programWith_declare`, `parse_two`).

Consumed by the proofs that string literals reach the data and that a parse is
blind to its report.
-/
import MiniC.Parser.Declaration
import MiniC.Proofs.Parser.Running

namespace MiniC.Parser

variable {α : Type} {s t : ParserState} {token : Token} {rest : List Token} {symbol : Symbol}

-- ============================================================ tokens ahead

/-- At the end of the tokens there is none to take. -/
theorem take_stops (expected : String) (h : s.tokens = []) :
    take expected s = .error (.fault (.unexpectedEof expected s.last)) s := by
  unfold take
  rw [bind_eq (show (get : Parser ParserState) s = .ok s s from rfl), h]
  rfl

theorem atSymbol_eq (symbol : Symbol) (s : ParserState) :
    atSymbol symbol s = .ok (ahead s.tokens == some (.symbol symbol)) s := rfl

/-- A symbol that is ahead is taken. -/
theorem accept_some (htokens : s.tokens = token :: rest) (hlexeme : token.lexeme = .symbol symbol) :
    accept symbol s = .ok true (s.past [token]) := by
  have hat : (ahead s.tokens == some (.symbol symbol)) = true := by
    rw [htokens]
    exact beq_iff_eq.mpr (congrArg some hlexeme)
  unfold accept
  rw [bind_eq (atSymbol_eq symbol s), if_pos hat, bind_eq (take_eq htokens _)]
  rfl

/-- A symbol that is not ahead is left alone. -/
theorem accept_none (h : ahead s.tokens ≠ some (.symbol symbol)) :
    accept symbol s = .ok false s := by
  unfold accept
  rw [bind_eq (atSymbol_eq symbol s), if_neg (by simpa using h)]
  rfl

/-- The keyword of a type is a type ahead. -/
theorem atType_keyword {k : Keyword} {ty : Ty} (h : ahead s.tokens = some (.keyword k))
    (hty : k.ty? = some ty) : atType s = .ok true s := by
  unfold atType
  rw [bind_eq (peek_eq s), h]
  dsimp only
  rw [hty]
  rfl

/-- The keyword of a type is read as that type. -/
theorem wantType_keyword {k : Keyword} {ty : Ty} (htokens : s.tokens = token :: rest)
    (hlexeme : token.lexeme = .keyword k) (hty : k.ty? = some ty) :
    wantType s = .ok ty (s.past [token]) := by
  unfold wantType
  rw [bind_eq (take_eq htokens _), hlexeme]
  dsimp only
  rw [hty]
  rfl

-- ============================================================ declarations

/-- A name that the table admits comes into sight. -/
theorem declare_eq {name : String} {ty : Ty} {pos : Position} {table : SymbolTable}
    (h : s.table.insert name ⟨ty, pos⟩ = .ok table) :
    declare name ty pos s = .ok () { s with table } := by
  unfold declare
  rw [bind_eq (show (get : Parser ParserState) s = .ok s s from rfl), h]
  rfl

/-- A name that is in its scope already is a fault that cites both places. -/
theorem declare_stops {name : String} {ty : Ty} {pos : Position} {earlier : Binding}
    (h : s.table.insert name ⟨ty, pos⟩ = .error earlier) :
    declare name ty pos s = .error (.fault (.redefinition name pos earlier.pos)) s := by
  unfold declare
  rw [bind_eq (show (get : Parser ParserState) s = .ok s s from rfl), h]
  rfl

/-- Behind an answer a scope is closed. -/
theorem within_answers {function : Option (String × Ty)} {step : Parser α} {a : α}
    (hstep : step { s with table := s.table.push, function } = .ok a t) :
    within function step s = t.table.pop?.elim (.error .stuck t)
      fun table => .ok a { t with table, function := s.function } := by
  unfold within
  rw [hstep]
  dsimp only
  unfold leave
  cases t.table.pop? <;> rfl

/-- Behind a failure too. -/
theorem within_stops {function : Option (String × Ty)} {step : Parser α} {e : Stop}
    (hstep : step { s with table := s.table.push, function } = .error e t) :
    within function step s = t.table.pop?.elim (.error .stuck t)
      fun table => .error e { t with table, function := s.function } := by
  unfold within
  rw [hstep]
  dsimp only
  unfold leave
  cases t.table.pop? <;> rfl

/-- A step in a scope of its own leaves the table as the scope is closed. -/
theorem within_eq {function : Option (String × Ty)} {step : Parser α} {a : α}
    {table : SymbolTable} (hstep : step { s with table := s.table.push, function } = .ok a t)
    (hpop : t.table.pop? = some table) :
    within function step s = .ok a { t with table, function := s.function } := by
  rw [within_answers hstep, hpop]
  rfl

/-- An empty list of parameters takes its two parentheses. -/
theorem parameters_none {lparen rparen : Token} (htokens : s.tokens = lparen :: rparen :: rest)
    (hlparen : lparen.lexeme = .symbol .lparen) (hrparen : rparen.lexeme = .symbol .rparen) :
    parameters s = .ok [] (s.past [lparen, rparen]) := by
  unfold parameters steps
  rw [bind_eq (want_eq htokens hlparen),
    bind_eq (show (get : Parser ParserState) _ = .ok _ _ from rfl), Nat.mul_succ, parametersWith,
    bind_eq (accept_some (ParserState.past_token htokens) hrparen), if_pos rfl]
  rfl

-- ================================================================ programs

/-- What starts with the keyword of a type is a variable or a function. -/
theorem topLevel_keyword {k : Keyword} {ty : Ty} (h : ahead s.tokens = some (.keyword k))
    (hty : k.ty? = some ty) : topLevel s = globalDeclaration s := by
  unfold topLevel
  rw [bind_eq (peek_eq s), h]
  have hat := bind_eq (f := fun b => if b = true then globalDeclaration else do
    let token ← take "declaration"
    unexpected "declaration" token) (atType_keyword h hty)
  rw [if_pos rfl] at hat
  cases k <;> first | exact hat | cases hty

/-- A declaration is added to the program. -/
theorem programWith_declare {decl : Stmt} {fuel : Nat} (hahead : (ahead s.tokens).isSome = true)
    (h : topLevel s = .ok decl t) :
    programWith (fuel + 1) s
      = programWith fuel { t with program := ⟨t.program.body ++ [decl]⟩ } := by
  obtain ⟨l, hl⟩ := Option.isSome_iff_exists.mp hahead
  rw [programWith, bind_eq (peek_eq s), hl]
  dsimp only
  rw [bind_eq h]
  rfl

/-- At the end of the tokens the program is the one collected so far. -/
theorem programWith_end (fuel : Nat) (h : s.tokens = []) :
    programWith (fuel + 1) s = .ok s.program s := by
  rw [programWith, bind_eq (peek_eq s), h]
  rfl

/-- Two declarations up to the end of the tokens are a program. -/
theorem parse_two {tokens : List Token} {report : Report} {first second : Stmt}
    {t u : ParserState} (htokens : (ahead tokens).isSome = true)
    (hfirst : topLevel (initial tokens report) = .ok first t) (hempty : t.program = ⟨[]⟩)
    (hbetween : (ahead t.tokens).isSome = true)
    (hsecond : topLevel { t with program := ⟨[first]⟩ } = .ok second u)
    (hprogram : u.program = ⟨[first]⟩) (hend : u.tokens = []) :
    parse tokens report = (.ok ⟨[first, second]⟩, u.report) := by
  let v : ParserState := { u with program := ⟨[first, second]⟩ }
  have hrun : program (initial tokens report) = .ok ⟨[first, second]⟩ v := by
    have hsteps : steps tokens.length = 4 * tokens.length + 1 + 1 + 1 + 1 := by
      unfold steps
      omega
    show programWith (steps tokens.length) _ = _
    rw [hsteps, programWith_declare htokens hfirst, hempty]
    show programWith _ { t with program := ⟨[first]⟩ } = _
    rw [programWith_declare (s := { t with program := ⟨[first]⟩ }) hbetween hsecond, hprogram]
    exact programWith_end _ hend
  unfold parse outcome
  rw [hrun]

end MiniC.Parser
