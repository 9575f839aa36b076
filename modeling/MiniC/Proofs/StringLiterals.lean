/-
String literals reach the data byte for byte. A program has one string
twice, in a global and in a local variable, written with a backslash in
front of what would end or change it (`twice`); the string is any.

# Through the compiler

The text is followed through the compiler: it is cut into its words
(`twice_lexes`), they are read as two variables that hold the string itself
(`twice_parses`), and each of these has a label of its own in the assembly
(`twice_generates`). The lexer takes an escaped string apart character by
character, so the literal is an induction on the string; everything around it
is a fixed list of words, read by the equations of the grammar one after the
other.

# Reading back

Under the label of an occurrence a reader of the data finds the bytes of that
string and a zero (`data_reads`), and no other line is read under it; so the
string reaches the data twice (`literals_reach_data`).
Consumed by no other module.
-/
import MiniC.Pipeline
import MiniC.Proofs.Asm.DataLines
import MiniC.Proofs.Codegen.Symbols
import MiniC.Proofs.Parser.Declaring
import MiniC.Proofs.Token.Respelling

namespace MiniC

/-- A string as a literal: backslashes, quotes and ends of lines are
escaped, and everything else stands for itself. -/
def literalOf (value : String) : String := String.ofList (Piece.quoted '"' value.toList)

/-- A program with a string in a global and in a local variable. -/
def twice (value : String) : String :=
  "string g = " ++ literalOf value ++ "; int main() \x7b string t = " ++ literalOf value ++ "; \x7d"

-- ================================================================== words

/-- A text is cut into words and blanks without a fault, the words being the
given ones. -/
def Lexes (cs : List Char) (ls : List Lexeme) : Prop :=
  (Piece.ofText cs).filterMap (·.lexeme) = ls ∧ ∀ p ∈ Piece.ofText cs, p.faults = []

namespace Lexes

open Piece

variable {c : Char} {cs chars rest : List Char} {ls : List Lexeme}

/-- No text has no words. -/
theorem nil : Lexes [] [] := ⟨rfl, nofun⟩

/-- The first piece is a word. -/
theorem cons {l : Lexeme} (hnext : next c cs = (⟨chars, some l, []⟩, rest)) (h : Lexes rest ls) :
    Lexes (c :: cs) (l :: ls) := by
  unfold Lexes
  rw [ofText_cons, hnext]
  exact ⟨congrArg (l :: ·) h.1, List.forall_mem_cons.mpr ⟨rfl, h.2⟩⟩

/-- A blank is between words. -/
theorem blank (h : Lexes rest ls) : Lexes (' ' :: rest) ls := by
  unfold Lexes
  rw [ofText_cons]
  exact ⟨h.1, List.forall_mem_cons.mpr ⟨rfl, h.2⟩⟩

/-- A word is read in front of anything that does not continue it. -/
theorem word (hchars : startsIdent c = true ∧ cs.all continuesIdent = true)
    (hrest : rest.head?.all (!continuesIdent ·) = true) (h : Lexes rest ls) :
    Lexes (c :: cs ++ rest) (lexemeOfWord (String.ofList (c :: cs)) :: ls) := by
  refine cons (next_word hchars.1 (List.all_eq_true.mp hchars.2) fun d hd => ?_) h
  rw [hd] at hrest
  exact Bool.not_eq_true' _ ▸ hrest

/-- A symbol of one character is read where no longer one stands. -/
theorem symbol {s : Symbol} (hplain : Plain c ∧ c ≠ '.' ∧ c ≠ '/') (hone : symbolOfOne? c = some s)
    (htwo : rest.head?.all (fun d => (symbolOfTwo? c d).isNone) = true) (h : Lexes rest ls) :
    Lexes (c :: rest) (.symbol s :: ls) := by
  obtain ⟨hplain, hpoint, hslash⟩ := hplain
  have hnone : ∀ d ∈ rest.head?, symbolOfTwo? c d = none := by
    intro d hd
    rw [hd] at htwo
    exact Option.isNone_iff_eq_none.mp htwo
  have hnext : next c rest = (⟨[c], some (.symbol s), []⟩, rest) := by
    rw [next_symbol hplain (fun h => absurd h hpoint) (fun h => absurd h hslash),
      readSymbol_one hnone, hone]
    rfl
  exact cons hnext h

/-- A literal is read whatever is behind it. -/
theorem literal (value : String) (h : Lexes rest ls) :
    Lexes ((literalOf value).toList ++ rest) (.literal .string value :: ls) := by
  have hquote : escape? '"' = some '"' := rfl
  have hnext := next_string (quotes_escaped hquote value.toList) rest
  rw [String.ofList_toList] at hnext
  unfold literalOf quoted
  rw [String.toList_ofList, List.cons_append, List.append_assoc]
  exact cons hnext h

end Lexes

/-- The words of a variable that holds a string. -/
def declaring (name value : String) : List Lexeme :=
  [.keyword .string, .ident name, .symbol .assign, .literal .string value, .symbol .semicolon]

/-- The words of the program. -/
def twiceLexemes (value : String) : List Lexeme :=
  declaring "g" value
    ++ [.keyword .int, .ident "main", .symbol .lparen, .symbol .rparen, .symbol .lcurly]
    ++ declaring "t" value ++ [.symbol .rcurly]

/-- The program is cut into its words. -/
theorem twice_lexes (value : String) : Lexes (twice value).toList (twiceLexemes value) := by
  have hend : Lexes "; \x7d".toList [.symbol .semicolon, .symbol .rcurly] :=
    .symbol (by decide) rfl rfl <| .blank <| .symbol (by decide) rfl rfl .nil
  have hmiddle {rest : List Char} {ls : List Lexeme} (h : Lexes rest ls) :
      Lexes ("; int main() \x7b string t = ".toList ++ rest)
        (.symbol .semicolon :: .keyword .int :: .ident "main" :: .symbol .lparen
          :: .symbol .rparen :: .symbol .lcurly :: .keyword .string :: .ident "t"
          :: .symbol .assign :: ls) := by
    show Lexes (';' :: ' ' :: ('i' :: ['n', 't'] ++ ' ' :: ('m' :: ['a', 'i', 'n'] ++ '(' :: ')'
      :: ' ' :: '\x7b' :: ' ' :: ('s' :: ['t', 'r', 'i', 'n', 'g'] ++ ' ' :: ('t' :: [] ++ ' '
      :: '=' :: ' ' :: rest))))) _
    exact .symbol (by decide) rfl rfl <| .blank <| .word (by decide) rfl <| .blank
      <| .word (by decide) rfl <| .symbol (by decide) rfl rfl <| .symbol (by decide) rfl rfl
      <| .blank <| .symbol (by decide) rfl rfl <| .blank <| .word (by decide) rfl <| .blank
      <| .word (by decide) rfl <| .blank <| .symbol (by decide) rfl rfl <| .blank h
  have hopening {rest : List Char} {ls : List Lexeme} (h : Lexes rest ls) :
      Lexes ("string g = ".toList ++ rest)
        (.keyword .string :: .ident "g" :: .symbol .assign :: ls) := by
    show Lexes ('s' :: ['t', 'r', 'i', 'n', 'g'] ++ ' ' :: ('g' :: [] ++ ' ' :: '=' :: ' ' :: rest))
      _
    exact .word (by decide) rfl <| .blank <| .word (by decide) rfl <| .blank
      <| .symbol (by decide) rfl rfl <| .blank h
  unfold twice
  simp only [String.toList_append, List.append_assoc]
  exact hopening <| .literal value <| hmiddle <| .literal value hend

-- ================================================================== syntax

/-- A variable that holds a string; its name and its literal have a place each. -/
def stringVariable (name value : String) (access : Access) (pos place : Position) : VariableDecl :=
  ⟨.string, name, some (.string ⟨value, value.utf8ByteSize, place⟩), access, pos⟩

/-- The program as it is read. -/
def twiceProgram (value : String) (g first main t second : Position) : Program :=
  ⟨[.variable (stringVariable "g" value .global g first),
    .function ⟨.int, "main", [], [.variable (stringVariable "t" value .block t second)], .global,
      main⟩]⟩

namespace Parser

variable {s : ParserState} {token semicolon : Token} {rest : List Token} {value : String}

/-- A string literal in front of a semicolon is an expression. -/
theorem expression_string (htokens : s.tokens = token :: semicolon :: rest)
    (hlexeme : token.lexeme = .literal .string value)
    (hend : semicolon.lexeme = .symbol .semicolon) :
    expression s = .ok (.string ⟨value, value.utf8ByteSize, token.pos⟩) (s.past [token]) := by
  have hnext : (s.past [token]).tokens = semicolon :: rest := ParserState.past_token htokens
  have hahead : ahead (s.past [token]).tokens = some (.symbol .semicolon) := by
    rw [hnext]
    exact congrArg some hend
  obtain ⟨fuel, hfuel⟩ : ∃ fuel, steps s.tokens.length = fuel + 3 :=
    ⟨4 * s.tokens.length + 1, by unfold steps; omega⟩
  have hprimary : primary (fuel + 1) s
      = .ok (.string ⟨value, value.utf8ByteSize, token.pos⟩) (s.past [token]) := by
    rw [primary, bind_eq (take_eq htokens _), hlexeme]
    rfl
  have hterm : termWith (fuel + 2) s
      = .ok (.string ⟨value, value.utf8ByteSize, token.pos⟩) (s.past [token]) := by
    rw [termWith, bind_eq hprimary]
    exact postStep_none (by rw [hahead]; rfl)
  unfold expression
  rw [hfuel, expressionWith, bind_eq hterm]
  refine climb_stop (fun op hop => ?_) _ _
  unfold operatorAhead at hop
  rw [hahead] at hop
  cases hop

/-- The rest of a variable that holds a string, where its name is free. -/
theorem variableRest_string {name : String} {pos : Position} {access : Access} {equals : Token}
    {table : SymbolTable} (htokens : s.tokens = equals :: token :: semicolon :: rest)
    (hequals : equals.lexeme = .symbol .assign) (hlexeme : token.lexeme = .literal .string value)
    (hend : semicolon.lexeme = .symbol .semicolon)
    (hinsert : s.table.insert name ⟨.string, pos⟩ = .ok table) :
    variableRest .string name pos access s
      = .ok (stringVariable name value access pos token.pos)
        { s.past [equals, token, semicolon] with table } := by
  have hliteral : (s.past [equals]).tokens = token :: semicolon :: rest :=
    ParserState.past_token htokens
  have hsemicolon : ((s.past [equals]).past [token]).tokens = semicolon :: rest :=
    ParserState.past_token hliteral
  have hinit : initializer .string s
      = .ok (some (.string ⟨value, value.utf8ByteSize, token.pos⟩))
        ((s.past [equals]).past [token]) := by
    unfold initializer
    rw [bind_eq (accept_some htokens hequals), if_pos rfl,
      bind_eq (expression_string hliteral hlexeme hend)]
    rfl
  have hdeclare : declare name .string pos (s.past [equals, token, semicolon])
      = .ok () { s.past [equals, token, semicolon] with table } :=
    declare_eq (by rw [ParserState.past_table]; exact hinsert)
  unfold variableRest
  rw [bind_eq hinit, bind_eq (want_eq hsemicolon hend)]
  exact bind_eq hdeclare

section Variables

variable {keyword ident equals literal : Token} {name : String} {table : SymbolTable}
  (htokens : s.tokens = keyword :: ident :: equals :: literal :: semicolon :: rest)
  (hlexemes : [keyword, ident, equals, literal, semicolon].map (·.lexeme) = declaring name value)
  (hinsert : s.table.insert name ⟨.string, ident.pos⟩ = .ok table)

include htokens hlexemes hinsert

/-- What the steps of a declaration find in front of such words. -/
theorem declaring_steps (access : Access) :
    ahead s.tokens = some (.keyword .string)
      ∧ wantType s = .ok .string (s.past [keyword])
      ∧ wantIdent (s.past [keyword]) = .ok (name, ident.pos) (s.past [keyword, ident])
      ∧ (∀ symbol, atSymbol symbol (s.past [keyword, ident])
          = .ok (Symbol.assign == symbol) (s.past [keyword, ident]))
      ∧ variableRest .string name ident.pos access (s.past [keyword, ident])
        = .ok (stringVariable name value access ident.pos literal.pos)
          { s.past [keyword, ident, equals, literal, semicolon] with table } := by
  simp only [List.map_cons, List.map_nil, declaring, List.cons.injEq, and_true] at hlexemes
  obtain ⟨hkeyword, hident, hequals, hliteral, hsemicolon⟩ := hlexemes
  have htype : (s.past [keyword]).tokens = ident :: equals :: literal :: semicolon :: rest :=
    ParserState.past_token htokens
  have hname : (s.past [keyword, ident]).tokens = equals :: literal :: semicolon :: rest :=
    ParserState.past_token htype
  refine ⟨?_, wantType_keyword htokens hkeyword rfl, wantIdent_eq htype hident, fun symbol => ?_,
    variableRest_string hname hequals hliteral hsemicolon hinsert⟩
  · rw [htokens]
    exact congrArg some hkeyword
  · have hassign : ahead (s.past [keyword, ident]).tokens = some (.symbol .assign) := by
      rw [hname]
      exact congrArg some hequals
    rw [atSymbol_eq, hassign]
    cases symbol <;> rfl

/-- A variable that holds a string, at the top of a program. -/
theorem topLevel_string :
    topLevel s = .ok (.variable (stringVariable name value .global ident.pos literal.pos))
      { s.past [keyword, ident, equals, literal, semicolon] with table } := by
  obtain ⟨hahead, htype, hname, hat, hrest⟩ :=
    declaring_steps htokens hlexemes hinsert .global
  rw [topLevel_keyword hahead rfl, globalDeclaration, bind_eq htype, bind_eq hname]
  dsimp only
  rw [bind_eq (hat _), if_neg (by decide), bind_eq (hat _), bind_eq (hat _), if_pos (by decide)]
  exact bind_eq hrest

/-- The same inside a function. -/
theorem localVariable_string :
    localVariable s = .ok (.variable (stringVariable name value .block ident.pos literal.pos))
      { s.past [keyword, ident, equals, literal, semicolon] with table } := by
  obtain ⟨-, htype, hname, hat, hrest⟩ := declaring_steps htokens hlexemes hinsert .block
  unfold localVariable
  rw [bind_eq htype, bind_eq hname]
  dsimp only
  rw [bind_eq (hat _), bind_eq (hat _), if_pos (by decide)]
  exact bind_eq hrest

/-- Such a variable is a whole body, in front of the closing brace. -/
theorem functionBody_string {rcurly : Token} {rest' : List Token} (hrest : rest = rcurly :: rest')
    (hrcurly : rcurly.lexeme = .symbol .rcurly) :
    functionBody s
      = .ok [.variable (stringVariable name value .block ident.pos literal.pos)]
        ({ s.past [keyword, ident, equals, literal, semicolon] with table }.past [rcurly]) := by
  subst hrest
  let t : ParserState := { s.past [keyword, ident, equals, literal, semicolon] with table }
  have hahead : ahead s.tokens = some (.keyword .string) :=
    (declaring_steps htokens hlexemes hinsert .block).1
  obtain ⟨fuel, hfuel⟩ : ∃ fuel, steps s.tokens.length = fuel + 2 :=
    ⟨4 * s.tokens.length + 2, by unfold steps; omega⟩
  have hstatement : statementWith (fuel + 1) s
      = .ok (.variable (stringVariable name value .block ident.pos literal.pos)) t := by
    rw [statementWith, bind_eq (atType_keyword hahead rfl), if_pos rfl]
    exact localVariable_string htokens hlexemes hinsert
  have hclosing : t.tokens = rcurly :: rest' :=
    ParserState.past_tokens
      (show s.tokens = [keyword, ident, equals, literal, semicolon] ++ rcurly :: rest' from htokens)
  have hend : blockRest (fuel + 1) t = .ok [] (t.past [rcurly]) := by
    rw [blockRest, bind_eq (accept_some hclosing hrcurly), if_pos rfl]
    rfl
  unfold functionBody
  rw [hfuel, blockRest, bind_eq (accept_none (by rw [hahead]; decide)),
    if_neg Bool.false_ne_true, bind_eq (peek_eq s), hahead]
  dsimp only
  rw [bind_eq hstatement, bind_eq hend]
  rfl

end Variables

section Function

variable {int main lparen rparen lcurly keyword ident equals literal rcurly : Token}
  {pos : Position} {table inner outer : SymbolTable}
  (hparens : [lparen, rparen, lcurly].map (·.lexeme)
    = [.symbol .lparen, .symbol .rparen, .symbol .lcurly])
  (hlexemes : [keyword, ident, equals, literal, semicolon].map (·.lexeme) = declaring "t" value)
  (hrcurly : rcurly.lexeme = .symbol .rcurly)
  (hinsert : table.push.insert "t" ⟨.string, ident.pos⟩ = .ok inner)
  (hpop : inner.pop? = some outer)

include hparens hlexemes hrcurly hinsert hpop

/-- A function without parameters whose body is such a variable. -/
theorem functionRest_string (htokens : s.tokens = lparen :: rparen :: lcurly
      :: keyword :: ident :: equals :: literal :: semicolon :: rcurly :: rest)
    (hmain : s.table.insert "main" ⟨.int, pos⟩ = .ok table) :
    ∃ t, functionRest .int "main" pos .global s
        = .ok ⟨.int, "main", [],
          [.variable (stringVariable "t" value .block ident.pos literal.pos)], .global, pos⟩ t
      ∧ t.tokens = rest ∧ t.program = s.program ∧ t.report = s.report := by
  simp only [List.map_cons, List.map_nil, List.cons.injEq, and_true] at hparens
  obtain ⟨hlparen, hrparen, hlcurly⟩ := hparens
  -- The states in front of the parameters, of the body and of the closing brace.
  let u : ParserState := { s with table := table.push, function := some ("main", .int) }
  let v : ParserState := u.past [lparen, rparen, lcurly]
  let w : ParserState :=
    { v.past [keyword, ident, equals, literal, semicolon] with table := inner }
  have hu : u.tokens = lparen :: rparen :: lcurly
      :: keyword :: ident :: equals :: literal :: semicolon :: rcurly :: rest := htokens
  have hcurly : (u.past [lparen, rparen]).tokens = lcurly
      :: keyword :: ident :: equals :: literal :: semicolon :: rcurly :: rest :=
    ParserState.past_token (ParserState.past_token hu)
  have hv : v.tokens = keyword :: ident :: equals :: literal :: semicolon :: rcurly :: rest :=
    ParserState.past_token hcurly
  have hw : w.tokens = rcurly :: rest :=
    ParserState.past_tokens
      (show v.tokens = [keyword, ident, equals, literal, semicolon] ++ rcurly :: rest from hv)
  have htable : v.table = table.push := ParserState.past_table u _
  have hbody : functionBody v
      = .ok [.variable (stringVariable "t" value .block ident.pos literal.pos)]
        (w.past [rcurly]) :=
    functionBody_string hv hlexemes (htable ▸ hinsert) rfl hrcurly
  have hpopped : (w.past [rcurly]).table.pop? = some outer := by
    rw [ParserState.past_table]
    exact hpop
  refine ⟨{ w.past [rcurly] with table := outer, function := s.function }, ?_, ?_, ?_, ?_⟩
  · unfold functionRest
    rw [bind_eq (declare_eq hmain)]
    refine within_eq ?_ hpopped
    rw [bind_eq (parameters_none hu hlparen hrparen), bind_eq (want_eq hcurly hlcurly)]
    exact bind_eq hbody
  · exact ParserState.past_token hw
  · show ((v.past _).past _).program = _
    rw [ParserState.past_program, ParserState.past_program, ParserState.past_program]
  · show ((v.past _).past _).report = _
    rw [ParserState.past_report, ParserState.past_report, ParserState.past_report]

/-- The same with its type and name in front. -/
theorem topLevel_main (htokens : s.tokens = int :: main :: lparen :: rparen :: lcurly
      :: keyword :: ident :: equals :: literal :: semicolon :: rcurly :: rest)
    (hint : int.lexeme = .keyword .int) (hname : main.lexeme = .ident "main")
    (hmain : s.table.insert "main" ⟨.int, main.pos⟩ = .ok table) :
    ∃ t, topLevel s
        = .ok (.function ⟨.int, "main", [],
          [.variable (stringVariable "t" value .block ident.pos literal.pos)], .global,
          main.pos⟩) t
      ∧ t.tokens = rest ∧ t.program = s.program ∧ t.report = s.report := by
  have htype : (s.past [int]).tokens = _ := ParserState.past_token htokens
  have hparen : (s.past [int, main]).tokens = _ := ParserState.past_token htype
  have hat : atSymbol .lparen (s.past [int, main]) = .ok true (s.past [int, main]) := by
    have hlparen : lparen.lexeme = .symbol .lparen := (List.cons.inj hparens).1
    rw [atSymbol_eq, hparen]
    exact congrArg (fun b => EStateM.Result.ok b _) (beq_iff_eq.mpr (congrArg some hlparen))
  have hident : wantIdent (s.past [int]) = .ok ("main", main.pos) (s.past [int, main]) :=
    wantIdent_eq htype hname
  obtain ⟨t, hrest, hleft, hprogram, hreport⟩ :=
    functionRest_string hparens hlexemes hrcurly hinsert hpop hparen
      (by rw [ParserState.past_table]; exact hmain)
  refine ⟨t, ?_, hleft, ?_, ?_⟩
  · have hahead : ahead s.tokens = some (.keyword .int) := by
      rw [htokens]
      exact congrArg some hint
    rw [topLevel_keyword hahead rfl, globalDeclaration, bind_eq (wantType_keyword htokens hint rfl),
      bind_eq hident]
    dsimp only
    rw [bind_eq hat, if_pos rfl]
    exact bind_eq hrest
  · rw [hprogram, ParserState.past_program]
  · rw [hreport, ParserState.past_report]

end Function

end Parser

/-- Five tokens have a name each. -/
theorem exists_tokens {tokens : List Token} {a b c d e : Lexeme}
    (h : tokens.map (·.lexeme) = [a, b, c, d, e]) :
    ∃ t₁ t₂ t₃ t₄ t₅, tokens = [t₁, t₂, t₃, t₄, t₅] :=
  have hlength : tokens.length = 5 := by simpa using congrArg List.length h
  let [t₁, t₂, t₃, t₄, t₅] := tokens
  ⟨t₁, t₂, t₃, t₄, t₅, rfl⟩

/-- The words of the program are read as the two variables, and nothing is
reported. -/
theorem twice_parses {value : String} {tokens : List Token}
    (h : tokens.map (·.lexeme) = twiceLexemes value) (report : Report) :
    ∃ g first main t second,
      parse tokens report = (.ok (twiceProgram value g first main t second), report) := by
  obtain ⟨others, closing, hothers, hfront, hclosing⟩ := List.map_eq_append_iff.mp h
  obtain ⟨front, inside, rfl, hfront, hinside⟩ := List.map_eq_append_iff.mp hfront
  obtain ⟨before, opening, rfl, hbefore, hopening⟩ := List.map_eq_append_iff.mp hfront
  obtain ⟨string₁, g, equals₁, literal₁, semicolon₁, rfl⟩ := exists_tokens hbefore
  obtain ⟨int, main, lparen, rparen, lcurly, rfl⟩ := exists_tokens hopening
  obtain ⟨string₂, t, equals₂, literal₂, semicolon₂, rfl⟩ := exists_tokens hinside
  obtain ⟨rcurly, _, rfl, hrcurly, hnil⟩ := List.map_eq_cons_iff.mp hclosing
  obtain rfl := List.map_eq_nil_iff.mp hnil
  obtain ⟨hint, hopening⟩ := List.cons.inj hopening
  obtain ⟨hname, hparens⟩ := List.cons.inj hopening
  -- The tables with `g`, with `main`, and with `t` in the scope of `main`.
  let table₁ : SymbolTable := ⟨#[none], [((0, "g"), ⟨.string, g.pos⟩)], 0⟩
  let table₂ : SymbolTable :=
    { table₁ with bindings := ((0, "main"), ⟨.int, main.pos⟩) :: table₁.bindings }
  let table₃ : SymbolTable :=
    ⟨#[none, some 0], ((1, "t"), ⟨.string, t.pos⟩) :: table₂.bindings, 1⟩
  -- The states behind the first variable, and in front of the function.
  let s : ParserState :=
    { (Parser.initial tokens report).past [string₁, g, equals₁, literal₁, semicolon₁] with
      table := table₁ }
  let u : ParserState :=
    { s with program := ⟨[.variable (stringVariable "g" value .global g.pos literal₁.pos)]⟩ }
  have hs : s.tokens = int :: main :: lparen :: rparen :: lcurly :: string₂ :: t :: equals₂
      :: literal₂ :: semicolon₂ :: [rcurly] :=
    ParserState.past_tokens (show (Parser.initial tokens report).tokens
      = [string₁, g, equals₁, literal₁, semicolon₁] ++ _ from hothers)
  have hvariable : Parser.topLevel (Parser.initial tokens report)
      = .ok (.variable (stringVariable "g" value .global g.pos literal₁.pos)) s :=
    Parser.topLevel_string hothers hbefore rfl
  have hinner : table₂.push.insert "t" ⟨.string, t.pos⟩ = .ok table₃ := rfl
  have houter : table₃.pop? = some { table₃ with current := 0 } := rfl
  have hmain : u.table.insert "main" ⟨.int, main.pos⟩ = .ok table₂ := rfl
  obtain ⟨v, hfunction, hend, hprogram, hreport⟩ :=
    Parser.topLevel_main (s := u) hparens hinside hrcurly hinner houter hs hint hname hmain
  have hempty : s.program = ⟨[]⟩ := ParserState.past_program _ _
  have hreport : v.report = report := hreport.trans (ParserState.past_report _ _)
  have hfirst : (Parser.ahead tokens).isSome = true := by rw [hothers]; rfl
  have hnext : (Parser.ahead s.tokens).isSome = true := by rw [hs]; rfl
  refine ⟨g.pos, literal₁.pos, main.pos, t.pos, literal₂.pos, ?_⟩
  rw [Parser.parse_two hfirst hvariable hempty hnext hfunction hprogram hend, hreport]
  rfl

-- ================================================================ assembly

namespace Codegen

namespace StringPool

/-- A label has no colon in it. -/
theorem colon_label (n : Nat) : ':' ∉ (label n).toList := by
  unfold label
  rw [String.toList_append, List.mem_append, not_or]
  refine ⟨by decide, fun h => ?_⟩
  have hdigits : ':' ∈ Nat.toDigits 10 n := by
    have : (toString n).toList = Nat.toDigits 10 n := String.toList_ofList
    rwa [this] at h
  have hdigit : Char.isDigit ':' = true :=
    Nat.isDigit_of_mem_toDigits (by decide) (by decide) hdigits
  exact absurd hdigit (by decide)

/-- Under its label a string is read, and nothing else is. -/
theorem data_reads (p : StringPool) (n : Nat) :
    (p.data.map Asm.Datum.render).filterMap (Asm.lineNumbers? (label n))
      = (p.values[n]?.map fun value => value.toUTF8.toList.map UInt8.toNat ++ [0]).toList := by
  obtain ⟨values⟩ := p
  induction values using List.reverseRecOn with
  | nil => rfl
  | append_singleton values value ih =>
    have hdata : (StringPool.mk (values ++ [value])).data
        = (StringPool.mk values).data ++ [.string (label values.length) (bytesOf value)] := by
      unfold data
      rw [List.zipIdx_append, List.map_append, Nat.zero_add]
      rfl
    rw [hdata, List.map_append, List.filterMap_append, ih]
    dsimp only
    rw [List.map_singleton]
    by_cases h : n = values.length
    · subst h
      rw [List.getElem?_eq_none (Nat.le_refl _), List.getElem?_concat_length,
        List.filterMap_cons_some (Asm.lineNumbers?_render _ _)]
      rfl
    · have hother : Asm.lineNumbers? (label n)
          (Asm.Datum.string (label values.length) (bytesOf value)).render = none :=
        Asm.lineNumbers?_render_ne (colon_label n) (colon_label _) fun heq => h (label_inj heq).symm
      have hvalue : (values ++ [value])[n]? = values[n]? := by
        rw [List.getElem?_append]
        split
        · rfl
        · rw [List.getElem?_eq_none (by simp; omega), List.getElem?_eq_none (by omega)]
      rw [List.filterMap_cons_none hother, hvalue]
      exact List.append_nil _

end StringPool

/-- Every occurrence of the string is in the pool, and `t` is the first eight
bytes of the frame. -/
def twiceAssembly (value : String) (noRedZone : Bool) : Asm.Assembly where
  bss := []
  data := .address "g" (StringPool.label 0) :: (StringPool.mk [value, value]).data
  functions := [("main",
    [.insn (.push .rbp), .insn (.mov (reg .qword .rbp) (reg .qword .rsp))]
      ++ (if noRedZone then [.insn (.alu .sub (reg .qword .rsp) (.imm 16))] else [])
      ++ [.insn (.lea .rax (StringPool.label 1)),
        .insn (.mov (.mem .qword (.stack 8)) (reg .qword .rax)),
        .insn (.alu .xor (reg .dword .rax) (reg .dword .rax)),
        .insn (if noRedZone then .leave else .pop .rbp), .insn .ret])]

/-- The assembly of the program. -/
theorem twice_generates (value : String) (noRedZone : Bool) (g first main t second : Position) :
    (twiceProgram value g first main t second).generate noRedZone
      = .ok (twiceAssembly value noRedZone) := by
  cases noRedZone <;> with_unfolding_all rfl

/-- Under a label of its own, an occurrence is the only line that is read. -/
theorem twice_reads (value : String) (noRedZone : Bool) {n : Nat}
    (hvalue : [value, value][n]? = some value) (hlabel : "g" ≠ StringPool.label n) :
    (twiceAssembly value noRedZone).listing.data.filterMap
        (Asm.lineNumbers? (StringPool.label n))
      = [value.toUTF8.toList.map UInt8.toNat ++ [0]] := by
  have hg : Asm.lineNumbers? (StringPool.label n)
      (Asm.Datum.address "g" (StringPool.label 0)).render = none :=
    Asm.lineNumbers?_render_ne (StringPool.colon_label n) (by decide) hlabel
  show List.filterMap _ ((Asm.Datum.address "g" (StringPool.label 0)).render
    :: (StringPool.mk [value, value]).data.map Asm.Datum.render) = _
  rw [List.filterMap_cons_none hg, StringPool.data_reads, hvalue]
  rfl

end Codegen

/-- The program compiles, and nothing is reported. -/
theorem twice_compiles (value : String) (noRedZone strict : Bool) :
    ∃ program, compile (twice value) noRedZone false (.empty strict)
      = (.ok ⟨program, none, Codegen.twiceAssembly value noRedZone⟩, .empty strict) := by
  obtain ⟨hwords, hfaults⟩ := twice_lexes value
  have hfaultless : (tokenize (twice value)).2 = [] := tokenize_faultless hfaults
  obtain ⟨g, first, main, t, second, hparse⟩ :=
    twice_parses ((tokenize_lexemes (twice value)).trans hwords) (.empty strict)
  have hfrontend : frontend (twice value) (.empty strict)
      = (.ok (twiceProgram value g first main t second), .empty strict) := by
    unfold frontend
    dsimp only
    rw [hfaultless, show (Report.empty strict).append [] = .empty strict from rfl, hparse]
    rfl
  refine ⟨twiceProgram value g first main t second, ?_⟩
  unfold compile backend
  rw [hfrontend]
  dsimp only
  rw [Codegen.twice_generates]
  rfl

/-- A string that is written in a global and in a local variable of a
program reaches the data byte for byte, twice. The program compiles and
nothing is reported. The two labels differ; of the lines of the data, one is
read under either, as the bytes of the string and a zero; the global holds
the address under the one label, and the function moves that under the
other into the variable. -/
theorem literals_reach_data (value : String) (noRedZone strict : Bool) :
    ∃ artifacts first second lines,
      compile (twice value) noRedZone false (.empty strict) = (.ok artifacts, .empty strict)
        ∧ first ≠ second
        ∧ "g: dq " ++ first ∈ artifacts.assembly.listing.data
        ∧ artifacts.assembly.listing.data.filterMap (Asm.lineNumbers? first)
          = [value.toUTF8.toList.map UInt8.toNat ++ [0]]
        ∧ artifacts.assembly.listing.data.filterMap (Asm.lineNumbers? second)
          = [value.toUTF8.toList.map UInt8.toNat ++ [0]]
        ∧ artifacts.assembly.listing.functions = [("main", lines)]
        ∧ [.insn ("lea rax, [rel " ++ second ++ "]"), .insn "mov QWORD [rbp-8], rax"]
          <:+: lines := by
  obtain ⟨program, hcompile⟩ := twice_compiles value noRedZone strict
  refine ⟨_, Codegen.StringPool.label 0, Codegen.StringPool.label 1, _, hcompile, by decide,
    List.mem_cons_self, Codegen.twice_reads value noRedZone rfl (by decide),
    Codegen.twice_reads value noRedZone rfl (by decide), rfl, ?_⟩
  cases noRedZone
  · exact ⟨[.insn "push rbp", .insn "mov rbp, rsp"],
      [.insn "xor eax, eax", .insn "pop rbp", .insn "ret"], by decide⟩
  · exact ⟨[.insn "push rbp", .insn "mov rbp, rsp", .insn "sub rsp, 16"],
      [.insn "xor eax, eax", .insn "leave", .insn "ret"], by decide⟩

end MiniC
