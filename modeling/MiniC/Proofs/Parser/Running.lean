/-
Parsing steps run forward: where the tokens ahead are known, so is what a step
answers, and that it leaves the state behind them (`ParserState.past`).

# Single tokens

A state behind some tokens differs from the one in front in those tokens and in
the last place seen, and in nothing else (`past_eq`). So names, aggregates and the
report are carried over by rewriting, and a step that takes one token is a rewrite
rule: `take_eq`, `want_eq`, `wantIdent_eq`.

# Operators

The two rules that extend an operand are run one round at a time. Each stops where
the operator ahead is too weak (`climb_stop`, `tighten_stop`) and takes one
operator and its operand where it is not (`climb_step`, `tighten_step`). The floor
that a right operand is extended with is `floorOver` of the two operators, so that
what stops the inner extension can be compared with what stops the outer one
(`lt_floorOver`).

# Terms

A term is read where what follows it neither steps it nor goes on with a member
(`EndsTerm`, `EndsName`); both are ruled out by every operator and by what closes
an expression. `ReadsTerm` asks for four steps per token. Consumed by the proof
that a spelled expression is read back.
-/
import MiniC.Proofs.Parser.Steps
import MiniC.Proofs.Source.Printing

namespace MiniC

/-- The state behind tokens that were ahead. -/
def ParserState.past (s : ParserState) (ts : List Token) : ParserState :=
  ts.foldl (fun s token => { s with tokens := s.tokens.drop 1, last := token.pos }) s

namespace ParserState

/-- Behind the one and then the other is behind both. -/
theorem past_append (s : ParserState) (ts ts' : List Token) :
    s.past (ts ++ ts') = (s.past ts).past ts' :=
  List.foldl_append

/-- Behind some tokens is behind the first and then the rest. -/
theorem past_cons (s : ParserState) (token : Token) (ts : List Token) :
    s.past (token :: ts) = (s.past [token]).past ts :=
  rfl

/-- Only the tokens ahead and the place of the last one have changed. -/
theorem past_eq {s : ParserState} {ts rest : List Token} (h : s.tokens = ts ++ rest) :
    ∃ last, s.past ts = { s with tokens := rest, last := last } := by
  induction ts generalizing s with
  | nil => exact ⟨s.last, by rw [← show s.tokens = rest from h]; rfl⟩
  | cons token ts ih =>
      have hnext : (s.past [token]).tokens = ts ++ rest := by
        show s.tokens.drop 1 = _
        rw [h]
        rfl
      obtain ⟨last, hpast⟩ := ih hnext
      exact ⟨last, hpast⟩

/-- Behind some tokens the rest is ahead. -/
theorem past_tokens {s : ParserState} {ts rest : List Token} (h : s.tokens = ts ++ rest) :
    (s.past ts).tokens = rest := by
  obtain ⟨last, hpast⟩ := past_eq h
  rw [hpast]

theorem past_token {s : ParserState} {token : Token} {rest : List Token}
    (h : s.tokens = token :: rest) : (s.past [token]).tokens = rest :=
  past_tokens (show s.tokens = [token] ++ rest from h)

theorem past_table (s : ParserState) (ts : List Token) : (s.past ts).table = s.table := by
  induction ts generalizing s with
  | nil => rfl
  | cons token ts ih => exact ih _

theorem past_program (s : ParserState) (ts : List Token) : (s.past ts).program = s.program := by
  induction ts generalizing s with
  | nil => rfl
  | cons token ts ih => exact ih _

theorem past_report (s : ParserState) (ts : List Token) : (s.past ts).report = s.report := by
  induction ts generalizing s with
  | nil => rfl
  | cons token ts ih => exact ih _

/-- What can be said behind some tokens could be said in front of them. -/
theorem spellable_past {e : Expr} {s : ParserState} (h : e.Spellable s.table s.program)
    (ts : List Token) : e.Spellable (s.past ts).table (s.past ts).program := by
  rw [past_table, past_program]
  exact h

end ParserState

namespace Parser

variable {α β : Type} {s t u : ParserState} {ts rest : List Token} {token : Token}

-- ============================================================= one token

/-- A sequence goes on where its first step has left off. -/
theorem bind_eq {x : Parser α} {f : α → Parser β} {a : α} (h : x s = .ok a t) :
    (x >>= f) s = f a t := by
  show EStateM.bind x f s = _
  unfold EStateM.bind
  rw [h]

/-- The lexeme that comes first. -/
def ahead (ts : List Token) : Option Lexeme := ts[0]?.map (·.lexeme)

/-- The binary operator that comes first. -/
def operatorAhead (ts : List Token) : Option BinaryOp := (ahead ts).bind Lexeme.binaryOp?

/-- An operator that is ahead stays so, whatever follows. -/
theorem operatorAhead_append {op : BinaryOp} (h : operatorAhead ts = some op)
    (rest : List Token) : operatorAhead (ts ++ rest) = some op := by
  cases ts with
  | nil => cases h
  | cons token ts => exact h

theorem peek_eq (s : ParserState) : peek 0 s = .ok (ahead s.tokens) s := rfl

theorem peekOperator_eq (s : ParserState) : peekOperator s = .ok (operatorAhead s.tokens) s := rfl

/-- The first token is taken. -/
theorem take_eq (h : s.tokens = token :: rest) (expected : String) :
    take expected s = .ok token (s.past [token]) := by
  have hpast : s.past [token] = { s with tokens := rest, last := token.pos } := by
    show ({ s with tokens := s.tokens.drop 1, last := token.pos } : ParserState) = _
    rw [h]
    rfl
  unfold take
  rw [bind_eq (show (get : Parser ParserState) s = .ok s s from rfl), h, hpast]
  rfl

/-- A symbol that is ahead is taken. -/
theorem want_eq {symbol : Symbol} (h : s.tokens = token :: rest)
    (hlexeme : token.lexeme = .symbol symbol) : want symbol s = .ok () (s.past [token]) := by
  unfold want
  rw [bind_eq (take_eq h _), if_pos hlexeme]
  rfl

/-- A name that is ahead is taken, with its place. -/
theorem wantIdent_eq {name : String} (h : s.tokens = token :: rest)
    (hlexeme : token.lexeme = .ident name) :
    wantIdent s = .ok (name, token.pos) (s.past [token]) := by
  unfold wantIdent
  rw [bind_eq (take_eq h _), hlexeme]
  rfl

-- ============================================================== operators

/-- Extending stops in front of what binds less tightly than the floor. -/
theorem climb_stop {floor : Nat}
    (h : ∀ op, operatorAhead s.tokens = some op → op.precedence < floor) (fuel : Nat) (lhs : Expr) :
    climb (fuel + 1) floor lhs s = .ok lhs s := by
  rw [climb, bind_eq (peekOperator_eq s)]
  cases hop : operatorAhead s.tokens with
  | none => rfl
  | some op =>
      show (if op.precedence < floor then pure lhs else _ : Parser Expr) s = _
      rw [if_pos (h op hop)]
      rfl

/-- Extending by one operator and its right operand. -/
theorem climb_step {op : BinaryOp} {floor fuel : Nat} {lhs first rhs : Expr}
    (htokens : s.tokens = token :: rest) (hop : token.lexeme.binaryOp? = some op)
    (hfloor : floor ≤ op.precedence) (hterm : termWith fuel (s.past [token]) = .ok first t)
    (htighten : tighten fuel op first t = .ok rhs u)
    (hassign : op.isAssignment = true → lhs.isAssignable = true) :
    climb (fuel + 1) floor lhs s = climb fuel floor (.combine op lhs rhs token.pos) u := by
  have hahead : operatorAhead s.tokens = some op := by
    rw [htokens]
    exact hop
  have hguard : ¬ (op.isAssignment && !lhs.isAssignable) = true := by
    intro h
    obtain ⟨hassignment, hnot⟩ := Bool.and_eq_true_iff.1 h
    rw [hassign hassignment] at hnot
    cases hnot
  rw [climb, bind_eq (peekOperator_eq s), hahead]
  dsimp only
  rw [if_neg (Nat.not_lt.2 hfloor), bind_eq (take_eq htokens _), bind_eq hterm, bind_eq htighten,
    if_neg hguard]

/-- A right operand is whole in front of what does not take it over. -/
theorem tighten_stop {op : BinaryOp}
    (h : ∀ next, operatorAhead s.tokens = some next → next.overtakes op = false) (fuel : Nat)
    (rhs : Expr) : tighten (fuel + 1) op rhs s = .ok rhs s := by
  rw [tighten, bind_eq (peekOperator_eq s)]
  cases hnext : operatorAhead s.tokens with
  | none => rfl
  | some next =>
      obtain ⟨hweak, hleft⟩ := Bool.or_eq_false_iff.1 (h next hnext)
      dsimp only
      rw [if_neg (of_decide_eq_false hweak), if_neg (Bool.eq_false_iff.1 hleft)]
      rfl

/-- The floor above which a right operand is extended in front of an operator
that takes it over. -/
def floorOver (op next : BinaryOp) : Nat :=
  if op.precedence < next.precedence then op.precedence + 1 else op.precedence

/-- A right operand in front of what takes it over is extended first. -/
theorem tighten_step {op next : BinaryOp} (hnext : operatorAhead s.tokens = some next)
    (hover : next.overtakes op = true) (fuel : Nat) (rhs : Expr) :
    tighten (fuel + 1) op rhs s = (climb fuel (floorOver op next) rhs >>= tighten fuel op) s := by
  rw [tighten, bind_eq (peekOperator_eq s), hnext]
  dsimp only
  by_cases hlt : op.precedence < next.precedence
  · rw [if_pos hlt, floorOver, if_pos hlt]
  · have hright := (BinaryOp.overtakes_iff.1 hover).resolve_left hlt
    rw [if_neg hlt, if_pos (Bool.and_eq_true_iff.2 ⟨hright.1, decide_eq_true hright.2⟩), floorOver,
      if_neg hlt]

/-- What does not take an operand over ends its extension too. -/
theorem lt_floorOver {op next other : BinaryOp} (hover : next.overtakes op = true)
    (hother : other.overtakes op = false) : other.precedence < floorOver op next := by
  have hle := BinaryOp.precedence_le hother
  unfold floorOver
  split
  · exact Nat.lt_succ_of_le hle
  · rename_i hlt
    obtain ⟨hright, heq⟩ := (BinaryOp.overtakes_iff.1 hover).resolve_left hlt
    refine Nat.lt_of_le_of_ne hle fun hsame => ?_
    have hassoc : other.isRightAssoc = true :=
      (BinaryOp.isRightAssoc_congr (hsame.trans heq.symm)).trans hright
    rw [BinaryOp.overtakes_iff.2 (Or.inr ⟨hassoc, hsame⟩)] at hother
    cases hother

-- ================================================================== terms

/-- Whether the tokens behind a term leave it as it is. -/
def EndsTerm (rest : List Token) : Prop :=
  ∀ l, ahead rest = some l →
    l = .symbol .semicolon ∨ l = .symbol .rparen ∨ l.binaryOp?.isSome = true

/-- Whether the tokens behind a name do not make it an object. -/
def EndsName (rest : List Token) : Prop :=
  ∀ symbol, ahead rest = some (.symbol symbol) → symbol.accessor? = none

/-- What ends a term ends a name. -/
theorem EndsTerm.endsName (h : EndsTerm rest) : EndsName rest := by
  intro symbol hahead
  rcases h _ hahead with heq | heq | hop
  · cases heq
    rfl
  · cases heq
    rfl
  · cases symbol <;> first | rfl | cases hop

/-- What ends a term does not step it. -/
theorem EndsTerm.no_step (h : EndsTerm rest) : (ahead rest).bind stepOp? = none := by
  cases hahead : ahead rest with
  | none => rfl
  | some l =>
      rcases h l hahead with rfl | rfl | hop
      · rfl
      · rfl
      · cases l with
        | symbol symbol => cases symbol <;> first | rfl | cases hop
        | _ => rfl

/-- An operator ends the term in front of it. -/
theorem endsTerm_of_operator {op : BinaryOp} (h : operatorAhead rest = some op) :
    EndsTerm rest := by
  intro l hahead
  unfold operatorAhead at h
  rw [hahead] at h
  exact Or.inr (Or.inr (Option.isSome_iff_exists.2 ⟨op, h⟩))

/-- Whether a term is read off some tokens, with a supply by their number. -/
def ReadsTerm (s : ParserState) (ts : List Token) (e : Expr) : Prop :=
  ∀ fuel, 4 * ts.length ≤ fuel → termWith fuel s = .ok e (s.past ts)

/-- Where no step is ahead a term is left as it is. -/
theorem postStep_none {e : Expr} (h : (ahead s.tokens).bind stepOp? = none) :
    postStep e s = .ok e s := by
  unfold postStep
  rw [bind_eq (peek_eq s), h]
  rfl

/-- A step that is ahead steps what can be assigned to. -/
theorem postStep_some {op : UnaryOp} {e : Expr} (htokens : s.tokens = token :: rest)
    (hop : stepOp? token.lexeme = some op) (hassign : e.isAssignable = true) :
    postStep e s = .ok (.unary op .after e token.pos) (s.past [token]) := by
  have hahead : (ahead s.tokens).bind stepOp? = some op := by
    rw [htokens]
    exact hop
  unfold postStep
  rw [bind_eq (peek_eq s), hahead]
  dsimp only
  rw [if_pos hassign, bind_eq (take_eq htokens _)]
  rfl

/-- A primary is a term where a term ends. -/
theorem readsTerm_of_primary {e : Expr} (hne : ts ≠ []) (htokens : s.tokens = ts ++ rest)
    (hrest : EndsTerm rest)
    (h : ∀ fuel, 4 * ts.length ≤ fuel + 1 → primary fuel s = .ok e (s.past ts)) :
    ReadsTerm s ts e := by
  intro fuel hfuel
  have hpos := List.length_pos_iff.2 hne
  obtain ⟨fuel, rfl⟩ : ∃ n, fuel = n + 1 := ⟨fuel - 1, by omega⟩
  rw [termWith, bind_eq (h fuel hfuel)]
  refine postStep_none ?_
  rw [ParserState.past_tokens htokens]
  exact hrest.no_step

-- ================================================================ places

/-- What ends a name is no accessor. -/
theorem atAccessor_none (h : EndsName s.tokens) : atAccessor s = .ok false s := by
  unfold atAccessor
  rw [bind_eq (peek_eq s)]
  cases hahead : ahead s.tokens with
  | none => rfl
  | some l =>
      cases l with
      | symbol symbol =>
          show EStateM.Result.ok symbol.accessor?.isSome s = _
          rw [h symbol hahead]
          rfl
      | _ => rfl

/-- An accessor that is ahead is seen. -/
theorem atAccessor_some {accessor : Accessor} (htokens : s.tokens = token :: rest)
    (hlexeme : token.lexeme = .symbol accessor.symbol) : atAccessor s = .ok true s := by
  have hahead : ahead s.tokens = some (.symbol accessor.symbol) := by
    rw [htokens, ← hlexeme]
    rfl
  unfold atAccessor
  rw [bind_eq (peek_eq s), hahead]
  show EStateM.Result.ok accessor.symbol.accessor?.isSome s = _
  rw [Accessor.accessor?_symbol]
  rfl

/-- A name in sight has the type it was declared with. -/
theorem typeOfName_eq {name : String} {binding : Binding}
    (h : s.table.lookup? name = some binding) (pos : Position) :
    typeOfName name pos s = .ok binding.ty s := by
  unfold typeOfName
  rw [bind_eq (show (get : Parser ParserState) s = .ok s s from rfl), h]
  rfl

/-- In front of its scope accessor a name may be that of an aggregate. -/
theorem typeOfName_aggregate {name : String} (hlookup : s.table.lookup? name = none)
    (haggregate : (s.program.aggregate? name).isSome = true)
    (hscope : ahead s.tokens = some (.symbol .scope)) (pos : Position) :
    typeOfName name pos s = .ok (.named name) s := by
  have hat : atSymbol .scope s = .ok true s := by
    unfold atSymbol
    rw [bind_eq (peek_eq s), hscope]
    rfl
  unfold typeOfName
  rw [bind_eq (show (get : Parser ParserState) s = .ok s s from rfl), hlookup]
  dsimp only
  rw [bind_eq hat, haggregate]
  rfl

/-- An accessor and the name of a member, behind an object of the aggregate. -/
theorem member_run {object : Ident} {accessor : Accessor} {aggregate name : String}
    {decl : AggregateDecl} {dot field : Token} (htokens : s.tokens = dot :: field :: rest)
    (hdot : dot.lexeme = .symbol accessor.symbol) (hfield : field.lexeme = .ident name)
    (hdecl : s.program.aggregate? aggregate = some decl)
    (hmember : (decl.member? name).isSome = true) :
    member object (.named aggregate) s = .ok
      (.member object accessor ⟨name, false, field.pos⟩ object.pos) (s.past [dot, field]) := by
  have hnext : (s.past [dot]).tokens = field :: rest :=
    ParserState.past_token htokens
  have hprogram : ((s.past [dot]).past [field]).program = s.program := by
    rw [ParserState.past_program, ParserState.past_program]
  unfold member
  rw [bind_eq (take_eq htokens _), hdot]
  dsimp only
  rw [Accessor.accessor?_symbol]
  dsimp only
  rw [bind_eq (wantIdent_eq hnext hfield)]
  dsimp only
  rw [bind_eq (show (get : Parser ParserState) _ = .ok _ _ from rfl), hprogram, hdecl]
  dsimp only
  rw [if_pos hmember]
  rfl

/-- A place is a primary expression: what may follow it is up to its reader. -/
theorem primary_place {e : Expr} (hplace : e.IsPlace) (hspell : e.Spellable s.table s.program)
    (hts : ts.map (·.lexeme) = e.lexemes) (htokens : s.tokens = ts ++ rest)
    (hrest : EndsName rest) :
    ∃ e', e'.Matches e ∧ ∀ fuel, primary (fuel + 1) s = .ok e' (s.past ts) := by
  rcases hplace with ⟨i, rfl⟩ | ⟨object, accessor, field, pos, rfl⟩
  · obtain ⟨token, rfl, hlexeme⟩ := List.map_eq_singleton_iff.1 hts
    obtain ⟨hassignable, hsight⟩ := hspell
    obtain ⟨binding, hbinding⟩ := Option.isSome_iff_exists.1 hsight
    have hends : EndsName (s.past [token]).tokens := by
      rw [ParserState.past_tokens htokens]
      exact hrest
    refine ⟨.ident ⟨i.name, true, token.pos⟩, ?_, fun fuel => ?_⟩
    · show Expr.ident ⟨i.name, true, .start⟩ = .ident ⟨i.name, i.assignable, .start⟩
      rw [hassignable]
    · rw [primary, bind_eq (take_eq htokens _), hlexeme]
      dsimp only
      unfold identifier
      rw [bind_eq (typeOfName_eq (by rw [ParserState.past_table]; exact hbinding) _),
        bind_eq (atAccessor_none hends)]
      rfl
  · obtain ⟨first, rest', rfl, hfirst, hothers⟩ := List.map_eq_cons_iff.1 hts
    obtain ⟨dot, rest'', rfl, hdot, hlast⟩ := List.map_eq_cons_iff.1 hothers
    obtain ⟨name, rfl, hname⟩ := List.map_eq_singleton_iff.1 hlast
    obtain ⟨hobject, hfield, aggregate, decl, hbase, hdecl, hmember⟩ := hspell
    have hnext : (s.past [first]).tokens = dot :: name :: rest :=
      ParserState.past_token htokens
    have htype : typeOfName object.name first.pos (s.past [first])
        = .ok (.named aggregate) (s.past [first]) := by
      rcases hbase with hty | ⟨hlookup, rfl, rfl⟩
      · obtain ⟨binding, hbinding, hbase⟩ := Option.map_eq_some_iff.1 hty
        rw [← hbase]
        exact typeOfName_eq (by rw [ParserState.past_table]; exact hbinding) _
      · refine typeOfName_aggregate (by rw [ParserState.past_table]; exact hlookup) ?_ ?_ _
        · rw [ParserState.past_program, hdecl]
          rfl
        · rw [hnext]
          exact congrArg some hdot
    refine ⟨.member ⟨object.name, true, first.pos⟩ accessor ⟨field.name, false, name.pos⟩ first.pos,
      ?_, fun fuel => ?_⟩
    · show Expr.member ⟨object.name, true, .start⟩ accessor ⟨field.name, false, .start⟩ .start
        = .member ⟨object.name, object.assignable, .start⟩ accessor
            ⟨field.name, field.assignable, .start⟩ .start
      rw [hobject, hfield]
    · rw [primary, bind_eq (take_eq htokens _), hfirst]
      dsimp only
      unfold identifier
      rw [bind_eq htype, bind_eq (atAccessor_some hnext hdot)]
      exact member_run hnext hdot hname (by rw [ParserState.past_program]; exact hdecl) hmember

end Parser

end MiniC
