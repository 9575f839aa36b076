/-
A spelled expression is read back: behind its lexemes, wherever they stand,
the parser has the expression they spell and what followed them still ahead
(`expression_reads_back`).

# The induction

Precedence climbing does not follow the tree. It reads the term that opens an
expression and then extends it, operator by operator, up to the root; a right
operand is read the same way in its turn. So the induction on the tree carries
both halves (`Opens`): which term the tokens open with, and that extending it
by the others leads to the whole. At an operator the left operand's extension is
followed by one more step, whose right operand is read as a whole
(`Opens.binary`).

# Parentheses

A right operand stands alone if its root binds tighter than the operator in front
(`Opens.tighten`), and what stands behind an expression must not take it over.
An operand that would group otherwise is spelled in parentheses, and what is in
parentheses is a term, which opens itself (`ReadBack.enclosed`). So each node
asks of its operands only that they are read back, and how the spelling puts
parentheses is looked at in one place.

# Steps

The rules take one step each from a supply that the top sets by the tokens ahead,
so each half also says how many tokens it may be charged for. The flags of the
nodes are those that `combine` computes, on both sides.
Consumed by no other module.
-/
import MiniC.Proofs.Parser.Running

namespace MiniC.Parser

variable {s t : ParserState} {ts rest : List Token} {token : Token}

-- =============================================================== operands

/-- What is known of tokens that spell an expression with the given operator
at its root, or a term if there is none: they open with a term, and extending
it by the others leads to the whole, above any floor that the root is above. A
step is charged for each of the others at most. -/
structure Opens (s : ParserState) (opening others : List Token) (first whole : Expr)
    (root : Option BinaryOp) : Prop where
  term : ReadsTerm s opening first
  climb : ∀ fuel floor, 4 * others.length < fuel →
    (∀ op, root = some op → floor ≤ op.precedence) →
    ∃ left, fuel ≤ left + others.length
      ∧ climb fuel floor first (s.past opening)
        = climb left floor whole (s.past (opening ++ others))
  /-- The first of the operators binds at least as tightly as the root, and is
  the root itself in a chain that groups from the right. -/
  next : others ≠ [] → ∃ next op, operatorAhead others = some next ∧ root = some op
    ∧ op.precedence ≤ next.precedence ∧ (op.isRightAssoc = true → next = op)
  alone : others = [] → first = whole

/-- A term opens itself, and nothing is left to extend it by. -/
theorem Opens.of_term {e : Expr} (h : ReadsTerm s ts e) (root : Option BinaryOp) :
    Opens s ts [] e e root where
  term := h
  climb fuel floor _ _ := ⟨fuel, Nat.le_refl _, by rw [List.append_nil]⟩
  next hne := absurd rfl hne
  alone _ := rfl

section Spine

variable {opening others : List Token} {first whole : Expr} {root : Option BinaryOp}

/-- What has no root is opened whole. -/
theorem Opens.others_nil (h : Opens s opening others first whole none) : others = [] := by
  refine Classical.byContradiction fun hne => ?_
  obtain ⟨next, op, -, hroot, -⟩ := h.next hne
  cases hroot

/-- A right operand is read as a whole, if its root takes over from the
operator in front and what follows does not. -/
theorem Opens.tighten {op : BinaryOp} (h : Opens s opening others first whole root)
    (htokens : s.tokens = (opening ++ others) ++ rest)
    (hroot : ∀ inner, root = some inner → inner.overtakes op = true)
    (hrest : ∀ next, operatorAhead rest = some next → next.overtakes op = false) {fuel : Nat}
    (hfuel : 4 * others.length + 1 < fuel) :
    tighten fuel op first (s.past opening) = .ok whole (s.past (opening ++ others)) := by
  obtain ⟨fuel, rfl⟩ : ∃ n, fuel = n + 2 := ⟨fuel - 2, by omega⟩
  have hbehind : (s.past (opening ++ others)).tokens = rest := ParserState.past_tokens htokens
  have hstop (fuel : Nat) : Parser.tighten (fuel + 1) op whole (s.past (opening ++ others))
      = .ok whole (s.past (opening ++ others)) :=
    tighten_stop (by rw [hbehind]; exact hrest) fuel whole
  by_cases hne : others = []
  · subst hne
    rw [h.alone rfl]
    rw [List.append_nil] at hstop ⊢
    exact hstop _
  · obtain ⟨next, inner, hnext, rfl, hle, hright⟩ := h.next hne
    have hinner := hroot inner rfl
    have hover : next.overtakes op = true := BinaryOp.overtakes_mono hle hinner
    have hahead : operatorAhead (s.past opening).tokens = some next := by
      rw [List.append_assoc] at htokens
      rw [ParserState.past_tokens htokens]
      exact operatorAhead_append hnext rest
    have hfloor : floorOver op next ≤ inner.precedence := by
      rcases BinaryOp.overtakes_iff.1 hinner with hlt | ⟨hassoc, heq⟩
      · unfold floorOver
        split
        · exact hlt
        · exact Nat.le_of_lt hlt
      · rw [hright hassoc, floorOver, if_neg (heq ▸ Nat.lt_irrefl _)]
        exact Nat.le_of_eq heq.symm
    obtain ⟨left, hleft, hclimb⟩ := h.climb (fuel + 1) (floorOver op next) (by omega)
      fun _ hop => Option.some.inj hop ▸ hfloor
    obtain ⟨left, rfl⟩ : ∃ n, left = n + 1 := ⟨left - 1, by omega⟩
    have hend : Parser.climb (left + 1) (floorOver op next) whole (s.past (opening ++ others))
        = .ok whole (s.past (opening ++ others)) := by
      refine climb_stop (fun other hother => ?_) left whole
      rw [hbehind] at hother
      exact lt_floorOver hover (hrest other hother)
    rw [tighten_step hahead hover, bind_eq (hclimb.trans hend)]
    exact hstop fuel

/-- An expression with nothing to take it over behind it is read as a whole. -/
theorem Opens.expressionWith (h : Opens s opening others first whole root)
    (htokens : s.tokens = (opening ++ others) ++ rest) (hrest : operatorAhead rest = none)
    {fuel : Nat} (hfuel : 4 * (opening ++ others).length + 2 ≤ fuel) :
    expressionWith fuel s = .ok whole (s.past (opening ++ others)) := by
  rw [List.length_append] at hfuel
  obtain ⟨fuel, rfl⟩ : ∃ n, fuel = n + 1 := ⟨fuel - 1, by omega⟩
  obtain ⟨left, hleft, hclimb⟩ := h.climb fuel 0 (by omega) fun _ _ => Nat.zero_le _
  obtain ⟨left, rfl⟩ : ∃ n, left = n + 1 := ⟨left - 1, by omega⟩
  rw [Parser.expressionWith, bind_eq (h.term fuel (by omega)), hclimb]
  refine climb_stop (fun op hop => ?_) left whole
  rw [ParserState.past_tokens htokens, hrest] at hop
  cases hop

/-- An operator between what its left operand and its right operand open
with. -/
theorem Opens.binary {opening' others' : List Token} {first' whole' : Expr}
    {root' : Option BinaryOp} {op : BinaryOp} (hl : Opens s opening others first whole root)
    (hr : Opens (s.past (opening ++ others ++ [token])) opening' others' first' whole' root')
    (htokens : s.tokens = opening ++ others ++ token :: (opening' ++ others' ++ rest))
    (hop : token.lexeme.binaryOp? = some op)
    (hassign : op.isAssignment = true → root = none ∧ whole.isAssignable = true)
    (hroot : ∀ inner, root = some inner → op.overtakes inner = false)
    (hroot' : ∀ inner, root' = some inner → inner.overtakes op = true)
    (hrest : ∀ next, operatorAhead rest = some next → next.overtakes op = false) :
    Opens s opening (others ++ token :: (opening' ++ others')) first
      (.combine op whole whole' token.pos) (some op) where
  term := hl.term
  climb fuel floor hfuel hfloor := by
    rw [List.length_append, List.length_cons, List.length_append] at hfuel
    have hbelow : ∀ inner, root = some inner → floor ≤ inner.precedence := fun inner hinner =>
      Nat.le_trans (hfloor op rfl) (BinaryOp.precedence_le (hroot inner hinner))
    obtain ⟨left, hleft, hclimb⟩ := hl.climb fuel floor (by omega) hbelow
    obtain ⟨left, rfl⟩ : ∃ n, left = n + 1 := ⟨left - 1, by omega⟩
    have hbehind : (s.past (opening ++ others)).tokens = token :: (opening' ++ others' ++ rest) :=
      ParserState.past_tokens htokens
    have hpast : (s.past (opening ++ others)).past [token]
        = s.past (opening ++ others ++ [token]) :=
      (ParserState.past_append s (opening ++ others) [token]).symm
    have hright : (s.past (opening ++ others ++ [token])).tokens = opening' ++ others' ++ rest := by
      rw [← hpast]
      exact ParserState.past_token hbehind
    refine ⟨left, ?_, hclimb.trans ?_⟩
    · rw [List.length_append, List.length_cons]
      omega
    · rw [climb_step hbehind hop (hfloor op rfl) (by rw [hpast]; exact hr.term left (by omega))
        (hr.tighten hright hroot' hrest (by omega)) fun h => (hassign h).2,
        ← ParserState.past_append]
      simp only [List.append_assoc, List.cons_append, List.nil_append]
  next _ := by
    cases others with
    | nil => exact ⟨op, op, hop, rfl, Nat.le_refl _, fun _ => rfl⟩
    | cons other others =>
        obtain ⟨next, inner, hnext, rfl, hle, -⟩ := hl.next (List.cons_ne_nil _ _)
        have hop_le := BinaryOp.precedence_le (hroot inner rfl)
        refine ⟨next, op, operatorAhead_append hnext _, rfl, Nat.le_trans hop_le hle,
          fun hassoc => ?_⟩
        cases (hassign hassoc).1
  alone h := absurd h (List.append_ne_nil_of_right_ne_nil _ (List.cons_ne_nil _ _))

end Spine

-- ========================================================== every expression

/-- Whether an expression is read back from the given lexemes, wherever they
stand in front of something that leaves it as it is. -/
def ReadBack (e : Expr) (ls : List Lexeme) (root : Option BinaryOp) : Prop :=
  ∀ (s : ParserState) (ts rest : List Token), e.Spellable s.table s.program →
    ts.map (·.lexeme) = ls → s.tokens = ts ++ rest → EndsTerm rest →
    (∀ op next, root = some op → operatorAhead rest = some next → next.overtakes op = false) →
    ∃ opening others first whole, ts = opening ++ others ∧ whole.Matches e
      ∧ Opens s opening others first whole root

/-- Whether an expression is read back as a term. -/
def ReadBackTerm (e : Expr) (ls : List Lexeme) : Prop :=
  ∀ (s : ParserState) (ts rest : List Token), e.Spellable s.table s.program →
    ts.map (·.lexeme) = ls → s.tokens = ts ++ rest → EndsTerm rest →
    ∃ whole, Expr.Matches whole e ∧ ReadsTerm s ts whole

/-- What is read back as a term is read back as an expression. -/
theorem ReadBackTerm.readBack {e : Expr} {ls : List Lexeme} (h : ReadBackTerm e ls)
    (root : Option BinaryOp) : ReadBack e ls root := by
  intro s ts rest hspell hts htokens hrest _
  obtain ⟨whole, hwhole, hterm⟩ := h s ts rest hspell hts htokens hrest
  exact ⟨ts, [], whole, whole, (List.append_nil ts).symm, hwhole, Opens.of_term hterm root⟩

/-- An expression without a root is read back as a term. -/
theorem ReadBack.term {e : Expr} {ls : List Lexeme} (h : ReadBack e ls none) :
    ReadBackTerm e ls := by
  intro s ts rest hspell hts htokens hrest
  obtain ⟨opening, others, first, whole, rfl, hwhole, hopens⟩ :=
    h s ts rest hspell hts htokens hrest fun _ _ hroot => nomatch hroot
  obtain rfl := hopens.others_nil
  obtain rfl := hopens.alone rfl
  rw [List.append_nil]
  exact ⟨first, hwhole, hopens.term⟩

/-- An expression that is read back is so in parentheses. -/
theorem ReadBack.parenthesized {e : Expr} (h : ReadBack e e.lexemes e.root?) :
    ReadBackTerm e (.symbol .lparen :: (e.lexemes ++ [.symbol .rparen])) := by
  intro s ts rest hspell hts htokens hrest
  obtain ⟨opener, others, rfl, hopen, hothers⟩ := List.map_eq_cons_iff.1 hts
  obtain ⟨inner, last, rfl, hinner, hlast⟩ := List.map_eq_append_iff.1 hothers
  obtain ⟨closer, rfl, hclose⟩ := List.map_eq_singleton_iff.1 hlast
  have hnext : (s.past [opener]).tokens = inner ++ closer :: rest := by
    rw [ParserState.past_token htokens]
    exact List.append_assoc inner [closer] rest
  have hends : EndsTerm (closer :: rest) := by
    intro l hl
    cases hl
    exact Or.inr (Or.inl hclose)
  have hnone : operatorAhead (closer :: rest) = none := by
    show closer.lexeme.binaryOp? = none
    rw [hclose]
    rfl
  have hinside := ParserState.spellable_past hspell [opener]
  obtain ⟨opening, others, first, whole, rfl, hwhole, hopens⟩ :=
    h (s.past [opener]) inner (closer :: rest) hinside hinner hnext hends fun _ _ _ hop => by
      rw [hnone] at hop
      cases hop
  refine ⟨whole, hwhole, readsTerm_of_primary (List.cons_ne_nil _ _) htokens hrest ?_⟩
  intro fuel hfuel
  rw [List.length_cons, List.length_append] at hfuel
  obtain ⟨fuel, rfl⟩ : ∃ n, fuel = n + 1 := ⟨fuel - 1, by omega⟩
  have hend : ((s.past [opener]).past (opening ++ others)).tokens = closer :: rest :=
    ParserState.past_tokens hnext
  have hpast : s.past (opener :: (opening ++ others ++ [closer]))
      = ((s.past [opener]).past (opening ++ others)).past [closer] :=
    ParserState.past_append (s.past [opener]) (opening ++ others) [closer]
  rw [primary, bind_eq (take_eq htokens _), hopen]
  dsimp only
  rw [bind_eq (hopens.expressionWith hnext hnone (by omega)), bind_eq (want_eq hend hclose), hpast]
  rfl

/-- An expression is read back with its parentheses, where it needs them. -/
theorem ReadBack.enclosed {e : Expr} (h : ReadBack e e.lexemes e.root?) (wrapped : Bool) :
    ReadBack e (enclosed wrapped e.lexemes) (if wrapped then none else e.root?) := by
  cases wrapped with
  | false => exact h
  | true => exact h.parenthesized.readBack none

/-- Names and members are read back. -/
theorem readBack_place {e : Expr} (hplace : e.IsPlace) : ReadBackTerm e e.lexemes := by
  intro s ts rest hspell hts htokens hrest
  obtain ⟨whole, hwhole, hprimary⟩ := primary_place hplace hspell hts htokens hrest.endsName
  have hne : ts ≠ [] := by
    rintro rfl
    rcases hplace with ⟨i, rfl⟩ | ⟨object, accessor, field, pos, rfl⟩ <;> cases hts
  refine ⟨whole, hwhole, readsTerm_of_primary hne htokens hrest fun fuel hfuel => ?_⟩
  have hpos := List.length_pos_iff.2 hne
  obtain ⟨fuel, rfl⟩ : ∃ n, fuel = n + 1 := ⟨fuel - 1, by omega⟩
  exact hprimary fuel

/-- A number is read back as it is written. -/
theorem readBack_number (lit : NumberLiteral) :
    ReadBackTerm (.number lit) [.literal lit.ty.literalKind lit.text] := by
  intro s ts rest hspell hts htokens hrest
  obtain ⟨token, rfl, hlexeme⟩ := List.map_eq_singleton_iff.1 hts
  have hty : lit.ty.literalKind.ty = lit.ty := hspell
  have hkind := lit.ty.literalKind_ne_string
  refine ⟨.number ⟨lit.ty.literalKind.ty, lit.text, token.pos⟩, ?_,
    readsTerm_of_primary (List.cons_ne_nil _ _) htokens hrest fun fuel hfuel => ?_⟩
  · show Expr.number ⟨lit.ty.literalKind.ty, lit.text, .start⟩ = .number ⟨lit.ty, lit.text, .start⟩
    rw [hty]
  · obtain ⟨fuel, rfl⟩ : ∃ n, fuel = n + 1 := ⟨fuel - 1, by
      rw [List.length_singleton] at hfuel
      omega⟩
    rw [primary, bind_eq (take_eq htokens _), hlexeme]
    cases hk : lit.ty.literalKind with
    | string => exact absurd hk hkind
    | _ => rfl

/-- A string is read back as it is written. -/
theorem readBack_string (lit : StringLiteral) :
    ReadBackTerm (.string lit) [.literal .string lit.value] := by
  intro s ts rest hspell hts htokens hrest
  obtain ⟨token, rfl, hlexeme⟩ := List.map_eq_singleton_iff.1 hts
  have hlength : lit.length = lit.value.utf8ByteSize := hspell
  refine ⟨.string ⟨lit.value, lit.value.utf8ByteSize, token.pos⟩, ?_,
    readsTerm_of_primary (List.cons_ne_nil _ _) htokens hrest fun fuel hfuel => ?_⟩
  · show Expr.string ⟨lit.value, lit.value.utf8ByteSize, .start⟩
      = .string ⟨lit.value, lit.length, .start⟩
    rw [hlength]
  · obtain ⟨fuel, rfl⟩ : ∃ n, fuel = n + 1 := ⟨fuel - 1, by
      rw [List.length_singleton] at hfuel
      omega⟩
    rw [primary, bind_eq (take_eq htokens _), hlexeme]
    rfl

/-- A step behind a place. -/
theorem readBack_after {op : UnaryOp} {operand : Expr} (pos : Position) :
    ReadBackTerm (.unary op .after operand pos)
      (enclosed operand.root?.isSome operand.lexemes ++ [.symbol op.symbol]) := by
  intro s ts rest hspell hts htokens hrest
  obtain ⟨hop, hplace, -, hoperand⟩ := hspell
  have hop := hop rfl
  have hplace := hplace hop
  rw [hplace.root?] at hts
  obtain ⟨inner, last, rfl, hinner, hlast⟩ := List.map_eq_append_iff.1 hts
  obtain ⟨token, rfl, hlexeme⟩ := List.map_eq_singleton_iff.1 hlast
  have hstep : stepOp? token.lexeme = some op := by
    rw [hlexeme]
    rcases hop with rfl | rfl <;> rfl
  have hends : EndsName (token :: rest) := by
    intro symbol hahead
    have hsymbol : op.symbol = symbol :=
      Lexeme.symbol.inj (hlexeme.symm.trans (Option.some.inj hahead))
    subst hsymbol
    rcases hop with rfl | rfl <;> rfl
  rw [List.append_assoc] at htokens
  obtain ⟨whole, hwhole, hprimary⟩ := primary_place hplace hoperand hinner htokens hends
  refine ⟨.unary op .after whole token.pos, hwhole.unary op .after pos token.pos, ?_⟩
  intro fuel hfuel
  rw [List.length_append, List.length_singleton] at hfuel
  obtain ⟨fuel, rfl⟩ : ∃ n, fuel = n + 2 := ⟨fuel - 2, by omega⟩
  rw [termWith, bind_eq (hprimary fuel), ParserState.past_append]
  exact postStep_some (ParserState.past_tokens htokens) hstep (hwhole.isAssignable hplace hoperand)

/-- What the parser does with the operand of an operator in front of it. -/
theorem primary_before {op : UnaryOp} {operand : Expr} {fuel : Nat}
    (htokens : s.tokens = token :: rest) (hlexeme : token.lexeme = .symbol op.symbol)
    (hterm : termWith fuel (s.past [token]) = .ok operand t)
    (hstep : op = .incr ∨ op = .decr → operand.isAssignable = true)
    (hnumber : op = .minus → ∀ lit, operand ≠ .number lit) :
    primary (fuel + 1) s = .ok (.unary op .before operand token.pos) t := by
  rw [primary, bind_eq (take_eq htokens _), hlexeme]
  cases op with
  | plus => exact bind_eq hterm
  | minus =>
      refine (bind_eq hterm).trans ?_
      unfold negation
      cases operand with
      | number lit => exact absurd rfl (hnumber rfl lit)
      | _ => rfl
  | not => exact bind_eq hterm
  | incr =>
      refine (bind_eq hterm).trans ?_
      unfold stepping
      rw [if_pos (hstep (Or.inl rfl))]
      rfl
  | decr =>
      refine (bind_eq hterm).trans ?_
      unfold stepping
      rw [if_pos (hstep (Or.inr rfl))]
      rfl

/-- An operator in front of a term is read back with it. -/
theorem readBack_before {op : UnaryOp} {operand : Expr} {ls : List Lexeme}
    (h : ReadBackTerm operand ls) (pos : Position) :
    ReadBackTerm (.unary op .before operand pos) (.symbol op.symbol :: ls) := by
  intro s ts rest hspell hts htokens hrest
  obtain ⟨-, hplace, hnumber, hoperand⟩ := hspell
  obtain ⟨token, ts', rfl, hlexeme, hts'⟩ := List.map_eq_cons_iff.1 hts
  have hnext : (s.past [token]).tokens = ts' ++ rest :=
    ParserState.past_token htokens
  obtain ⟨whole, hwhole, hterm⟩ :=
    h (s.past [token]) ts' rest (ParserState.spellable_past hoperand _) hts' hnext hrest
  refine ⟨.unary op .before whole token.pos, hwhole.unary op .before pos token.pos,
    readsTerm_of_primary (List.cons_ne_nil _ _) htokens hrest fun fuel hfuel => ?_⟩
  rw [List.length_cons] at hfuel
  obtain ⟨fuel, rfl⟩ : ∃ n, fuel = n + 1 := ⟨fuel - 1, by omega⟩
  rw [ParserState.past_cons]
  exact primary_before htokens hlexeme (hterm fuel (by omega))
    (fun hop => hwhole.isAssignable (hplace hop) hoperand) fun hop => hwhole.ne_number (hnumber hop)

/-- An operator between operands that are read back. An operand that would
group otherwise is in parentheses and is a term. -/
theorem readBack_binary {op : BinaryOp} {lhs rhs : Expr} (hl : ReadBack lhs lhs.lexemes lhs.root?)
    (hr : ReadBack rhs rhs.lexemes rhs.root?) (constant operandsMatch : Bool) (pos : Position) :
    ReadBack (.binary op lhs rhs constant operandsMatch pos)
      (enclosed (lhs.wrappedLeft op) lhs.lexemes
        ++ .symbol op.symbol :: enclosed (rhs.wrappedRight op) rhs.lexemes) (some op) := by
  intro s ts rest hspell hts htokens hrest hbehind
  obtain ⟨hplace, hspelll, hspellr⟩ := hspell
  obtain ⟨tsl, ts', rfl, htsl, hts'⟩ := List.map_eq_append_iff.1 hts
  obtain ⟨token, tsr, rfl, hlexeme, htsr⟩ := List.map_eq_cons_iff.1 hts'
  have hop : token.lexeme.binaryOp? = some op := by
    rw [hlexeme]
    exact BinaryOp.binaryOp?_symbol op
  have hroot : ∀ inner, (if lhs.wrappedLeft op then none else lhs.root?) = some inner →
      op.overtakes inner = false := by
    intro inner hinner
    split at hinner
    · cases hinner
    · rename_i hwrapped
      unfold Expr.wrappedLeft at hwrapped
      rw [hinner] at hwrapped
      exact Bool.not_eq_true _ ▸ hwrapped
  have hroot' : ∀ inner, (if rhs.wrappedRight op then none else rhs.root?) = some inner →
      inner.overtakes op = true := by
    intro inner hinner
    split at hinner
    · cases hinner
    · rename_i hwrapped
      unfold Expr.wrappedRight at hwrapped
      rw [hinner] at hwrapped
      exact Bool.not_not_eq.1 hwrapped
  rw [List.append_assoc] at htokens
  have hahead : operatorAhead (token :: (tsr ++ rest)) = some op := hop
  obtain ⟨opening, others, first, whole, rfl, hwhole, hopens⟩ :=
    hl.enclosed (lhs.wrappedLeft op) s tsl (token :: (tsr ++ rest)) hspelll htsl htokens
      (endsTerm_of_operator hahead) fun inner next hinner hnext => by
        rw [hahead] at hnext
        cases hnext
        exact hroot inner hinner
  have hpast : (s.past (opening ++ others)).past [token] = s.past (opening ++ others ++ [token]) :=
    (ParserState.past_append s (opening ++ others) [token]).symm
  have hnext : (s.past (opening ++ others ++ [token])).tokens = tsr ++ rest := by
    rw [← hpast]
    exact ParserState.past_token (ParserState.past_tokens htokens)
  obtain ⟨opening', others', first', whole', rfl, hwhole', hopens'⟩ :=
    hr.enclosed (rhs.wrappedRight op) _ tsr rest (ParserState.spellable_past hspellr _) htsr hnext
      hrest
      fun inner next hinner hahead =>
        BinaryOp.overtakes_trans (hroot' inner hinner) (hbehind op next rfl hahead)
  refine ⟨opening, _, first, _, (List.append_assoc _ _ _), hwhole.binary hwhole' _ _ _ token.pos,
    hopens.binary hopens' htokens hop (fun hassign => ?_) hroot hroot' fun next =>
      hbehind op next rfl⟩
  refine ⟨?_, hwhole.isAssignable (hplace hassign) hspelll⟩
  rw [(hplace hassign).root?, ite_self]

/-- Every expression is read back. -/
theorem readBack : ∀ e : Expr, ReadBack e e.lexemes e.root?
  | .ident i => (readBack_place (Or.inl ⟨i, rfl⟩)).readBack none
  | .number lit => (readBack_number lit).readBack none
  | .string lit => (readBack_string lit).readBack none
  | .member object accessor field pos =>
      (readBack_place (Or.inr ⟨object, accessor, field, pos, rfl⟩)).readBack none
  | .unary _ .before operand pos => by
      have henclosed := (readBack operand).enclosed operand.root?.isSome
      have hnone : (if operand.root?.isSome then none else operand.root?) = none := by
        cases operand.root? <;> rfl
      rw [hnone] at henclosed
      exact (readBack_before henclosed.term pos).readBack none
  | .unary _ .after _ pos => (readBack_after pos).readBack none
  | .binary _ lhs rhs constant operandsMatch pos =>
      readBack_binary (readBack lhs) (readBack rhs) constant operandsMatch pos

/-- An expression is read back from its lexemes in front of the end, a
semicolon or a closing parenthesis: the parser has it, but for places and with
the flags that follow from its operands, and has taken nothing else. -/
theorem expression_reads_back {e : Expr} {s : ParserState} {ts rest : List Token}
    (hspell : e.Spellable s.table s.program) (hts : ts.map (·.lexeme) = e.lexemes)
    (htokens : s.tokens = ts ++ rest)
    (hrest : ∀ l, ahead rest = some l → l = .symbol .semicolon ∨ l = .symbol .rparen) :
    ∃ e' last, expression s = .ok e' { s with tokens := rest, last := last }
      ∧ e'.unplaced = e.recombined.unplaced := by
  have hends : EndsTerm rest := fun l hl => (hrest l hl).imp_right Or.inl
  have hnone : operatorAhead rest = none := by
    unfold operatorAhead
    cases hahead : ahead rest with
    | none => rfl
    | some l =>
        rcases hrest l hahead with rfl | rfl <;> rfl
  obtain ⟨opening, others, first, whole, rfl, hwhole, hopens⟩ :=
    readBack e s ts rest hspell hts htokens hends fun _ _ _ hop => by
      rw [hnone] at hop
      cases hop
  have hfuel : 4 * (opening ++ others).length + 2 ≤ steps s.tokens.length := by
    have hlength : s.tokens.length = (opening ++ others).length + rest.length := by
      rw [htokens]
      exact List.length_append
    unfold steps
    omega
  obtain ⟨last, hpast⟩ := ParserState.past_eq htokens
  refine ⟨whole, last, ?_, hwhole⟩
  rw [← hpast]
  exact hopens.expressionWith htokens hnone hfuel

/-- A program with an aggregate, in front of an expression. -/
def workshop (tokens : List Token) : ParserState where
  tokens := tokens
  last := .start
  table := ⟨#[none], [((0, "total"), ⟨.long, .start⟩), ((0, "left"), ⟨.int, .start⟩),
    ((0, "pot"), ⟨.named "Pot", .start⟩)], 0⟩
  program := ⟨[.aggregate
    ⟨.struct, "Pot", [⟨.int, "size", none, .publicMember, .start⟩], [], .start⟩]⟩
  function := none
  report := .empty false

/-- An assignment whose operands group from either side. -/
def refill : Expr :=
  let left : Expr := .ident ⟨"left", true, .start⟩
  let size : Expr := .member ⟨"pot", true, .start⟩ .dot ⟨"size", false, .start⟩ .start
  let sum : Expr := .binary (.arith .add) left size false false .start
  let product : Expr := .binary (.arith .mul) (.unary .minus .before sum .start)
    (.unary .incr .after left .start) false false .start
  let two : Expr := .number ⟨.int, "2", .start⟩
  let difference : Expr := .binary (.arith .sub) left two false false .start
  .binary .assign (.ident ⟨"total", true, .start⟩)
    (.binary (.arith .sub) product difference false false .start) false false .start

/-- It is spelled `total = -(left + pot.size) * left++ - (left - 2)` and read
back in front of a semicolon. -/
theorem refill_reads_back :
    refill.lexemes.map Lexeme.describe
        = ["identifier 'total'", "'='", "'-'", "'('", "identifier 'left'", "'+'",
          "identifier 'pot'", "'.'", "identifier 'size'", "')'", "'*'", "identifier 'left'", "'++'",
          "'-'", "'('", "identifier 'left'", "'-'", "integer literal '2'", "')'"]
      ∧ ∃ e' last,
        expression (workshop (refill.tokens ++ [⟨.symbol .semicolon, .start⟩]))
            = .ok e' { workshop [⟨.symbol .semicolon, .start⟩] with last := last }
          ∧ e'.unplaced = refill.recombined.unplaced := by
  have hleft : (Expr.ident ⟨"left", true, .start⟩).Spellable (workshop []).table
      (workshop []).program :=
    ⟨rfl, by decide⟩
  have hsize : (Expr.member ⟨"pot", true, .start⟩ .dot ⟨"size", false, .start⟩ .start).Spellable
      (workshop []).table (workshop []).program :=
    ⟨rfl, rfl, "Pot", _, Or.inl (by decide), rfl, rfl⟩
  have hspell : refill.Spellable (workshop []).table (workshop []).program :=
    ⟨fun _ => Or.inl ⟨_, rfl⟩, ⟨rfl, by decide⟩, nofun,
      ⟨nofun, ⟨nofun, nofun, fun _ _ => nofun, nofun, hleft, hsize⟩,
        fun _ => Or.inl rfl, fun _ => Or.inl ⟨_, rfl⟩, nofun, hleft⟩,
      nofun, hleft, rfl⟩
  have htokens : (workshop (refill.tokens ++ [⟨.symbol .semicolon, .start⟩])).tokens
      = refill.tokens ++ [⟨.symbol .semicolon, .start⟩] := rfl
  exact ⟨by decide, expression_reads_back hspell rfl htokens fun l hl =>
    Or.inl (Option.some.inj hl).symm⟩

end MiniC.Parser
