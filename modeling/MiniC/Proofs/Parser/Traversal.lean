/-
The grammar, taken apart once for every account of it. Each rule gets one lemma:
if it is taken at an index, what an account says of the construct holds of what
the rule answers, between that index and the one behind. A rule calls the lemmas
of the rules it calls, and where the construct is put together it cites the reason
that the account gives for that production; nothing is assumed of the account
beyond what its fields say. What is said of a whole program is `program_holds`.

# The steps that are given

The rules that call each other are given a number of steps, and every call takes
one. They are never short of them because a rule is given four steps for each
token that is left, and at most four of its own (`Enough`): an expression calls a
term, that a primary, and a primary calls again only behind a token that it took.
So a call from one rule to a lower one spends a step of its own, and a call behind
`n` tokens has `4 * n` to spend besides (`Enough.spend`). What a construct takes
of the tokens is told by `Paid`, and payments add up along a sequence. An account
that does not count tokens is `free`, and owes none of this.

# Rounds

The loops of the grammar are run round by round, as the module of rounds has cut
them. What is said of a loop relates the index where it started to its answer, so
a round may come to that answer, or to the start of another round from whose
answers this one makes its own (`Met`). `follow` puts the round and the rest of
the loop together; only a round that takes a token is followed by another, which
is why the steps last.

A right operand is the one place where a round takes nothing by itself: it is
extended by a climb, and the climb takes the operator because that operator is
what the round looked at. `Climbed` therefore says of an extension that it takes
a token if the operator ahead is above its floor, and not only what it answers.

# Scopes and declarations

What is read in a scope is read at an index of its own (`enter`), from which the
account finds its way back (`Leaves`). Functions and aggregates are put together
behind their scope out of what was read inside, and it is only there that their
production is cited. Consumed by the seven accounts.
-/
import MiniC.Proofs.Parser.Account

namespace MiniC.Parser

-- ================================================================ payment

theorem Paid.refl {free : Prop} (tokens : List Token) : Paid free 0 tokens tokens :=
  .inr (Nat.le_refl _)

/-- Payments add up along a sequence. -/
theorem Paid.trans {free : Prop} {n m : Nat} {ts us vs : List Token} (h : Paid free n ts us)
    (h' : Paid free m us vs) : Paid free (n + m) ts vs := by
  obtain h | h := h
  · exact .inl h
  obtain h' | h' := h'
  · exact .inl h'
  · exact .inr (by omega)

/-- Whoever paid more has paid less. -/
theorem Paid.weaken {free : Prop} {n m : Nat} {ts us : List Token} (h : Paid free n ts us)
    (hle : m ≤ n) : Paid free m ts us :=
  h.imp_right fun h => by omega

variable {α β : Type}

/-- Whether so many steps are enough for a rule that is given up to four of them for
each token, and some of its own. -/
def Account.Enough (d : Account) (fuel own : Nat) (i : d.Index) : Prop :=
  fuel < 4 * (d.ahead i).length + own → d.short

variable {d : Account} {fuel own own' n : Nat} {i j : d.Index} {P : α → d.Index → Prop}

/-- A rule with a step of its own that has none left is short of them, and only an
account that allows for that comes here. -/
theorem Account.Enough.stall (h : d.Enough 0 (own + 1) i) : d.Holds i stuck P :=
  d.stall (h (by omega))

/-- A rule that another one calls has a step less, and four more for each token that
was taken. -/
theorem Account.Enough.spend (h : d.Enough (fuel + 1) own i)
    (hpaid : Paid d.free n (d.ahead i) (d.ahead j)) (hown : own' + 1 ≤ own + 4 * n) :
    d.Enough fuel own' j := by
  intro hfew
  obtain hfree | hpaid := hpaid
  · exact d.short_of_free hfree
  · exact h (by omega)

/-- The steps that are given to a rule of its own are enough for it. -/
theorem enough_steps {s : ParserState} (hs : d.Sees i s) (hown : own ≤ 4) :
    d.Enough (steps s.tokens.length) own i := by
  intro hfew
  obtain hfree | hahead := d.ahead_sees hs
  · exact d.short_of_free hfree
  · rw [hahead] at hfew
    unfold steps at hfew
    omega

-- ================================================================= rounds

/-- What a round of a loop that started at an index comes to: the answer, or a start
for the loop behind, with a token paid, from whose answers the answer is made. -/
def Account.Met (d : Account) {ι : Type} (R : d.Index → α → d.Index → Prop)
    (N : ι → d.Index → Prop) (i : d.Index) : Round ι α → d.Index → Prop
  | .done a, j => R i a j
  | .again next finish, j =>
    N next j ∧ Paid d.free 1 (d.ahead i) (d.ahead j) ∧ ∀ a k, R j a k → R i (finish a) k

/-- A round and what follows it say together what is said of the loop. -/
theorem follow {ι : Type} {R : d.Index → α → d.Index → Prop} {N : ι → d.Index → Prop}
    {round : Parser (Round ι α)} {run : ι → Parser α} (hround : d.Holds i round (d.Met R N i))
    (hrun : ∀ next j, N next j → Paid d.free 1 (d.ahead i) (d.ahead j) →
      d.Holds j (run next) (R j)) :
    d.Holds i (round >>= Round.follow run) (R i) := by
  refine d.chain hround fun r j hr => ?_
  cases r with
  | done a => exact d.answer hr
  | again next finish =>
      obtain ⟨hnext, hpaid, hfinish⟩ := hr
      exact d.map (d.weaken (hrun next j hnext hpaid) hfinish)

-- ============================================================ expressions

/-- How many tokens an extension takes at least: one if the operator ahead is above
the floor. -/
def admitted (floor : Nat) (tokens : List Token) : Nat :=
  match operatorAhead tokens with
  | some op => if op.precedence < floor then 0 else 1
  | none => 0

theorem admitted_le (floor : Nat) (tokens : List Token) : admitted floor tokens ≤ 1 := by
  unfold admitted
  split
  · split <;> omega
  · exact Nat.zero_le _

/-- What extending a left operand comes to, and what it takes. -/
def Account.Climbed (d : Account) (o : d.Index) (floor : Nat) (i : d.Index) (e : Expr)
    (j : d.Index) : Prop :=
  d.expr o e j ∧ Paid d.free (admitted floor (d.ahead i)) (d.ahead i) (d.ahead j)

/-- An index at which a state is seen that has no operator above the floor ahead. -/
theorem paid_below {s : ParserState} {floor : Nat} (hs : d.Sees i s)
    (h : admitted floor s.tokens = 0) :
    Paid d.free (admitted floor (d.ahead i)) (d.ahead i) (d.ahead i) := by
  obtain hfree | hahead := d.ahead_sees hs
  · exact .inl hfree
  · rw [hahead, h]
    exact .refl _

/-- The operator ahead is looked at, and stays ahead. -/
theorem operating {f : Option BinaryOp → Parser β} {P : β → d.Index → Prop}
    (hf : ∀ s, d.Sees i s → d.Holds i (f (operatorAhead s.tokens)) P) :
    d.Holds i (peekOperator >>= f) P :=
  d.look peekOperator_eq (fun _ _ => rfl) hf

/-- A minus in front of a literal is folded into it, and in front of anything else
is an operation. -/
theorem negation_holds {tok : Token} {e : Expr} {k : d.Index} (htok : d.token i tok j)
    (he : d.expr j e k) : d.Holds k (negation e tok.pos) (d.expr i) := by
  unfold negation
  split
  · refine d.folding (d.token_placed htok) fun negated hnegated => ?_
    exact d.answer (d.negated htok he hnegated)
  · rename_i hno
    exact d.answer (d.prefixed htok he hno)

/-- A step in front of an expression wants something that can be assigned to. -/
theorem stepping_holds {tok : Token} {e : Expr} {k : d.Index} {op : UnaryOp}
    (hop : op = .incr ∨ op = .decr) (htok : d.token i tok j) (he : d.expr j e k) :
    d.Holds k (stepping op .before e tok.pos) (d.expr i) := by
  refine d.ite (fun hassignable => d.answer (d.prefixed htok he ?_)) fun _ =>
    d.stop_one rfl (d.expr_placed he)
  obtain rfl | rfl := hop <;> exact hassignable

/-- What steps an expression steps it up or down. -/
theorem stepOp?_cases {lexeme : Lexeme} {op : UnaryOp} (h : stepOp? lexeme = some op) :
    op = .incr ∨ op = .decr := by
  unfold stepOp? at h
  split at h
  · cases h
    exact Or.inl rfl
  · cases h
    exact Or.inr rfl
  · cases h

/-- A step behind an expression, if there is one, wants something that can be
assigned to. -/
theorem postStep_holds {e : Expr} (he : d.expr i e j) :
    d.Holds j (postStep e) (d.expr i) := by
  refine d.glance (peek_glances (by decide)) fun lexeme => ?_
  split
  · exact d.answer he
  · rename_i op hop
    obtain ⟨found, -, hstep⟩ := Option.bind_eq_some_iff.1 hop
    refine d.ite (fun hassignable => ?_) fun _ => d.stop_one rfl (d.expr_placed he)
    refine d.taking fun tok k htok => d.answer (d.suffixed he htok ?_)
    obtain rfl | rfl := stepOp?_cases hstep <;> exact hassignable

/-- One operator and its right operand: the operator is paid for, and what extends
the combined expression extends the left operand. -/
theorem climbRound_holds {o : d.Index} {term : Parser Expr}
    {tighten : BinaryOp → Expr → Parser Expr} {floor : Nat} {lhs : Expr} (hlhs : d.expr o lhs i)
    (hterm : ∀ j, Paid d.free 1 (d.ahead i) (d.ahead j) → d.Holds j term (d.expr j))
    (htighten : ∀ op rhs j k, d.expr j rhs k → Paid d.free 2 (d.ahead i) (d.ahead k) →
      d.Holds k (tighten op rhs) (d.expr j)) :
    d.Holds i (climbRound term tighten floor lhs)
      (d.Met (d.Climbed o floor) (d.expr o) i) := by
  refine operating fun s hs => ?_
  have hbelow (h : admitted floor s.tokens = 0) :
      d.Holds i (pure (.done lhs)) (d.Met (d.Climbed o floor) (d.expr o) i) :=
    d.answer ⟨hlhs, paid_below hs h⟩
  unfold admitted at hbelow
  cases hop : operatorAhead s.tokens with
  | none => exact hbelow (by rw [hop])
  | some op =>
      rw [hop] at hbelow
      refine d.ite (fun hfloor => hbelow (if_pos hfloor)) fun _ => ?_
      refine d.taking fun tok j htok => ?_
      have hpaid := d.token_pays htok
      refine d.chain (hterm j hpaid) fun rhs k hrhs => ?_
      refine d.chain (htighten op rhs j k hrhs (hpaid.trans (d.expr_pays hrhs)))
        fun rhs k hrhs => ?_
      refine d.ite (fun _ => d.stop_one rfl (d.expr_placed hlhs)) fun hassign => d.answer ?_
      have hall := hpaid.trans (d.expr_pays hrhs)
      refine ⟨d.combined hlhs htok hrhs fun h => ?_, hall.weaken (by decide), fun e l he => ?_⟩
      · rw [h, Bool.true_and, Bool.not_eq_true, Bool.not_eq_false'] at hassign
        exact hassign
      · exact ⟨he.1, (hall.trans he.2).weaken (Nat.le_trans (admitted_le _ _) (by omega))⟩

/-- The operator ahead is above the floor that a right operand is extended with, so
that the extension takes it. -/
theorem tightenRound_holds {o : d.Index} {climb : Nat → Expr → Parser Expr} {op : BinaryOp}
    {rhs : Expr} (hrhs : d.expr o rhs i)
    (hclimb : ∀ floor, d.Holds i (climb floor rhs) (d.Climbed o floor i)) :
    d.Holds i (tightenRound climb op rhs) (d.Met (fun _ => d.expr o) (d.expr o) i) := by
  refine operating fun s hs => ?_
  have hextend (floor : Nat) (hadmitted : admitted floor s.tokens = 1) :
      d.Holds i (do
        let rhs ← climb floor rhs
        return .again rhs id : Parser (Round Expr Expr))
        (d.Met (fun _ => d.expr o) (d.expr o) i) := by
    refine d.chain (hclimb floor) fun e j he => d.answer ⟨he.1, ?_, fun _ _ => id⟩
    obtain hfree | hahead := d.ahead_sees hs
    · exact .inl hfree
    · rw [← hadmitted, ← hahead]
      exact he.2
  cases hnext : operatorAhead s.tokens with
  | none => exact d.answer hrhs
  | some next =>
      refine d.ite (fun hlt => hextend _ ?_) fun _ => d.ite (fun hright => hextend _ ?_) fun _ =>
        d.answer hrhs
      · unfold admitted
        rw [hnext]
        exact if_neg (Nat.not_lt.2 hlt)
      · have heq : next.precedence = op.precedence :=
          of_decide_eq_true (Bool.and_eq_true_iff.1 hright).2
        unfold admitted
        rw [hnext]
        exact if_neg (Nat.not_lt.2 (Nat.le_of_eq heq.symm))

mutual

/-- An expression is a term, extended from the lowest floor. -/
theorem expressionWith_holds : ∀ (fuel : Nat) {i : d.Index}, d.Enough fuel 3 i →
    d.Holds i (expressionWith fuel) (d.expr i)
  | 0, i, h => by
      unfold expressionWith
      exact h.stall
  | fuel + 1, i, h => by
      unfold expressionWith
      refine d.chain (termWith_holds fuel (h.spend (.refl _) (by decide))) fun lhs j hlhs => ?_
      have hclimb := climb_holds fuel 0 hlhs (h.spend (d.expr_pays hlhs) (by decide))
      exact d.weaken hclimb fun e k he => he.1

/-- A left operand is extended as long as operators above the floor are ahead. -/
theorem climb_holds : ∀ (fuel floor : Nat) {o : d.Index} {lhs : Expr} {i : d.Index},
    d.expr o lhs i → d.Enough fuel 1 i → d.Holds i (climb fuel floor lhs) (d.Climbed o floor i)
  | 0, _, _, _, _, _, h => by
      unfold climb
      exact h.stall
  | fuel + 1, floor, o, lhs, i, hlhs, h => by
      rw [climb_unrolls]
      refine follow (climbRound_holds hlhs (fun j hj => ?_) fun op rhs j k hrhs hk => ?_)
        fun lhs j hlhs hj => ?_
      · exact termWith_holds fuel (h.spend hj (by decide))
      · exact tighten_holds fuel op hrhs (h.spend hk (by decide))
      · exact climb_holds fuel floor hlhs (h.spend hj (by decide))

/-- A right operand is extended by the operators that bind tighter than its own. -/
theorem tighten_holds : ∀ (fuel : Nat) (op : BinaryOp) {o : d.Index} {rhs : Expr} {i : d.Index},
    d.expr o rhs i → d.Enough fuel 2 i → d.Holds i (tighten fuel op rhs) (d.expr o)
  | 0, _, _, _, _, _, h => by
      unfold tighten
      exact h.stall
  | fuel + 1, op, o, rhs, i, hrhs, h => by
      rw [tighten_unrolls]
      refine follow (R := fun _ => d.expr o) (tightenRound_holds hrhs fun floor => ?_)
        fun rhs j hrhs hj => ?_
      · exact climb_holds fuel floor hrhs (h.spend (.refl _) (by decide))
      · exact tighten_holds fuel op hrhs (h.spend hj (by decide))

theorem termWith_holds : ∀ (fuel : Nat) {i : d.Index}, d.Enough fuel 2 i →
    d.Holds i (termWith fuel) (d.expr i)
  | 0, i, h => by
      unfold termWith
      exact h.stall
  | fuel + 1, i, h => by
      unfold termWith
      exact d.chain (primary_holds fuel (h.spend (.refl _) (by decide))) fun e j he =>
        postStep_holds he

/-- What an expression begins with decides what it is; behind the first token it has
all steps again. -/
theorem primary_holds : ∀ (fuel : Nat) {i : d.Index}, d.Enough fuel 1 i →
    d.Holds i (primary fuel) (d.expr i)
  | 0, i, h => by
      unfold primary
      exact h.stall
  | fuel + 1, i, h => by
      unfold primary
      refine d.taking fun tok j htok => ?_
      have hinner : d.Enough fuel 3 j := h.spend (d.token_pays htok) (by decide)
      have hterm : d.Enough fuel 2 j := h.spend (d.token_pays htok) (by decide)
      split
      · rename_i hlexeme
        exact d.answer (d.string htok hlexeme)
      · rename_i hkind hlexeme
        exact d.answer (d.number htok hlexeme fun h => hkind h)
      · rename_i hlexeme
        exact d.name htok hlexeme
      · exact d.chain (expressionWith_holds fuel hinner) fun e k he =>
          d.wanting fun rparen l hrparen => d.answer (d.enclosed htok he hrparen)
      · exact d.chain (termWith_holds fuel hterm) fun e k he => negation_holds htok he
      · exact d.chain (termWith_holds fuel hterm) fun e k he =>
          d.answer (d.prefixed htok he trivial)
      · exact d.chain (termWith_holds fuel hterm) fun e k he =>
          d.answer (d.prefixed htok he trivial)
      · exact d.chain (termWith_holds fuel hterm) fun e k he => stepping_holds (.inl rfl) htok he
      · exact d.chain (termWith_holds fuel hterm) fun e k he => stepping_holds (.inr rfl) htok he
      · exact d.unexpected htok _

end

theorem expression_holds : d.Holds i expression (d.expr i) := by
  have heq : expression = get >>= fun s => expressionWith (steps s.tokens.length) := rfl
  rw [heq]
  exact d.get (fun _ _ => rfl) fun s hs => expressionWith_holds _ (enough_steps hs (by decide))

-- ============================================================== variables

variable {ty : Ty} {name : String} {pos : Position}

theorem initializer_holds : d.Holds i (initializer ty) (d.init i ty) := by
  refine d.accepting (fun tok j htok => ?_) (d.answer d.bare)
  exact d.chain expression_holds fun e k he => d.chain (d.initial htok he) fun _ l hl => d.answer hl

/-- A variable, from its initial value to its semicolon. -/
theorem variableRest_holds {g h : d.Index} (hty : d.Typed g ty h) (hname : d.Named h name pos i)
    (hpos : d.Placed pos) (access : Access) :
    d.Holds i (variableRest ty name pos access) fun v j =>
      d.decl g v j ∧ Paid d.free 1 (d.ahead i) (d.ahead j) := by
  refine d.chain initializer_holds fun e j he => d.wanting fun tok k htok => ?_
  refine d.chain (d.declare hpos) fun _ l hl => d.answer ⟨d.variableDecl hty hname he htok hl, ?_⟩
  exact ((d.init_pays he).trans (d.token_pays htok)).trans (d.binds_pays hl)

/-- A variable inside a function introduces its name into the block. -/
theorem localVariable_holds : d.Holds i localVariable (d.stmt i) := by
  refine d.typing fun ty j hty => d.naming fun name pos k hname hpos => ?_
  refine d.glance (atSymbol_glances _) fun _ => d.glance (atSymbol_glances _) fun _ => ?_
  refine d.ite (fun _ => ?_) fun _ => d.taking fun tok l htok => d.unexpected htok _
  exact d.chain (variableRest_holds hty hname hpos _) fun v l hv => d.answer (d.introduces hv.1)

-- ============================================================= statements

theorem condition_holds : d.Holds i condition (d.cond i) := by
  refine d.wanting fun tok j htok => d.chain expression_holds fun e k he => ?_
  refine d.wanting fun tok' l htok' => ?_
  exact d.chain (d.condition htok he htok') fun _ m hm => d.answer hm

/-- A return has a value exactly when its function does. -/
theorem checkReturn_holds {hasValue : Bool} {P : Unit → d.Index → Prop} (hpos : d.Placed pos)
    (h : ∀ s, d.Sees i s →
      (∀ name ty, s.function = some (name, ty) → (hasValue = true ↔ ty ≠ .void)) → P () i) :
    d.Holds i (checkReturn hasValue pos) P := by
  refine d.get (fun _ _ => rfl) fun s hs => ?_
  split
  · rename_i name ty hfunction
    refine d.ite (fun _ => d.stop_one rfl hpos) fun hno => ?_
    refine d.ite (fun _ => d.stop_one rfl hpos) fun hno' => d.answer (h s hs fun name' ty' h' => ?_)
    cases hfunction.symm.trans h'
    cases hasValue with
    | true => simpa using hno
    | false => simpa using hno'
  · rename_i hnone
    exact d.answer (h s hs fun name ty h => absurd (hnone.symm.trans h) nofun)

/-- A return, with or without a value. Either way the function around it has agreed,
which the account hears together with the function's type. -/
theorem returnRest_holds {tok : Token} (htok : d.token i tok j) :
    d.Holds j (returnRest tok.pos) (d.stmt i) := by
  have hpos := d.token_placed htok
  refine d.glance (atSymbol_glances _) fun b => ?_
  cases b with
  | true =>
      refine d.wanting fun tok' k htok' => ?_
      refine d.chain (P := fun _ l => d.stmt i (.ret none tok.pos) l) (checkReturn_holds hpos ?_)
        fun _ l hl => d.answer hl
      intro s hs h
      refine d.returnsNone htok htok' hs fun name ty hfunction => ?_
      exact Classical.not_not.1 fun hty => Bool.false_ne_true ((h name ty hfunction).2 hty)
  | false =>
      refine d.chain (d.map (Q := fun value k => ∃ e, value = some e ∧ d.expr j e k) ?_)
        fun value k hvalue => ?_
      · exact d.weaken expression_holds fun e k he => ⟨e, rfl, he⟩
      obtain ⟨e, rfl, he⟩ := hvalue
      refine d.wanting fun tok' l htok' => ?_
      refine d.chain (P := fun _ m => d.stmt i (.ret (some e) tok.pos) m)
        (checkReturn_holds hpos ?_) fun _ m hm => d.answer hm
      intro s hs h
      exact d.returnsSome htok he htok' hs fun name ty hfunction => (h name ty hfunction).1 rfl

/-- A block that is not closed is at the end of the tokens. -/
theorem blockRound_eq (statement : Parser Stmt) :
    blockRound statement = accept .rcurly >>= fun closed =>
      if closed then return .done []
      else do
        let s ← get
        if s.tokens = [] then fail (.unexpectedEof Symbol.rcurly.describe s.last)
        else
          let first ← statement
          return .again () (first :: ·) := by
  unfold blockRound
  refine bind_congr fun closed => ?_
  split
  · rfl
  funext s
  have hget : (get : Parser ParserState) s = .ok s s := rfl
  rw [bind_eq (peek_eq s), bind_eq hget]
  cases s.tokens with
  | nil => rfl
  | cons tok rest =>
      rw [if_neg (List.cons_ne_nil _ _)]
      rfl

/-- A block ends at its brace, or has one more statement. -/
theorem blockRound_holds {statement : Parser Stmt}
    (hstatement : d.Holds i statement (d.stmt i)) :
    d.Holds i (blockRound statement) (d.Met d.block (fun _ _ => True) i) := by
  rw [blockRound_eq]
  refine d.accepting (fun tok j htok => d.answer (d.brace htok d.nil)) ?_
  rw [if_neg Bool.false_ne_true]
  refine d.get (fun _ _ => rfl) fun s hs => d.ite (fun hnil => ?_) fun _ => ?_
  · exact d.stop_one rfl (d.last_placed hs hnil)
  · exact d.chain hstatement fun st j hst =>
      d.answer ⟨trivial, d.stmt_pays hst, fun rest k hrest => d.cons hst hrest⟩

/-- What is read in a scope of its own is read inside, and answered outside. -/
theorem inScope_holds {x : Parser α} {P : α → d.Index → Prop}
    (h : ∀ s, d.Sees i s →
      d.Holds (d.enter s.function i) x fun a k => ∃ j, d.Leaves i k j ∧ P a j) :
    d.Holds i (inScope x) P :=
  d.get (fun _ _ => rfl) fun s hs => d.within (h s hs)

/-- A scope is entered without taking a token. -/
theorem Account.Enough.enter {f : Option (String × Ty)} (h : d.Enough fuel own i) :
    d.Enough fuel own (d.enter f i) := by
  unfold Enough
  rw [d.enter_ahead]
  exact h

mutual

/-- What a statement begins with decides what it is. -/
theorem statementWith_holds : ∀ (fuel : Nat) {i : d.Index}, d.Enough fuel 1 i →
    d.Holds i (statementWith fuel) (d.stmt i)
  | 0, i, h => by
      unfold statementWith
      exact h.stall
  | fuel + 1, i, h => by
      unfold statementWith
      refine d.glance atType_glances fun _ => d.ite (fun _ => localVariable_holds) fun _ => ?_
      refine d.glance (peek_glances (by decide)) fun _ => ?_
      split
      · refine d.taking fun tok j htok => d.map (inScope_holds fun s hs => ?_)
        have hblock : d.Enough fuel 2 j := h.spend (d.token_pays htok) (by decide)
        refine d.weaken (blockRest_holds fuel hblock.enter) fun body k hbody => ?_
        obtain ⟨l, hleaves, hinner⟩ := d.scope hs hbody
        exact ⟨l, hleaves, d.nested htok hinner⟩
      · exact d.taking fun tok j htok => returnRest_holds htok
      · refine d.taking fun tok j htok =>
          d.map (d.weaken (arm_holds fuel tok.pos ?_) fun a k ha => ?_)
        · exact h.spend (d.token_pays htok) (by decide)
        · exact d.branch htok ha
      · refine d.taking fun tok j htok => d.chain condition_holds fun e k he => ?_
        have hpaid := (d.token_pays htok).trans (d.cond_pays he)
        exact d.chain (body_holds fuel (h.spend hpaid (by decide))) fun body l hbody =>
          d.answer (d.loop htok he hbody)
      · exact d.taking fun tok j htok => d.stop_one rfl (d.token_placed htok)
      · exact d.chain expression_holds fun e j he => d.wanting fun tok k htok =>
          d.answer (d.effect he htok)

theorem blockRest_holds : ∀ (fuel : Nat) {i : d.Index}, d.Enough fuel 2 i →
    d.Holds i (blockRest fuel) (d.block i)
  | 0, i, h => by
      unfold blockRest
      exact h.stall
  | fuel + 1, i, h => by
      rw [blockRest_unrolls]
      refine follow (blockRound_holds (statementWith_holds fuel (h.spend (.refl _) (by decide))))
        fun _ j _ hj => ?_
      exact blockRest_holds fuel (h.spend hj (by decide))

/-- The body of a branch or a loop is a block or a single statement, in a scope of
its own either way. -/
theorem body_holds : ∀ (fuel : Nat) {i : d.Index}, d.Enough fuel 3 i →
    d.Holds i (body fuel) (d.inner i)
  | 0, i, h => by
      unfold body
      exact h.stall
  | fuel + 1, i, h => by
      unfold body
      refine inScope_holds fun s hs => d.weaken (P := d.block (d.enter s.function i)) ?_
        fun body k hbody => d.scope hs hbody
      refine d.accepting (fun tok j htok => ?_) ?_
      · rw [if_pos rfl]
        have hblock : d.Enough (fuel + 1) 3 (d.enter s.function i) := h.enter
        refine d.weaken (blockRest_holds fuel (hblock.spend (d.token_pays htok) (by decide))) ?_
        exact fun body k hbody => d.brace htok hbody
      · rw [if_neg Bool.false_ne_true]
        have hone : d.Enough (fuel + 1) 3 (d.enter s.function i) := h.enter
        exact d.chain (statementWith_holds fuel (hone.spend (.refl _) (by decide)))
          fun st k hst => d.answer (d.cons hst d.nil)

/-- A condition and its block, and behind an else another arm or another block. -/
theorem arm_holds : ∀ (fuel : Nat) (pos : Position) {i : d.Index}, d.Enough fuel 2 i →
    d.Holds i (arm fuel pos) (d.arm i)
  | 0, _, i, h => by
      unfold arm
      exact h.stall
  | fuel + 1, pos, i, h => by
      unfold arm
      refine d.chain condition_holds fun e j he => ?_
      have hpaid := d.cond_pays he
      refine d.chain (body_holds fuel (h.spend hpaid (by decide)))
        fun consequent k hconsequent => ?_
      have hpaid := hpaid.trans (d.inner_pays hconsequent)
      refine d.glance (atKeyword_glances _) fun _ => d.ite (fun _ => ?_) fun _ =>
        d.answer (d.oneArmed he hconsequent)
      refine d.taking fun tok l htok => d.glance (atKeyword_glances _) fun _ => ?_
      have hpaid := hpaid.trans (d.token_pays htok)
      refine d.ite (fun _ => ?_) fun _ => ?_
      · refine d.taking fun tok' m htok' => ?_
        have hpaid := hpaid.trans (d.token_pays htok')
        exact d.chain (arm_holds fuel tok'.pos (h.spend hpaid (by decide))) fun next n hnext =>
          d.answer (d.chained he hconsequent htok htok' hnext)
      · exact d.chain (body_holds fuel (h.spend hpaid (by decide))) fun other m hother =>
          d.answer (d.twoArmed he hconsequent htok hother)

end

theorem functionBody_holds : d.Holds i functionBody (d.block i) := by
  have heq : functionBody = get >>= fun s => blockRest (steps s.tokens.length) := rfl
  rw [heq]
  exact d.get (fun _ _ => rfl) fun s hs => blockRest_holds _ (enough_steps hs (by decide))

-- =========================================================== declarations

/-- A parameter behind others. -/
theorem parameter_holds {o : d.Index} {earlier : List VariableDecl} (h : d.params o earlier i) :
    d.Holds i (parameter earlier) fun param j =>
      d.params o (earlier ++ [param]) j ∧ Paid d.free 1 (d.ahead i) (d.ahead j) := by
  refine d.typing fun ty j hty => d.naming fun name pos k hname hpos => ?_
  refine d.chain initializer_holds fun init l hinit => ?_
  refine d.ite (fun _ => d.stop_one rfl hpos) fun hdefault => ?_
  refine d.chain (d.declare hpos) fun _ m hm => d.answer ⟨?_, ?_⟩
  · refine d.param h hty hname hinit (fun hnone other hother => ?_) hm
    subst hnone
    rw [Option.isNone_none, Bool.true_and, Bool.not_eq_true, List.any_eq_false] at hdefault
    simpa using hdefault other hother
  · obtain ⟨tok, htok, -⟩ := hty
    obtain ⟨tok', htok', -⟩ := hname
    have hpaid := ((d.token_pays htok).trans (d.token_pays htok')).trans (d.init_pays hinit)
    exact (hpaid.trans (d.binds_pays hm)).weaken (by decide)

/-- One more parameter, with a comma or a parenthesis behind. -/
theorem parametersRound_holds {o : d.Index} {earlier : List VariableDecl}
    (h : d.params o earlier i) :
    d.Holds i (parametersRound earlier) (d.Met (fun _ => d.params o) (d.params o) i) := by
  refine d.accepting (fun tok j htok => d.answer (d.params_pass h htok)) ?_
  rw [if_neg Bool.false_ne_true]
  refine d.chain (parameter_holds h) fun param j hparam => ?_
  refine d.accepting (fun tok k htok => ?_) ?_
  · rw [if_pos rfl]
    refine d.answer ⟨d.params_pass hparam.1 htok, ?_, fun _ _ => id⟩
    exact (hparam.2.trans (d.token_pays htok)).weaken (by decide)
  · rw [if_neg Bool.false_ne_true]
    exact d.wanting fun tok k htok => d.answer (d.params_pass hparam.1 htok)

theorem parametersWith_holds : ∀ (fuel : Nat) {o : d.Index} {earlier : List VariableDecl}
    {i : d.Index}, d.params o earlier i → d.Enough fuel 1 i →
    d.Holds i (parametersWith fuel earlier) (d.params o)
  | 0, _, _, _, _, h => h.stall
  | fuel + 1, o, earlier, i, hearlier, h => by
      rw [parametersWith_unrolls]
      exact follow (R := fun _ => d.params o) (parametersRound_holds hearlier)
        fun earlier j hearlier hj => parametersWith_holds fuel hearlier (h.spend hj (by decide))

/-- A function is put together from what was read in its scope. -/
theorem functionRest_joins {access : Access} {P : FunctionDecl → d.Index → Prop}
    (hpos : d.Placed pos)
    (h : ∀ {j k l m n : d.Index} {lparen lcurly : Token} {params : List VariableDecl}
      {body : List Stmt}, d.binds i name ty j → d.token (d.enter (some (name, ty)) j) lparen k →
      d.params k params l → d.token l lcurly m → d.block m body n →
      ∃ o, d.Leaves j n o ∧ P ⟨ty, name, params, body, access, pos⟩ o) :
    d.Holds i (functionRest ty name pos access) P := by
  refine d.chain (d.declare hpos) fun _ j hj => d.within ?_
  have hparameters : d.Holds (d.enter (some (name, ty)) j) parameters fun params l =>
      ∃ tok k, d.token (d.enter (some (name, ty)) j) tok k ∧ d.params k params l := by
    refine d.wanting fun tok k htok => d.get (fun _ _ => rfl) fun s hs => ?_
    refine d.weaken (parametersWith_holds _ d.noParams (enough_steps hs (by decide))) ?_
    exact fun params l hparams => ⟨tok, k, htok, hparams⟩
  refine d.chain hparameters fun params l hparams => d.wanting fun tok' m htok' => ?_
  obtain ⟨tok, k, htok, hparams⟩ := hparams
  exact d.chain functionBody_holds fun body n hbody => d.answer (h hj htok hparams htok' hbody)

/-- A function that joins what is around it. -/
theorem functionRest_holds {g h : d.Index} (hty : d.Typed g ty h) (hname : d.Named h name pos i)
    (hpos : d.Placed pos) (access : Access) :
    d.Holds i (functionRest ty name pos access) (d.func g) :=
  functionRest_joins hpos fun hbinds hlparen hparams hlcurly hbody =>
    d.function hty hname hbinds hlparen hparams hlcurly hbody

/-- Whether two aggregates have the same name at the same place. -/
def SameHead (decl decl' : AggregateDecl) : Prop := decl.name = decl'.name ∧ decl.pos = decl'.pos

/-- One more member, or a change of access. The name and the place of the aggregate
stay, which is what its production asks for at the end. -/
theorem membersRound_holds {o : d.Index} {access : Access} {decl : AggregateDecl}
    (h : d.members o decl i) :
    d.Holds i (membersRound access decl)
      (d.Met (fun _ found j => d.members o found j ∧ SameHead found decl)
        (fun next j => d.members o next.2 j ∧ SameHead next.2 decl) i) := by
  refine d.accepting (fun tok j htok => d.answer ⟨d.members_pass h htok, rfl, rfl⟩) ?_
  rw [if_neg Bool.false_ne_true]
  refine d.glance (peek_glances (by decide)) fun _ => ?_
  split
  · refine d.taking fun tok j htok => d.wanting fun tok' k htok' =>
      d.answer ⟨⟨?_, rfl, rfl⟩, ?_, ?_⟩
    · exact d.members_pass (d.members_pass h htok) htok'
    · exact ((d.token_pays htok).trans (d.token_pays htok')).weaken (by decide)
    · exact fun _ _ => id
  · refine d.typing fun ty j hty => d.naming fun name pos k hname hpos => ?_
    refine d.glance (atSymbol_glances _) fun _ => d.ite (fun _ => ?_) fun _ => ?_
    · refine d.chain (functionRest_holds hty hname hpos _) fun f l hf =>
        d.answer ⟨⟨?_, rfl, rfl⟩, ?_, ?_⟩
      · exact d.method h hf
      · exact d.func_pays hf
      · exact fun _ _ => id
    · refine d.chain (variableRest_holds hty hname hpos _) fun v l hv =>
        d.answer ⟨⟨?_, rfl, rfl⟩, ?_, ?_⟩
      · exact d.member h hv.1
      · obtain ⟨tok, htok, -⟩ := hty
        obtain ⟨tok', htok', -⟩ := hname
        exact (((d.token_pays htok).trans (d.token_pays htok')).trans hv.2).weaken (by decide)
      · exact fun _ _ => id

theorem membersWith_holds : ∀ (fuel : Nat) (access : Access) {o : d.Index}
    {decl : AggregateDecl} {i : d.Index}, d.members o decl i → d.Enough fuel 1 i →
    d.Holds i (membersWith fuel access decl) fun found j =>
      d.members o found j ∧ SameHead found decl
  | 0, _, _, _, _, _, h => h.stall
  | fuel + 1, access, o, decl, i, hdecl, h => by
      rw [membersWith_unrolls]
      refine follow (R := fun _ found j => d.members o found j ∧ SameHead found decl)
        (membersRound_holds hdecl) fun next j hnext hj => ?_
      have hrest := membersWith_holds fuel next.1 hnext.1 (h.spend hj (by decide))
      exact d.weaken hrest fun found k hfound =>
        ⟨hfound.1, hfound.2.1.trans hnext.2.1, hfound.2.2.trans hnext.2.2⟩

/-- An aggregate, unless its name is taken: then the fault cites both places. -/
theorem aggregate_holds {tok : Token} (htok : d.token i tok j) (kind : AggregateKind) :
    d.Holds j (aggregate kind) (d.item i) := by
  refine d.naming fun name pos k hname hpos => d.get (fun _ _ => rfl) fun s hs => ?_
  split
  · rename_i earlier hearlier
    refine d.stop fun p hp => ?_
    obtain rfl | rfl : p = pos ∨ p = earlier.pos := by
      simpa [ParseError.positions] using hp
    · exact hpos
    · exact d.aggregate_placed hs hearlier
  · rename_i hnone
    refine d.wanting fun lcurly l hlcurly => d.get (fun _ _ => rfl) fun t ht => ?_
    refine d.chain (P := fun decl n => d.item i (.aggregate decl) n)
      (inScope_holds fun u hu => ?_) fun decl n hn => ?_
    · have henough : d.Enough (steps t.tokens.length) 1 (d.enter u.function l) :=
        (enough_steps ht (by decide)).enter
      refine d.weaken (membersWith_holds _ _ d.noMembers henough) fun decl m hdecl => ?_
      obtain ⟨hmembers, rfl, rfl⟩ := hdecl
      exact d.aggregate htok hname hs hnone hlcurly hu hmembers
    · exact d.accepting (fun tok' m htok' => d.answer (d.item_pass hn htok')) (d.answer hn)

/-- A function or a variable outside of functions, told apart by what is behind the
name. -/
theorem globalDeclaration_holds : d.Holds i globalDeclaration (d.item i) := by
  refine d.typing fun ty j hty => d.naming fun name pos k hname hpos => ?_
  refine d.glance (atSymbol_glances _) fun _ => d.ite (fun _ => ?_) fun _ => ?_
  · exact d.chain (functionRest_holds hty hname hpos _) fun f l hf =>
      d.answer (d.globalFunction hf)
  refine d.glance (atSymbol_glances _) fun _ => d.glance (atSymbol_glances _) fun _ => ?_
  refine d.ite (fun _ => ?_) fun _ => d.taking fun tok l htok => d.unexpected htok _
  exact d.chain (variableRest_holds hty hname hpos _) fun v l hv =>
    d.answer (d.globalVariable hv.1)

/-- What a declaration begins with decides what it is. -/
theorem topLevel_holds : d.Holds i topLevel (d.item i) := by
  refine d.glance (peek_glances (by decide)) fun _ => ?_
  split
  · exact d.taking fun tok j htok => aggregate_holds htok _
  · exact d.taking fun tok j htok => aggregate_holds htok _
  · exact d.taking fun tok j htok => d.stop_one rfl (d.token_placed htok)
  · refine d.glance atType_glances fun _ => d.ite (fun _ => globalDeclaration_holds) fun _ => ?_
    exact d.taking fun tok j htok => d.unexpected htok _

-- =============================================================== programs

/-- A program ends with its tokens, or has one more declaration, by which the
account grows. -/
theorem programRound_holds (h : d.whole i) :
    d.Holds i programRound (d.Met (fun _ p j => ∃ s, d.whole j ∧ d.Sees j s ∧ s.program = p)
      (fun _ => d.whole) i) := by
  refine d.glance (peek_glances (by decide)) fun _ => ?_
  split
  · exact d.get (fun _ _ => rfl) fun s hs => d.answer ⟨s, h, hs, rfl⟩
  · refine d.chain topLevel_holds fun st j hst => d.chain (d.grow h hst) fun _ k hk => ?_
    exact d.answer ⟨hk.1, ((d.item_pays hst).trans hk.2).weaken (by decide), fun _ _ => id⟩

theorem programWith_holds : ∀ (fuel : Nat) {i : d.Index}, d.whole i → d.Enough fuel 1 i →
    d.Holds i (programWith fuel) fun p j => ∃ s, d.whole j ∧ d.Sees j s ∧ s.program = p
  | 0, _, _, h => h.stall
  | fuel + 1, i, hwhole, h => by
      rw [programWith_unrolls]
      exact follow (R := fun _ p j => ∃ s, d.whole j ∧ d.Sees j s ∧ s.program = p)
        (programRound_holds hwhole) fun _ j hwhole hj =>
          programWith_holds fuel hwhole (h.spend hj (by decide))

/-- What is said of a whole program. -/
theorem program_holds (h : d.whole i) :
    d.Holds i program fun p j => ∃ s, d.whole j ∧ d.Sees j s ∧ s.program = p := by
  have heq : program = get >>= fun s => programWith (steps s.tokens.length) := rfl
  rw [heq]
  exact d.get (fun _ _ => rfl) fun s hs => programWith_holds _ h (enough_steps hs (by decide))

/-- A program that is read is the answer of the rule for programs. -/
theorem program_of_parse {tokens : List Token} {report report' : Report} {p : Program}
    (h : parse tokens report = (.ok p, report')) :
    ∃ s, program (initial tokens report) = .ok p s ∧ s.report = report' := by
  unfold parse outcome at h
  split at h
  · rename_i q s hprogram
    cases h
    exact ⟨s, hprogram, rfl⟩
  · cases h
  · cases h

end MiniC.Parser
