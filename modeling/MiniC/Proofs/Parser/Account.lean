/-
What is said of every rule of the grammar, put together from what is said of
single steps. The rules are taken apart once, for all accounts together: here
stands what an account has to bring along, and the traversal that uses it is the
next module.

# Judgements

A `Judgement` says of a step what it answers and where it leaves the parse. Where
a parse stands is an index: whatever the judgement keeps of the tokens that were
taken, of the names in sight, or of what was reported. `Holds i x P` is said of
a step that is taken at `i`; `P` relates its answer to the index behind it. Six
rules are all that is asked for: answers, sequences, looking at the state, faults,
taking a token, and the place of a token. From these follow the steps that only
look, ask for one token, name something, or fold something.

Most judgements are of one kind. An index stands for the states that a parse may
be in there, and a step leads from such a state to one of an index that goes with
its answer (`Leads`).

# Accounts

An `Account` is a judgement with an opinion on the constructs of the language: a
relation between the index in front of a construct, the construct, and the index
behind it. For each production of the grammar it gives the reason for which what
is said of the parts can be said of the whole. Whoever has no opinion on some
construct leaves it out, and is asked for no reason.

Two things are asked for besides. Scopes are entered and left (`enter`, `Leaves`),
and steps are paid for: an account that denies that the steps run out (`short`)
tells the tokens ahead at an index, and every construct that the grammar repeats
has to take one.

Consumed by the traversal, and by the accounts themselves.
-/
import MiniC.Proofs.Parser.Declaring
import MiniC.Proofs.Parser.Rounds

namespace MiniC

-- ================================================================ remarks

/-- What is noted of a condition. -/
def Expr.conditionRemarks (e : Expr) : List Diagnostic :=
  if e.isConstant then
    match e.foldsToZero with
    | .ok true => [⟨.note, "condition is always false", e.pos⟩]
    | .ok false => [⟨.note, "condition is always true", e.pos⟩]
    | .error _ => []
  else []

/-- The warning that a value loses its upper part. -/
def narrowingWarning (source target : Ty) (pos : Position) : Diagnostic :=
  ⟨.warning, "narrowing conversion from '" ++ source.spelling ++ "' to '" ++ target.spelling ++ "'",
    pos⟩

/-- Whether an initializer of a type is compared with it by size. -/
def Ty.isMeasured : Ty → Bool
  | .named _ | .string => false
  | _ => true

/-- What a value that a variable of a type starts with is warned about. -/
def narrowingRemarks (ty : Ty) (init : Expr) : List Diagnostic :=
  if init.isConstant && ty.isMeasured then
    match init.evaluate with
    | .ok lit => if ty.size < lit.ty.size then [narrowingWarning lit.ty ty init.pos] else []
    | .error _ => []
  else []

/-- The places that a failure of a parse cites. -/
def ParseError.positions : ParseError → List Position
  | .redefinition _ pos earlier => [pos, earlier]
  | e => [e.pos]

/-- Every fault names the place where it is reported. -/
theorem ParseError.pos_mem (e : ParseError) : e.pos ∈ e.positions := by
  cases e <;> exact List.mem_cons_self

/-- The state with another report. -/
def ParserState.reporting (s : ParserState) (r : Report) : ParserState := { s with report := r }

namespace Parser

variable {α β : Type}

-- ============================================================= judgements

/-- A way to judge steps: where a parse stands, what can be said of a step that is
taken there, and the rules that let it be said. Only steps that look at the state
without minding the report are judged by what they see. -/
structure Judgement where
  /-- What is known of a parse where it stands. -/
  Index : Type
  /-- The states that a parse may be in where so much is known of it. -/
  Sees : Index → ParserState → Prop
  /-- What a step that is taken at an index comes to. -/
  Holds : {α : Type} → Index → Parser α → (α → Index → Prop) → Prop
  /-- The places that faults may be reported at. -/
  Placed : Position → Prop := fun _ => True
  /-- What taking a token leads to. -/
  token : Index → Token → Index → Prop := fun _ _ _ => True
  answer {α i a} {P : α → Index → Prop} : P a i → Holds i (pure a) P
  chain {α β i} {x : Parser α} {f : α → Parser β} {P : α → Index → Prop}
    {Q : β → Index → Prop} : Holds i x P → (∀ a j, P a j → Holds j (f a) Q) →
    Holds i (x >>= f) Q
  look {α β i} {x : Parser α} {g : ParserState → α} {f : α → Parser β}
    {P : β → Index → Prop} : (∀ s, x s = .ok (g s) s) →
    (∀ s r, f (g (s.reporting r)) = f (g s)) → (∀ s, Sees i s → Holds i (f (g s)) P) →
    Holds i (x >>= f) P
  stop {α i e} {P : α → Index → Prop} : (∀ p ∈ ParseError.positions e, Placed p) →
    Holds i (fail e) P
  take (expected : String) (i : Index) : Holds i (Parser.take expected) (token i)
  token_placed {i tok j} : token i tok j → Placed tok.pos := by intros; trivial

/-- Whether an initializer of a variable of a type folds if it is marked
constant. -/
def InitFolds (ty : Ty) (init : Expr) : Prop :=
  (∀ name, ty ≠ .named name) → ty ≠ .string → init.isConstant = true →
    ∃ lit, init.evaluate = .ok lit

-- ================================================================ looking

/-- Whether a step answers from the tokens ahead alone, and does nothing. -/
def Glances (x : Parser α) : Prop := ∃ g : List Token → α, ∀ s, x s = .ok (g s.tokens) s

theorem Glances.pure (a : α) : Glances (pure a : Parser α) := ⟨fun _ => a, fun _ => rfl⟩

/-- Steps that only look follow each other without a change of state. -/
theorem Glances.bind {x : Parser α} {f : α → Parser β} (hx : Glances x)
    (hf : ∀ a, Glances (f a)) : Glances (x >>= f) := by
  obtain ⟨g, hg⟩ := hx
  choose g' hg' using hf
  exact ⟨fun tokens => g' (g tokens) tokens, fun s => (bind_eq (hg s)).trans (hg' _ s)⟩

/-- A token inside the window is looked at and stays. -/
theorem peek_glances {i : Nat} (hi : i < window) : Glances (peek i) := by
  refine ⟨fun tokens => tokens[i]?.map (·.lexeme), fun s => ?_⟩
  have hpeek : peekToken i s = .ok s.tokens[i]? s := if_pos hi
  exact bind_eq hpeek

theorem atSymbol_glances (symbol : Symbol) : Glances (atSymbol symbol) :=
  (peek_glances (by decide)).bind fun _ => .pure _

theorem atKeyword_glances (keyword : Keyword) : Glances (atKeyword keyword) :=
  (peek_glances (by decide)).bind fun _ => .pure _

theorem atAccessor_glances : Glances atAccessor := by
  refine (peek_glances (by decide)).bind fun lexeme => ?_
  split <;> exact .pure _

theorem atType_glances : Glances atType := by
  refine (peek_glances (by decide)).bind fun lexeme => ?_
  split
  · exact .pure _
  · refine (peek_glances (by decide)).bind fun next => ?_
    split <;> exact .pure _
  · exact .pure _

namespace Judgement

variable (d : Judgement) {i : d.Index} {x : Parser α} {P : α → d.Index → Prop}

-- ================================================================== rules

/-- What is said of an answer may be said of it in other words. -/
theorem weaken {Q : α → d.Index → Prop} (h : d.Holds i x P)
    (hpost : ∀ a j, P a j → Q a j) : d.Holds i x Q := by
  have hpure : d.Holds i (x >>= pure) Q := d.chain h fun a j ha => d.answer (hpost a j ha)
  rwa [bind_pure] at hpure

/-- A choice whose condition is decided here has what each side has. -/
theorem ite {c : Prop} [Decidable c] {y : Parser α} (hx : c → d.Holds i x P)
    (hy : ¬ c → d.Holds i y P) : d.Holds i (if c then x else y) P := by
  split
  · exact hx ‹_›
  · exact hy ‹_›

/-- An answer may be dressed up behind the step that gives it. -/
theorem map {f : α → β} {Q : β → d.Index → Prop}
    (h : d.Holds i x fun a j => Q (f a) j) : d.Holds i (f <$> x) Q := by
  rw [map_eq_pure_bind]
  exact d.chain h fun a j ha => d.answer ha

/-- Most faults cite one place. -/
theorem stop_one {e : ParseError} (hone : e.positions = [e.pos]) (h : d.Placed e.pos) :
    d.Holds i (fail e) P := by
  refine d.stop fun p hp => ?_
  rw [hone] at hp
  rwa [List.mem_singleton.1 hp]

/-- An unexpected token is a fault at its own place, and a token that was taken may
be cited. -/
theorem unexpected {h : d.Index} {tok : Token} (htok : d.token h tok i) (expected : String) :
    d.Holds i (Parser.unexpected expected tok) P :=
  d.stop_one rfl (d.token_placed htok)

/-- A step that only looks at the tokens may answer anything. -/
theorem glance {f : α → Parser β} {P : β → d.Index → Prop} (hx : Glances x)
    (hf : ∀ a, d.Holds i (f a) P) : d.Holds i (x >>= f) P := by
  obtain ⟨g, hg⟩ := hx
  exact d.look hg (fun _ _ => rfl) fun s _ => hf _

/-- What is done with the state that is found. -/
theorem get {f : ParserState → Parser α} (hblind : ∀ s r, f (s.reporting r) = f s)
    (hf : ∀ s, d.Sees i s → d.Holds i (f s) P) : d.Holds i (get >>= f) P :=
  d.look (g := id) (fun _ => rfl) hblind hf

-- ================================================================= tokens

/-- Whether a name was taken, which stood at a place. -/
def Named (i : d.Index) (name : String) (pos : Position) (j : d.Index) : Prop :=
  ∃ tok, d.token i tok j ∧ tok.lexeme = .ident name ∧ tok.pos = pos

/-- Whether a type was taken: its keyword, or the name of an aggregate of the
program. -/
def Typed (i : d.Index) (ty : Ty) (j : d.Index) : Prop :=
  ∃ tok, d.token i tok j ∧ ((∃ k, tok.lexeme = .keyword k ∧ k.ty? = some ty)
    ∨ ∃ name decl s, tok.lexeme = .ident name ∧ ty = .named name ∧ d.Sees j s
      ∧ s.program.aggregate? name = some decl)

variable {f : α → Parser β} {P : β → d.Index → Prop}

/-- Taking a token, and going on with it. -/
theorem taking {f : Token → Parser β} {expected : String}
    (hf : ∀ tok j, d.token i tok j → d.Holds j (f tok) P) :
    d.Holds i (Parser.take expected >>= f) P :=
  d.chain (d.take expected i) hf

/-- A symbol that is asked for is a token like any other, once it is there. -/
theorem wanting {f : Unit → Parser β} {symbol : Symbol}
    (hf : ∀ tok j, d.token i tok j → d.Holds j (f ()) P) :
    d.Holds i (want symbol >>= f) P := by
  have hwant : d.Holds i (want symbol) fun _ j => ∃ tok, d.token i tok j :=
    d.taking fun tok j htok =>
      d.ite (fun _ => d.answer ⟨tok, htok⟩) fun _ => d.unexpected htok _
  exact d.chain hwant fun _ j ⟨tok, htok⟩ => hf tok j htok

/-- A symbol that may be there is taken, or nothing happens. -/
theorem accepting {f : Bool → Parser β} {symbol : Symbol}
    (hyes : ∀ tok j, d.token i tok j → d.Holds j (f true) P) (hno : d.Holds i (f false) P) :
    d.Holds i (accept symbol >>= f) P := by
  unfold accept
  rw [bind_assoc]
  refine d.glance (atSymbol_glances symbol) fun b => ?_
  cases b with
  | true =>
      rw [if_pos rfl, bind_assoc]
      refine d.taking fun tok j htok => ?_
      rw [pure_bind]
      exact hyes tok j htok
  | false =>
      rw [if_neg Bool.false_ne_true, pure_bind]
      exact hno

/-- A name is a token whose place may be cited. -/
theorem naming {f : String × Position → Parser β}
    (hf : ∀ name pos j, d.Named i name pos j → d.Placed pos → d.Holds j (f (name, pos)) P) :
    d.Holds i (wantIdent >>= f) P := by
  have hname : d.Holds i wantIdent fun named j =>
      d.Named i named.1 named.2 j ∧ d.Placed named.2 := by
    refine d.taking fun tok j htok => ?_
    split
    · rename_i name hlexeme
      exact d.answer ⟨⟨tok, htok, hlexeme, rfl⟩, d.token_placed htok⟩
    · exact d.unexpected htok _
  exact d.chain hname fun named j h => hf named.1 named.2 j h.1 h.2

/-- A type is one token: a keyword, or the name of an aggregate that was declared. -/
theorem typing {f : Ty → Parser β} (hf : ∀ ty j, d.Typed i ty j → d.Holds j (f ty) P) :
    d.Holds i (wantType >>= f) P := by
  refine d.chain (P := d.Typed i) (d.taking fun tok j htok => ?_) hf
  split
  · rename_i k hlexeme
    split
    · rename_i ty hty
      exact d.answer ⟨tok, htok, .inl ⟨k, hlexeme, hty⟩⟩
    · exact d.unexpected htok _
  · rename_i name hlexeme
    refine d.get (fun _ _ => rfl) fun s hs => ?_
    split
    · rename_i decl hdecl
      exact d.answer ⟨tok, htok, .inr ⟨name, decl, s, hlexeme, rfl, hs, hdecl⟩⟩
    · exact d.stop_one rfl (d.token_placed htok)
  · exact d.unexpected htok _

-- ================================================================ folding

/-- A folding that does not end the parse has succeeded. -/
theorem folding {result : Except EvalError α} {pos : Position} (hpos : d.Placed pos)
    (hf : ∀ a, result = .ok a → d.Holds i (f a) P) :
    d.Holds i (folded result pos >>= f) P := by
  cases result with
  | ok a =>
      show d.Holds i (pure a >>= f) P
      rw [pure_bind]
      exact hf a rfl
  | error reason => exact d.chain (P := fun _ _ => False) (d.stop_one rfl hpos) nofun

/-- A condition is noted as its remarks say, if it folds as far as it is
constant. -/
theorem noteCondition_holds {e : Expr} {P : Unit → d.Index → Prop} (hplaced : d.Placed e.pos)
    (hsilent : e.conditionRemarks = [] → e.isConstant = false → P () i)
    (hspoken : ∀ note zero, e.conditionRemarks = [note] → note.pos = e.pos →
      e.foldsToZero = .ok zero → d.Holds i (Parser.note note) P) :
    d.Holds i (noteCondition e) P := by
  unfold noteCondition
  refine d.ite (fun hconst => d.folding hplaced fun zero hzero => ?_) fun hconst => ?_
  · refine hspoken _ zero ?_ rfl hzero
    unfold Expr.conditionRemarks
    rw [if_pos hconst, hzero]
    cases zero <;> rfl
  · exact d.answer (hsilent (if_neg hconst) (Bool.not_eq_true _ ▸ hconst))

/-- An initializer is warned about as its remarks say, and folds as far as it is
constant. -/
theorem checkNarrowing_holds {ty : Ty} {init : Expr} {P : Unit → d.Index → Prop}
    (hplaced : d.Placed init.pos)
    (hsilent : narrowingRemarks ty init = [] → InitFolds ty init → P () i)
    (hspoken : ∀ warning, narrowingRemarks ty init = [warning] → warning.pos = init.pos →
      InitFolds ty init → d.Holds i (Parser.note warning) P) :
    d.Holds i (checkNarrowing ty init) P := by
  have hcheck : checkNarrowing ty init = if init.isConstant && ty.isMeasured then do
      let lit ← folded init.evaluate init.pos
      if ty.size < lit.ty.size then Parser.note (narrowingWarning lit.ty ty init.pos) else pure ()
    else pure () := by
    cases ty <;> rfl
  rw [hcheck]
  refine d.ite (fun hmeasured => d.folding hplaced fun lit hlit => ?_) fun hno => ?_
  · have hfolds : InitFolds ty init := fun _ _ _ => ⟨lit, hlit⟩
    have hremarks : narrowingRemarks ty init
        = if ty.size < lit.ty.size then [narrowingWarning lit.ty ty init.pos] else [] := by
      unfold narrowingRemarks
      rw [if_pos hmeasured, hlit]
    refine d.ite (fun hlt => ?_) fun hle => d.answer (hsilent ?_ hfolds)
    · exact hspoken _ (hremarks.trans (if_pos hlt)) rfl hfolds
    · exact hremarks.trans (if_neg hle)
  · refine d.answer (hsilent (if_neg hno) fun hnamed hstring hconst => absurd ?_ hno)
    -- only strings and aggregates are not measured
    rw [hconst, Bool.true_and]
    cases ty with
    | named name => exact absurd rfl (hnamed name)
    | string => exact absurd rfl hstring
    | _ => rfl

-- ================================================================== names

/-- A name is an identifier or a member behind an accessor. -/
theorem identifier_holds {name : String} {pos : Position} {P : Expr → d.Index → Prop}
    (hplaced : d.Placed pos) (hident : P (.ident ⟨name, true, pos⟩) i)
    (hmember : ∀ accessor field pos' tok j l, d.token i tok j → d.Named j field pos' l →
      P (.member ⟨name, true, pos⟩ accessor ⟨field, false, pos'⟩ pos) l) :
    d.Holds i (identifier name pos) P := by
  have htype : d.Holds i (typeOfName name pos) fun _ j => j = i := by
    refine d.get (fun _ _ => rfl) fun s _ => ?_
    split
    · exact d.answer rfl
    · exact d.glance (atSymbol_glances _) fun _ =>
        d.ite (fun _ => d.answer rfl) fun _ => d.stop_one rfl hplaced
  refine d.chain htype fun base j hj => ?_
  subst hj
  refine d.glance atAccessor_glances fun b => d.ite (fun _ => ?_) fun _ => d.answer hident
  refine d.taking fun tok j htok => ?_
  dsimp only
  split
  · exact d.unexpected htok _
  · rename_i accessor _
    refine d.naming fun field pos' l hfield hpos' => ?_
    dsimp only
    split
    · refine d.get (fun _ _ => rfl) fun s _ => ?_
      split
      · exact d.ite (fun _ => d.answer (hmember accessor field pos' tok j l htok hfield))
          fun _ => d.stop_one rfl hpos'
      · exact d.stop_one rfl hplaced
    · exact d.stop_one rfl hplaced

end Judgement

-- ================================================================== states

section Leads

variable {ι : Type} {sees : ι → ParserState → Prop} {fails : Stop → ParserState → Prop} {i : ι}
  {x : Parser α} {P : α → ι → Prop}

/-- Whether a step that is taken in a state that may be met at an index comes to one
that goes with its answer, or to one that goes with its failure. -/
structure Leads (sees : ι → ParserState → Prop) (fails : Stop → ParserState → Prop) (i : ι)
    (x : Parser α) (P : α → ι → Prop) : Prop where
  comes : ∀ s, sees i s → match x s with
    | .ok a t => ∃ j, sees j t ∧ P a j
    | .error e t => fails e t

/-- A step that answers leaves a state that goes with its answer. -/
theorem Leads.ok (h : Leads sees fails i x P) {s t : ParserState} {a : α} (hs : sees i s)
    (hx : x s = .ok a t) : ∃ j, sees j t ∧ P a j := by
  have hcomes := h.comes s hs
  rw [hx] at hcomes
  exact hcomes

/-- A step that fails does so where the account lets it. -/
theorem Leads.error (h : Leads sees fails i x P) {s t : ParserState} {e : Stop} (hs : sees i s)
    (hx : x s = .error e t) : fails e t := by
  have hcomes := h.comes s hs
  rw [hx] at hcomes
  exact hcomes

theorem Leads.answer {a : α} (h : P a i) : Leads sees fails i (pure a) P :=
  ⟨fun _ hs => ⟨i, hs, h⟩⟩

/-- Steps that follow each other meet at the index between them. -/
theorem Leads.chain {f : α → Parser β} {Q : β → ι → Prop} (hx : Leads sees fails i x P)
    (hf : ∀ a j, P a j → Leads sees fails j (f a) Q) : Leads sees fails i (x >>= f) Q := by
  refine ⟨fun s hs => ?_⟩
  show match EStateM.bind x f s with
    | .ok b t => ∃ j, sees j t ∧ Q b j
    | .error e t => fails e t
  unfold EStateM.bind
  cases hr : x s with
  | ok a t =>
      obtain ⟨j, ht, ha⟩ := hx.ok hs hr
      exact (hf a j ha).comes t ht
  | error e t => exact hx.error hs hr

/-- Looking at the state learns what holds at the index of every state seen there. -/
theorem Leads.look {g : ParserState → α} {f : α → Parser β} {P : β → ι → Prop}
    (hx : ∀ s, x s = .ok (g s) s) (hf : ∀ s, sees i s → Leads sees fails i (f (g s)) P) :
    Leads sees fails i (x >>= f) P := by
  refine ⟨fun s hs => ?_⟩
  rw [bind_eq (hx s)]
  exact (hf s hs).comes s hs

theorem Leads.stop {e : Stop} (h : ∀ s, sees i s → fails e s) :
    Leads sees fails i (throw e : Parser α) P := ⟨h⟩

/-- A change of the state leads to an index that sees the changed one. -/
theorem Leads.modify {f : ParserState → ParserState} {P : PUnit → ι → Prop}
    (h : ∀ s, sees i s → ∃ j, sees j (f s) ∧ P ⟨⟩ j) :
    Leads sees fails i (modify f : Parser PUnit) P := ⟨h⟩

/-- A token is taken from the front, and at the end of the tokens that is a fault. -/
theorem Leads.take {expected : String} {P : Token → ι → Prop}
    (htake : ∀ s tok rest, sees i s → s.tokens = tok :: rest →
      ∃ j, sees j { s with tokens := rest, last := tok.pos } ∧ P tok j)
    (hend : ∀ s, sees i s → s.tokens = [] → fails (.fault (.unexpectedEof expected s.last)) s) :
    Leads sees fails i (Parser.take expected) P := by
  refine ⟨fun s hs => ?_⟩
  cases htokens : s.tokens with
  | nil =>
      rw [take_stops expected htokens]
      exact hend s hs htokens
  | cons tok rest =>
      rw [take_eq htokens]
      have hpast : s.past [tok] = { s with tokens := rest, last := tok.pos } := by
        show ({ s with tokens := s.tokens.drop 1, last := tok.pos } : ParserState) = _
        rw [htokens]
        rfl
      rw [hpast]
      exact htake s tok rest hs htokens

/-- A name is brought into sight, or was there already and is reported. -/
theorem Leads.declare {name : String} {ty : Ty} {pos : Position} {P : Unit → ι → Prop}
    (hnew : ∀ s table, sees i s → s.table.insert name ⟨ty, pos⟩ = .ok table →
      ∃ j, sees j { s with table } ∧ P () j)
    (hold : ∀ s earlier, sees i s → s.table.insert name ⟨ty, pos⟩ = .error earlier →
      fails (.fault (.redefinition name pos earlier.pos)) s) :
    Leads sees fails i (Parser.declare name ty pos) P := by
  refine ⟨fun s hs => ?_⟩
  cases hinsert : s.table.insert name ⟨ty, pos⟩ with
  | ok table =>
      rw [declare_eq hinsert]
      exact hnew s table hs hinsert
  | error earlier =>
      rw [declare_stops hinsert]
      exact hold s earlier hs hinsert

/-- A scope is left for a state that may be met if that is so of all states in it. -/
theorem Leads.within {f : Option (String × Ty)} {inside : ι} {leaves : ι → ι → Prop}
    (h : Leads sees fails inside x fun a k => ∃ j, leaves k j ∧ P a j)
    (henter : ∀ s, sees i s → sees inside { s with table := s.table.push, function := f })
    (hleave : ∀ s k t j table, sees i s → sees k t → leaves k j → t.table.pop? = some table →
      sees j { t with table, function := s.function })
    (hfail : ∀ s e t table, sees i s → fails e t → t.table.pop? = some table →
      fails e { t with table, function := s.function })
    (hlost : ∀ s t, sees i s → (∃ k, sees k t) ∨ (∃ e, fails e t) → t.table.pop? = none →
      fails .stuck t) :
    Leads sees fails i (Parser.within f x) P := by
  refine ⟨fun s hs => ?_⟩
  have hinside := henter s hs
  cases hr : x { s with table := s.table.push, function := f } with
  | ok a t =>
      obtain ⟨k, ht, j, hleaves, ha⟩ := h.ok hinside hr
      rw [within_answers hr]
      cases hpop : t.table.pop? with
      | none => exact hlost s t hs (.inl ⟨k, ht⟩) hpop
      | some table => exact ⟨j, hleave s k t j table hs ht hleaves hpop, ha⟩
  | error e t =>
      have hend := h.error hinside hr
      rw [within_stops hr]
      cases hpop : t.table.pop? with
      | none => exact hlost s t hs (.inr ⟨e, hend⟩) hpop
      | some table => exact hfail s e t table hs hend hpop

end Leads

-- ================================================================ accounts

/-- Whether tokens were taken, so many at least, unless it is free to take none. -/
def Paid (free : Prop) (least : Nat) (before after : List Token) : Prop :=
  free ∨ after.length + least ≤ before.length

/-- A judgement with an opinion on the constructs of the language, and for each
production the reason for which it goes over from the parts to the whole. -/
structure Account extends Judgement where
  /-- Whether it may be that the steps run out. -/
  short : Prop := True
  stall {α i} {P : α → Index → Prop} : short → Holds i stuck P
  /-- Whether tokens are not counted. -/
  free : Prop := True
  short_of_free : free → short := by intros; trivial
  /-- The tokens ahead, as far as they are counted. -/
  ahead : Index → List Token := fun _ => []
  ahead_sees {i s} : Sees i s → free ∨ ahead i = s.tokens := by intros; exact .inl trivial
  token_pays {i tok j} : token i tok j → Paid free 1 (ahead i) (ahead j) := by
    intros; exact .inl trivial
  /-- The last token that was taken stands for the end of the tokens. -/
  last_placed {i s} : Sees i s → s.tokens = [] → Placed s.last := by intros; trivial
  /-- An aggregate of the program stands where it was declared. -/
  aggregate_placed {i s name decl} : Sees i s → s.program.aggregate? name = some decl →
    Placed decl.pos := by intros; trivial
  -- scopes
  /-- What bringing a name into sight leads to. -/
  binds : Index → String → Ty → Index → Prop := fun _ _ _ _ => True
  declare {i name ty pos} : Placed pos →
    Holds i (Parser.declare name ty pos) fun _ j => binds i name ty j
  binds_pays {i name ty j} : binds i name ty j → Paid free 0 (ahead i) (ahead j) := by
    intros; exact .inl trivial
  /-- The index in a new scope, inside a function. -/
  enter : Option (String × Ty) → Index → Index
  enter_ahead {f i} : ahead (enter f i) = ahead i := by intros; rfl
  /-- The scope entered at an index, having come to another, is left for a third. -/
  Leaves : Index → Index → Index → Prop
  within {α f i} {x : Parser α} {P : α → Index → Prop} :
    Holds (enter f i) x (fun a k => ∃ j, Leaves i k j ∧ P a j) → Holds i (Parser.within f x) P
  -- expressions
  /-- What is said of an expression. -/
  expr : Index → Expr → Index → Prop := fun _ _ _ => True
  expr_placed {i e j} : expr i e j → Placed e.pos := by intros; trivial
  expr_pays {i e j} : expr i e j → Paid free 1 (ahead i) (ahead j) := by
    intros; exact .inl trivial
  string {i tok text j} : token i tok j → tok.lexeme = .literal .string text →
    expr i (.string ⟨text, text.utf8ByteSize, tok.pos⟩) j := by intros; trivial
  number {i tok kind text j} : token i tok j → tok.lexeme = .literal kind text →
    kind ≠ .string → expr i (.number ⟨kind.ty, text, tok.pos⟩) j := by intros; trivial
  name {i tok name j} : token i tok j → tok.lexeme = .ident name →
    Holds j (identifier name tok.pos) (expr i)
  enclosed {i lparen j e k rparen l} : token i lparen j → expr j e k → token k rparen l →
    expr i e l := by intros; trivial
  negated {i tok j lit} {minus : NumberLiteral} {k} : token i tok j → expr j (.number lit) k →
    lit.negate = .ok minus → expr i (.number { minus with pos := tok.pos }) k := by
    intros; trivial
  prefixed {i tok j op e k} : token i tok j → expr j e k → op.Allows e →
    expr i (.unary op .before e tok.pos) k := by intros; trivial
  suffixed {i e j op tok k} : expr i e j → token j tok k → op.Allows e →
    expr i (.unary op .after e tok.pos) k := by intros; trivial
  combined {i lhs j tok k rhs l op} : expr i lhs j → token j tok k → expr k rhs l →
    (op.isAssignment = true → lhs.isAssignable = true) →
    expr i (.combine op lhs rhs tok.pos) l := by intros; trivial
  -- variables
  /-- Of what a variable starts with, if it is given something. -/
  init : Index → Ty → Option Expr → Index → Prop := fun _ _ _ _ => True
  init_pays {i ty e j} : init i ty e j → Paid free 0 (ahead i) (ahead j) := by
    intros; exact .inl trivial
  bare {i ty} : init i ty none i := by intros; trivial
  initial {i equals j e k ty} : token i equals j → expr j e k →
    Holds k (checkNarrowing ty e) fun _ l => init i ty (some e) l
  /-- Of a variable that was declared. -/
  decl : Index → VariableDecl → Index → Prop := fun _ _ _ => True
  variableDecl {g ty h name pos i e j semicolon k l access} : toJudgement.Typed g ty h →
    toJudgement.Named h name pos i → init i ty e j → token j semicolon k → binds k name ty l →
    decl g ⟨ty, name, e, access, pos⟩ l := by intros; trivial
  -- statements
  /-- Of a condition, noted. -/
  cond : Index → Expr → Index → Prop := fun _ _ _ => True
  cond_pays {i e j} : cond i e j → Paid free 1 (ahead i) (ahead j) := by
    intros; exact .inl trivial
  condition {i lparen j e k rparen l} : token i lparen j → expr j e k → token k rparen l →
    Holds l (noteCondition e) fun _ m => cond i e m
  /-- Of a statement. -/
  stmt : Index → Stmt → Index → Prop := fun _ _ _ => True
  stmt_pays {i st j} : stmt i st j → Paid free 1 (ahead i) (ahead j) := by
    intros; exact .inl trivial
  /-- Of statements up to the end of a block. -/
  block : Index → List Stmt → Index → Prop := fun _ _ _ => True
  /-- Of statements in a scope of their own. -/
  inner : Index → List Stmt → Index → Prop := fun _ _ _ => True
  inner_pays {i body j} : inner i body j → Paid free 0 (ahead i) (ahead j) := by
    intros; exact .inl trivial
  /-- Of an arm of an if chain, and the chain behind it. -/
  arm : Index → Arm → Index → Prop := fun _ _ _ => True
  introduces {i v j} : decl i v j → stmt i (.variable v) j := by intros; trivial
  returnsNone {i tok j semicolon k s} : token i tok j → token j semicolon k → Sees k s →
    (∀ name ty, s.function = some (name, ty) → ty = .void) →
    stmt i (.ret none tok.pos) k := by intros; trivial
  returnsSome {i tok j e k semicolon l s} : token i tok j → expr j e k → token k semicolon l →
    Sees l s → (∀ name ty, s.function = some (name, ty) → ty ≠ .void) →
    stmt i (.ret (some e) tok.pos) l := by intros; trivial
  effect {i e j semicolon k} : expr i e j → token j semicolon k → stmt i (.expr e) k := by
    intros; trivial
  nested {i lcurly j body k} : token i lcurly j → inner j body k → stmt i (.block body) k := by
    intros; trivial
  branch {i tok j a k} : token i tok j → arm j a k → stmt i (.branch a) k := by intros; trivial
  loop {i tok j e k body l} : token i tok j → cond j e k → inner k body l →
    stmt i (.loop e body tok.pos) l := by intros; trivial
  nil {i} : block i [] i := by intros; trivial
  cons {i st j rest k} : stmt i st j → block j rest k → block i (st :: rest) k := by
    intros; trivial
  brace {i tok j body k} : token i tok j → block j body k → block i body k := by intros; trivial
  scope {i s body k} : Sees i s → block (enter s.function i) body k →
    ∃ j, Leaves i k j ∧ inner i body j
  oneArmed {i e j body k pos} : cond i e j → inner j body k →
    arm i ⟨e, body, .none, pos⟩ k := by intros; trivial
  twoArmed {i e j body k tok l other m pos} : cond i e j → inner j body k → token k tok l →
    inner l other m → arm i ⟨e, body, .block other, pos⟩ m := by intros; trivial
  chained {i e j body k tok l tok' m next n pos} : cond i e j → inner j body k →
    token k tok l → token l tok' m → arm m next n → arm i ⟨e, body, .elseIf next, pos⟩ n := by
    intros; trivial
  -- declarations
  /-- Of the parameters that were read so far. -/
  params : Index → List VariableDecl → Index → Prop := fun _ _ _ => True
  noParams {i} : params i [] i := by intros; trivial
  param {i ps j ty k name pos l e m n} : params i ps j → toJudgement.Typed j ty k →
    toJudgement.Named k name pos l → init l ty e m →
    (e = none → ∀ other ∈ ps, other.init = none) → binds m name ty n →
    params i (ps ++ [⟨ty, name, e, .block, pos⟩]) n := by intros; trivial
  params_pass {i ps j tok k} : params i ps j → token j tok k → params i ps k := by
    intros; trivial
  /-- Of a function. -/
  func : Index → FunctionDecl → Index → Prop := fun _ _ _ => True
  func_pays {i f j} : func i f j → Paid free 1 (ahead i) (ahead j) := by
    intros; exact .inl trivial
  function {g ty h name pos i j lparen k ps l lcurly m body n access} :
    toJudgement.Typed g ty h → toJudgement.Named h name pos i → binds i name ty j →
    token (enter (some (name, ty)) j) lparen k → params k ps l → token l lcurly m →
    block m body n → ∃ o, Leaves j n o ∧ func g ⟨ty, name, ps, body, access, pos⟩ o
  /-- Of an aggregate with the members and methods that were read so far. -/
  members : Index → AggregateDecl → Index → Prop := fun _ _ _ => True
  noMembers {i kind name pos} : members i ⟨kind, name, [], [], pos⟩ i := by intros; trivial
  member {i a j v k} : members i a j → decl j v k →
    members i { a with members := a.members ++ [v] } k := by intros; trivial
  method {i a j f k} : members i a j → func j f k →
    members i { a with methods := a.methods ++ [f] } k := by intros; trivial
  members_pass {i a j tok k} : members i a j → token j tok k → members i a k := by
    intros; trivial
  /-- Of a declaration of a program. -/
  item : Index → Stmt → Index → Prop := fun _ _ _ => True
  item_pays {i st j} : item i st j → Paid free 1 (ahead i) (ahead j) := by
    intros; exact .inl trivial
  globalVariable {i v j} : decl i v j → item i (.variable v) j := by intros; trivial
  globalFunction {i f j} : func i f j → item i (.function f) j := by intros; trivial
  aggregate {i tok j} {a : AggregateDecl} {k s lcurly l t m} : token i tok j →
    toJudgement.Named j a.name a.pos k → Sees k s → s.program.aggregate? a.name = none →
    token k lcurly l → Sees l t → members (enter t.function l) a m →
    ∃ n, Leaves l m n ∧ item i (.aggregate a) n
  item_pass {i st j tok k} : item i st j → token j tok k → item i st k := by intros; trivial
  /-- What holds between two declarations of a program. -/
  whole : Index → Prop := fun _ => True
  grow {i st j} : whole i → item i st j →
    Holds j (modify fun s => { s with program := ⟨s.program.body ++ [st]⟩ }) fun _ k =>
      whole k ∧ Paid free 0 (ahead j) (ahead k)

end Parser

end MiniC
