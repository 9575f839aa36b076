/-
What a parsing step does to the tokens ahead and to the scope it stands in,
however it ends. `Advances` relates two states of a parse: tokens were taken
from the front, so many of them at least, and the scope that was current is so
again, with the scopes around it as they were. `Ends` says of a step that it
comes to such a state whether it answers or fails, and that the parser itself is
at fault only for want of steps.

# Scopes

A parse keeps its scopes in a tree that only grows, with a current one. That a
scope is current again is therefore not enough: its parent has to be the one it
was, or leaving it would lead elsewhere. `Level` says that the tree has grown and
that what was there is unchanged. A scope that was entered can be left from any
state on its level (`Level.pop`), and this is why no rule leaves the global scope.

# The account

Every construct is judged by the tokens between the state in front of it and the one
behind it, at least one for all that the grammar repeats (`progress`). Tokens are
counted here, so that the traversal can pay for its steps with them: a rule that is
given four steps for each token ahead does not run short of them. The account is
taken twice, with and without leave to run short: what a rule consumes holds
either way, and that it is never short only where the steps suffice.

Consumed by the proof that the parser always answers.
-/
import MiniC.Proofs.Parser.Traversal

namespace MiniC

-- ================================================================ scopes

/-- Whether the same scope is current in two tables and the scopes of the first
are where they were in the second. -/
structure SymbolTable.Level (t u : SymbolTable) : Prop where
  current : u.current = t.current
  size : t.parents.size ≤ u.parents.size
  parents : ∀ scope < t.parents.size, u.parent? scope = t.parent? scope

namespace SymbolTable

variable {t u v : SymbolTable}

theorem Level.refl (t : SymbolTable) : t.Level t := ⟨rfl, Nat.le_refl _, fun _ _ => rfl⟩

/-- The tree grows from level to level. -/
theorem Level.trans (h : t.Level u) (h' : u.Level v) : t.Level v where
  current := h'.current.trans h.current
  size := Nat.le_trans h.size h'.size
  parents scope hscope :=
    (h'.parents scope (Nat.lt_of_lt_of_le hscope h.size)).trans (h.parents scope hscope)

/-- A name that is brought into sight leaves the scopes where they are. -/
theorem Level.insert {name : String} {b : Binding} (h : t.insert name b = .ok u) : t.Level u := by
  unfold SymbolTable.insert at h
  split at h
  · cases h
  · cases h
    exact ⟨rfl, Nat.le_refl _, fun _ _ => rfl⟩

/-- What was opened and left level is closed again. -/
theorem Level.pop (h : t.push.Level u) : ∃ v, u.pop? = some v ∧ t.Level v := by
  have hsize : t.push.parents.size = t.parents.size + 1 := Array.size_push _
  have hbound : t.push.current < t.push.parents.size := by
    rw [hsize]
    exact Nat.lt_succ_self _
  have hparent : u.parent? u.current = some t.current := by
    rw [h.current, h.parents _ hbound]
    exact t.parent?_push_new
  refine ⟨{ u with current := t.current }, ?_, rfl, ?_, fun scope hscope => ?_⟩
  · unfold pop?
    rw [hparent]
    rfl
  · have hle := h.size
    rw [hsize] at hle
    exact Nat.le_of_succ_le hle
  · exact (h.parents scope (by omega)).trans (t.parent?_push_old hscope)

end SymbolTable

namespace Parser

variable {α β : Type} {s t u : ParserState}

-- ============================================================== advancing

/-- Whether so many tokens at least were taken from one state to another, and
the scope is the same. -/
structure Advances (least : Nat) (s t : ParserState) : Prop where
  tokens : ∃ taken, s.tokens = taken ++ t.tokens ∧ least ≤ taken.length
  level : s.table.Level t.table

theorem Advances.refl (s : ParserState) : Advances 0 s s :=
  ⟨⟨[], rfl, Nat.zero_le _⟩, .refl _⟩

/-- Tokens taken one after the other are taken together. -/
theorem Advances.trans {k m : Nat} (h : Advances k s t) (h' : Advances m t u) :
    Advances (k + m) s u := by
  obtain ⟨⟨taken, htaken, hk⟩, hlevel⟩ := h
  obtain ⟨⟨taken', htaken', hm⟩, hlevel'⟩ := h'
  refine ⟨⟨taken ++ taken', ?_, ?_⟩, hlevel.trans hlevel'⟩
  · rw [htaken, htaken', List.append_assoc]
  · rw [List.length_append]
    omega

/-- Whoever took more took less. -/
theorem Advances.weaken {k m : Nat} (h : Advances k s t) (hle : m ≤ k) : Advances m s t := by
  obtain ⟨⟨taken, htaken, hk⟩, hlevel⟩ := h
  exact ⟨⟨taken, htaken, Nat.le_trans hle hk⟩, hlevel⟩

/-- Of the tokens ahead so many are gone. -/
theorem Advances.length {k : Nat} (h : Advances k s t) :
    t.tokens.length + k ≤ s.tokens.length := by
  obtain ⟨⟨taken, htaken, hk⟩, -⟩ := h
  rw [htaken, List.length_append]
  omega

/-- The tokens that were taken pay for the steps behind. -/
theorem Advances.paid {k : Nat} (h : Advances k s t) : Paid False k s.tokens t.tokens :=
  .inr h.length

/-- What was advanced on is counted from farther in front. -/
theorem Advances.after {k m : Nat} (h : Advances k s t) (h' : Advances m t u) : Advances k s u :=
  (h.trans h').weaken (Nat.le_add_right k m)

/-- What the first step took was taken by both. -/
theorem Advances.before {k m : Nat} (h : Advances k s t) (h' : Advances m t u) : Advances m s u :=
  (h.trans h').weaken (Nat.le_add_left m k)

-- ================================================================= ending

/-- Whether a step that is taken in a state ends in one that advances on it, with an
answer as it should be, and is the fault of the parser itself only if that was `short`
of steps. -/
structure Ends (short : Prop) (s : ParserState) (x : Parser α) (P : α → ParserState → Prop) :
    Prop where
  comes : match x s with
    | .ok a t => Advances 0 s t ∧ P a t
    | .error e t => Advances 0 s t ∧ (e = .stuck → short)

variable {short : Prop} {x : Parser α} {P : α → ParserState → Prop}

/-- An answer stands behind tokens that were taken, on the level of the start. -/
theorem Ends.ok (h : Ends short s x P) {a : α} (hx : x s = .ok a t) : Advances 0 s t ∧ P a t := by
  have hcomes := h.comes
  rw [hx] at hcomes
  exact hcomes

/-- So does a failure, and it is not the parser's own unless steps were short. -/
theorem Ends.error (h : Ends short s x P) {e : Stop} (hx : x s = .error e t) :
    Advances 0 s t ∧ (e = .stuck → short) := by
  have hcomes := h.comes
  rw [hx] at hcomes
  exact hcomes

/-- However a step ends, the current scope is the one it started with. -/
theorem Ends.level (h : Ends short s x P) :
    (∀ a, x s = .ok a t → s.table.Level t.table)
      ∧ ∀ e, x s = .error e t → s.table.Level t.table :=
  ⟨fun _ hx => (h.ok hx).1.level, fun _ hx => (h.error hx).1.level⟩

/-- Where steps are not short the parser itself is never at fault. -/
theorem Ends.not_stuck (h : Ends False s x P) : x s ≠ .error .stuck t :=
  fun hx => (h.error hx).2 rfl

theorem Ends.answer {a : α} (h : P a s) : Ends short s (pure a) P := ⟨.refl s, h⟩

/-- A step that fails has taken nothing. -/
theorem Ends.stop {e : Stop} (h : e = .stuck → short) : Ends short s (throw e : Parser α) P :=
  ⟨.refl s, h⟩

/-- A sequence ends where its second part does, or its first if that fails. -/
theorem Ends.chain {f : α → Parser β} {Q : β → ParserState → Prop} (hx : Ends short s x P)
    (hf : ∀ a t, P a t → Ends short t (f a) Q) : Ends short s (x >>= f) Q := by
  refine ⟨?_⟩
  show match EStateM.bind x f s with
    | .ok b u => Advances 0 s u ∧ Q b u
    | .error e u => Advances 0 s u ∧ (e = .stuck → short)
  unfold EStateM.bind
  cases hr : x s with
  | error e t => exact hx.error hr
  | ok a t =>
      obtain ⟨ht, ha⟩ := hx.ok hr
      have hrest := hf a t ha
      dsimp only
      cases hr' : f a t with
      | ok b u => exact (hrest.ok hr').imp_left ht.before
      | error e u => exact (hrest.error hr').imp_left ht.before

/-- Looking at the state takes nothing. -/
theorem Ends.look {g : ParserState → α} {f : α → Parser β} {Q : β → ParserState → Prop}
    (hx : ∀ s, x s = .ok (g s) s) (hf : Ends short s (f (g s)) Q) : Ends short s (x >>= f) Q := by
  refine ⟨?_⟩
  rw [bind_eq (hx s)]
  exact hf.comes

/-- Taking takes one token, or fails at the end of them. -/
theorem take_ends (expected : String) :
    Ends short s (take expected) fun _ t => Advances 1 s t := by
  refine .look (fun _ => rfl) ?_
  cases htokens : s.tokens with
  | nil => exact .stop nofun
  | cons token rest =>
      have htaken : Advances 1 s { s with tokens := rest, last := token.pos } :=
        ⟨⟨[token], htokens, Nat.le_refl _⟩, .refl _⟩
      exact ⟨htaken.weaken (Nat.zero_le 1), htaken⟩

/-- A note takes nothing. -/
theorem note_ends (d : Diagnostic) {P : Unit → ParserState → Prop}
    (h : ∀ t, Advances 0 s t → P () t) : Ends short s (note d) P := by
  have hnoted : Advances 0 s { s with report := s.report.push d } :=
    ⟨⟨[], rfl, Nat.le_refl _⟩, .refl _⟩
  exact ⟨hnoted, h _ hnoted⟩

/-- A declaration takes nothing and stays on its level. -/
theorem declare_ends (name : String) (ty : Ty) (pos : Position) :
    Ends short s (declare name ty pos) fun _ t => Advances 0 s t := by
  refine .look (fun _ => rfl) ?_
  split
  · rename_i table htable
    have hdeclared : Advances 0 s { s with table } :=
      ⟨⟨[], rfl, Nat.le_refl _⟩, .insert htable⟩
    exact ⟨hdeclared, hdeclared⟩
  · exact .stop nofun

/-- The state in a new scope, inside a function. -/
def entered (f : Option (String × Ty)) (s : ParserState) : ParserState :=
  { s with table := s.table.push, function := f }

/-- What was opened and left level is closed again. -/
theorem Advances.leaves {f : Option (String × Ty)} {k : Nat} (h : Advances k (entered f s) t) :
    ∃ u, leave s.function t = some u ∧ Advances k s u := by
  obtain ⟨table, hpop, hlevel⟩ := h.level.pop
  refine ⟨{ t with table, function := s.function }, ?_, h.tokens, hlevel⟩
  unfold leave
  rw [hpop]
  rfl

/-- The scope opened for a step is closed behind it. -/
theorem within_ends {f : Option (String × Ty)}
    (h : Ends short (entered f s) x fun a t => ∃ u, leave s.function t = some u ∧ P a u) :
    Ends short s (within f x) P := by
  refine ⟨?_⟩
  unfold within
  cases hr : x (entered f s) with
  | ok a t =>
      obtain ⟨ht, u, hu, ha⟩ := h.ok hr
      obtain ⟨u', hu', hadvances⟩ := ht.leaves
      cases hu.symm.trans hu'
      rw [show x { s with table := s.table.push, function := f } = .ok a t from hr]
      dsimp only
      rw [hu]
      exact ⟨hadvances, ha⟩
  | error e t =>
      obtain ⟨ht, hshort⟩ := h.error hr
      obtain ⟨u, hu, hadvances⟩ := ht.leaves
      rw [show x { s with table := s.table.push, function := f } = .error e t from hr]
      dsimp only
      rw [hu]
      exact ⟨hadvances, hshort⟩

-- ============================================================ the account

/-- Judged by the tokens that a step takes. -/
def advancing (short : Prop) : Judgement where
  Index := ParserState
  Sees s t := t = s
  Holds := Ends short
  token s _ t := Advances 1 s t
  answer := .answer
  chain := .chain
  look hx _ hf := .look hx (hf _ rfl)
  stop _ := Ends.stop nofun
  take expected _ := take_ends expected

/-- A name takes a token. -/
theorem Advances.of_named {name : String} {pos : Position}
    (h : (advancing short).Named s name pos t) : Advances 1 s t := by
  obtain ⟨_, htok, -⟩ := h
  exact htok

/-- A type takes a token. -/
theorem Advances.of_typed {ty : Ty} (h : (advancing short).Typed s ty t) : Advances 1 s t := by
  obtain ⟨_, htok, -⟩ := h
  exact htok

/-- What the grammar repeats takes a token. -/
def progress (short : Prop) : Account where
  toJudgement := advancing short
  short := short
  stall h := Ends.stop fun _ => h
  free := False
  short_of_free := False.elim
  ahead s := s.tokens
  ahead_sees h := .inr (h ▸ rfl)
  token_pays h := h.paid
  binds s _ _ t := Advances 0 s t
  declare _ := declare_ends _ _ _
  binds_pays h := h.paid
  enter := entered
  Leaves s t u := leave s.function t = some u
  within h := within_ends h
  expr s _ t := Advances 1 s t
  expr_pays h := h.paid
  string h _ := h
  number h _ _ := h
  name h _ := (advancing short).identifier_holds trivial h
    fun _ _ _ _ _ _ hdot hfield => (h.after hdot).after (.of_named hfield)
  enclosed h he h' := (h.after he).after h'
  negated h he _ := h.after he
  prefixed h he _ := h.after he
  suffixed he h _ := he.after h
  combined hl h hr _ := (hl.after h).after hr
  init s _ _ t := Advances 0 s t
  init_pays h := h.paid
  bare := .refl _
  initial h he := (advancing short).checkNarrowing_holds trivial
    (fun _ _ => (h.after he).weaken (Nat.zero_le 1))
    fun _ _ _ _ => note_ends _ fun _ hnoted => (h.trans he).before hnoted
  decl s _ t := Advances 1 s t
  variableDecl hty hname hinit h hbinds :=
    (((Advances.of_typed hty).after (.of_named hname)).after hinit).after (h.after hbinds)
  cond s _ t := Advances 1 s t
  cond_pays h := h.paid
  condition h he h' := (advancing short).noteCondition_holds trivial
    (fun _ _ => (h.after he).after h')
    fun _ _ _ _ _ => note_ends _ fun _ hnoted => ((h.after he).after h').after hnoted
  stmt s _ t := Advances 1 s t
  stmt_pays h := h.paid
  block s _ t := Advances 0 s t
  inner s _ t := Advances 0 s t
  inner_pays h := h.paid
  arm s _ t := Advances 0 s t
  introduces h := h
  returnsNone h h' _ _ := h.after h'
  returnsSome h he h' _ _ := (h.after he).after h'
  effect he h := he.after h
  nested h hbody := h.after hbody
  branch h ha := h.after ha
  loop h he hbody := (h.after he).after hbody
  nil := .refl _
  cons hfirst hrest := hfirst.before hrest
  brace h hbody := h.before hbody
  scope hs hbody := by
    obtain ⟨u, hu, hadvances⟩ := hbody.leaves
    exact ⟨u, hu, hadvances⟩
  oneArmed he hbody := he.before hbody
  twoArmed he hbody h hother := ((he.after hbody).after h).before hother
  chained he hbody h h' hnext := (((he.after hbody).after h).after h').before hnext
  params s _ t := Advances 0 s t
  noParams := .refl _
  param hps hty hname hinit _ hbinds :=
    (((hps.before (.of_typed hty)).after (.of_named hname)).before hinit).before hbinds
  params_pass hps h := hps.after h
  func s _ t := Advances 1 s t
  func_pays h := h.paid
  function hty hname hbinds h hps h' hbody := by
    obtain ⟨u, hu, hadvances⟩ := (((h.after hps).after h').after hbody).leaves
    exact ⟨u, hu, ((Advances.of_typed hty).after (.of_named hname)).after
      (hbinds.before hadvances)⟩
  members s _ t := Advances 0 s t
  noMembers := .refl _
  member hdecl hv := hdecl.after hv
  method hdecl hf := hdecl.after hf
  members_pass hdecl h := hdecl.after h
  item s _ t := Advances 1 s t
  globalVariable h := h
  globalFunction h := h
  aggregate h hname _ _ h' ht hmembers := by
    obtain ⟨u, hu, hadvances⟩ := hmembers.leaves
    exact ⟨u, hu, ((h.after (.of_named hname)).after h').after hadvances⟩
  item_pass hst h := hst.after h
  item_pays h := h.paid
  grow _ _ := by
    have hgrown (s : ParserState) (st : Stmt) :
        Advances 0 s { s with program := ⟨s.program.body ++ [st]⟩ } :=
      ⟨⟨[], rfl, Nat.le_refl _⟩, .refl _⟩
    exact ⟨hgrown _ _, trivial, (hgrown _ _).paid⟩

end Parser

end MiniC
