/-
The stages in which statements are lowered, and what they leave alone.
Whatever is lowered, the function under construction only grows, no label
is used twice, and outer scopes stay as they are (`stmts_steady`). A
declaration adds a name to the innermost scope, with storage that no other
name in sight has (`Laid`).

# Two kinds of steps

A step that brings no name into sight only adds to the function (`Additive`), and this
holds of whole loops and arms, since they leave the scopes that they enter. A
declaration changes the innermost scope as well, so a statement is `Steady`: it adds,
and the scopes around the innermost are kept. A scope in which steady steps are taken
is additive from outside (`inScope_additive`), which is how the two kinds call each
other in the induction.

# Labels that are pending

An if or a while hands out the labels of its blocks before it opens the first, so no
single step of it can be said to keep labels distinct by itself. `Tracks` carries the
labels that are pending through the stages: handing one out adds it, opening a block
takes it away, and between them names may be put in any order. A statement that has
tracked all its labels has none left, and has only added.

# Taken apart

The lemmas that end in `_ok` divide a lowered statement at its stages, one for each
form it may have: a loop that is never entered, an arm alone, an arm with another side,
an arm whose condition is constant, a declaration, a return. Consumed by the proof that
statements are lowered with their meaning, and by those about labels, names and types.
-/
import Mathlib.Data.List.Forall2
import MiniC.Proofs.Lowering.Steps
import MiniC.Proofs.Source.Sight

namespace MiniC.Lowering

open IR Steps

variable (globals : List (String × Slot))

-- =========================================================== statements

/-- The storage in sight, innermost scope first. -/
def State.slots (s : State) : List Slot := s.scopes.flatten.map (·.2)

/-- A slot that is found is in sight. -/
theorem mem_slots_of_find {s : State} {name : String} {slot : Slot}
    (h : (s.scopes.findSome? fun scope => scope.lookup name) = some slot) : slot ∈ s.slots := by
  obtain ⟨scope, hscope, hslot⟩ := List.exists_of_findSome?_eq_some h
  exact List.mem_map.2 ⟨(name, slot), List.mem_flatten.2 ⟨scope, hscope, mem_of_lookup hslot⟩, rfl⟩

/-- Whether the names in sight have storage of their own: local slots with
names that are all different and handed out. -/
structure Laid (s : State) : Prop where
  nodup : (s.slots.map (·.name)).Nodup
  taken : ∀ slot ∈ s.slots, slot.name ∈ s.builder.names.taken
  isLocal : ∀ slot ∈ s.slots, slot.isGlobal = false

/-- How a state goes on from another whose outer scopes it keeps. -/
structure Onto (s t : State) : Prop where
  grows : Grows s.builder t.builder
  tidy : ∀ pending, Tidy s.builder pending → Tidy t.builder pending
  scopes : t.scopes.drop 1 = s.scopes.drop 1
  laid : Laid s → Laid t

/-- Storage stays laid out while the names in sight are the same. -/
theorem Laid.grown {s t : State} (hs : Laid s) (hgrows : Grows s.builder t.builder)
    (hscopes : t.scopes = s.scopes) : Laid t := by
  have hslots : t.slots = s.slots := by
    unfold State.slots
    rw [hscopes]
  refine ⟨?_, ?_, ?_⟩
  · rw [hslots]
    exact hs.nodup
  · rw [hslots]
    exact fun slot hslot => hgrows.names (hs.taken slot hslot)
  · rw [hslots]
    exact hs.isLocal

/-- What only adds keeps storage laid out. -/
theorem Adds.laid {s t : State} (h : Adds s t) (hs : Laid s) : Laid t :=
  hs.grown h.grows h.scopes

/-- What only adds keeps the scopes around. -/
theorem Adds.onto {s t : State} (h : Adds s t) : Onto s t :=
  ⟨h.grows, h.tidy, by rw [h.scopes], h.laid⟩

/-- What is built on in two steps is built on. -/
theorem Onto.trans {s t u : State} (h : Onto s t) (h' : Onto t u) : Onto s u :=
  ⟨h.grows.trans h'.grows, fun pending hs => h'.tidy pending (h.tidy pending hs),
    h'.scopes.trans h.scopes, fun hs => h'.laid (h.laid hs)⟩

/-- Whether a step adds to the function under construction and to the
innermost scope. -/
def Steady {α : Type} (step : Lower α) : Prop := Keeps (fun s t => s.Started → Onto s t) step

/-- What only adds is steady. -/
theorem Additive.steady {α : Type} {step : Lower α} (h : Additive step) : Steady step :=
  fun s a t hstep hs => (h s a t hstep hs).onto

theorem Steady.bind {α β : Type} {x : Lower α} {f : α → Lower β} (hx : Steady x)
    (hf : ∀ a, Steady (f a)) : Steady (x >>= f) :=
  Keeps.bind (fun _ _ _ h h' hs => (h hs).trans (h' (h hs).grows.started)) hx hf

/-- What is declared in a scope of its own goes with it. -/
theorem inScope_additive {α : Type} {step : Lower α} (h : Steady step) :
    Additive (inScope step) := by
  intro s a t hstep hs
  obtain ⟨u, hinner, rfl⟩ := inScope_ok.1 hstep
  have honto := h _ _ _ hinner hs
  exact ⟨honto.grows, honto.tidy, honto.scopes⟩

theorem builder_bind (s : State) (name : String) (slot : Slot) :
    (s.bind name slot).builder = s.builder := by
  unfold State.bind
  split <;> rfl

theorem drop_bind (s : State) (name : String) (slot : Slot) :
    (s.bind name slot).scopes.drop 1 = s.scopes.drop 1 := by
  unfold State.bind
  split
  · rfl
  · rename_i hscopes
    rw [hscopes]
    rfl

/-- A name may be bound to a local slot of a name that no other has. -/
theorem Laid.bind {s : State} (h : Laid s) (name : String) {slot : Slot}
    (hfresh : ∀ other ∈ s.slots, other.name ≠ slot.name)
    (htaken : slot.name ∈ s.builder.names.taken) (hlocal : slot.isGlobal = false) :
    Laid (s.bind name slot) := by
  unfold State.bind
  split
  · exact h
  · rename_i scope outer hscopes
    have hslots : s.slots = (scope :: outer).flatten.map (·.2) := by
      unfold State.slots
      rw [hscopes]
    have hnew : State.slots { s with scopes := ((name, slot) :: scope) :: outer }
        = slot :: s.slots := by
      rw [hslots]
      rfl
    refine ⟨?_, ?_, ?_⟩
    · rw [hnew, List.map_cons, List.nodup_cons]
      refine ⟨?_, h.nodup⟩
      intro hmem
      obtain ⟨other, hother, heq⟩ := List.mem_map.1 hmem
      exact hfresh other hother heq
    · rw [hnew]
      exact List.forall_mem_cons.2 ⟨htaken, h.taken⟩
    · rw [hnew]
      exact List.forall_mem_cons.2 ⟨hlocal, h.isLocal⟩

/-- A new slot is bound behind whatever was lowered since it was reserved. -/
theorem bind_onto {s t u : State} {base name : String} {ty : IR.Ty} {slot : Slot}
    (hs : s.Started) (halloca : alloca base ty s = .ok (slot, t)) (h : Adds t u) :
    Onto s (u.bind name slot) := by
  have hall := (alloca_additive base ty s slot t halloca hs).trans h
  obtain ⟨rfl, rfl⟩ := alloca_ok.1 halloca
  refine ⟨?_, ?_, ?_, ?_⟩
  · rw [builder_bind]
    exact hall.grows
  · rw [builder_bind]
    exact hall.tidy
  · rw [drop_bind, hall.scopes]
  · intro hlaid
    refine (hall.laid hlaid).bind name ?_ ?_ rfl
    · intro other hother heq
      unfold State.slots at hother
      rw [hall.scopes] at hother
      have hold := hlaid.taken other hother
      rw [heq] at hold
      exact s.builder.names.unique_fresh base hold
    · refine h.grows.names ?_
      have hunique : (s.builder.unique base).2.function.blocks ≠ [] := hs
      exact (grows_emit hunique _).names List.mem_cons_self

/-- A variable gets its slot, then its value, then its name. -/
theorem variableDecl_ok {decl : VariableDecl} {s t : State} {x : Unit}
    (h : variableDecl globals decl s = .ok (x, t)) :
    ∃ ty slot u v, slotType decl.ty = .ok ty ∧ alloca decl.name ty s = .ok (slot, u)
      ∧ (match decl.init with
        | some init => ∃ value w stored, expr globals init u = .ok (value, w)
            ∧ store value slot w = .ok (stored, v)
        | none => v = u)
      ∧ t = v.bind decl.name slot := by
  unfold variableDecl at h
  simp only [bind_ok, lift_ok] at h
  obtain ⟨ty, _, ⟨hty, rfl⟩, slot, u, halloca, h⟩ := h
  refine ⟨ty, slot, u, ?_⟩
  cases hinit : decl.init with
  | none =>
      rw [hinit] at h
      exact ⟨u, hty, halloca, rfl, bind_ok_iff.1 h⟩
  | some init =>
      rw [hinit] at h
      simp only [bind_ok, bind_ok_iff] at h
      obtain ⟨value, w, hvalue, stored, v, hstore, rfl⟩ := h
      exact ⟨v, hty, halloca, ⟨value, w, stored, hvalue, hstore⟩, rfl⟩

/-- A declaration changes the innermost scope only. -/
theorem variableDecl_steady (decl : VariableDecl) : Steady (variableDecl globals decl) := by
  intro s x t h hs
  obtain ⟨ty, slot, u, v, hty, halloca, hinit, rfl⟩ := variableDecl_ok globals h
  have hu := alloca_additive _ _ _ _ _ halloca hs
  refine bind_onto hs halloca ?_
  cases hdecl : decl.init with
  | none =>
      rw [hdecl] at hinit
      obtain rfl : v = u := hinit
      exact .refl hu.grows.started
  | some init =>
      rw [hdecl] at hinit
      obtain ⟨value, w, stored, hvalue, hstore⟩ := hinit
      have hw := expr_additive globals init _ _ _ hvalue hu.grows.started
      exact hw.trans (store_additive _ _ _ _ _ hstore hw.grows.started)

/-- The end of a return, whose value is lowered already. -/
def leave (result : Option Value) : Lower Unit := do
  if (← get).builder.returned then
    let label ← unique "return"
    append label
  emit (.ret result)

/-- A return without a value leaves. -/
theorem ret_none : ret globals none = leave none := rfl

/-- A return with a value converts it and leaves. -/
theorem ret_some (e : MiniC.Expr) :
    ret globals (some e) = (do
      let value ← expr globals e
      let s ← get
      let result ← convert value s.builder.function.returnType
      leave (some result)) := by
  unfold ret leave
  simp only [map_eq_pure_bind, bind_assoc, pure_bind]

/-- A block that has returned has ended. -/
theorem returned_terminated {b : Builder} (h : b.returned = true) : b.terminated = true := by
  have hinstr : ∀ {instr : Instr}, instr.isReturn = true → instr.isTerminator = true := by
    intro instr h
    cases instr <;> first | rfl | cases h
  unfold Builder.returned at h
  unfold Builder.terminated
  cases hblock : b.current? with
  | none =>
      rw [hblock] at h
      cases h
  | some block =>
      rw [hblock] at h
      have h : (block.body.getLast?).any Instr.isReturn = true := h
      show (block.body.getLast?).any Instr.isTerminator = true
      cases hlast : block.body.getLast? with
      | none =>
          rw [hlast] at h
          cases h
      | some instr =>
          rw [hlast] at h
          exact hinstr h

/-- A return that is reached stands in the block it is reached in. -/
theorem leave_live {result : Option Value} {s t : State} {x : Unit} (hs : Live s.builder)
    (h : leave result s = .ok (x, t)) :
    t = { s with builder := added s.builder (.ret result) } := by
  have hreturned : s.builder.returned = false := by
    cases hr : s.builder.returned with
    | false => rfl
    | true => exact absurd (returned_terminated hr) (by rw [hs.running]; exact Bool.false_ne_true)
  unfold leave at h
  simp only [bind_ok, get_ok] at h
  obtain ⟨_, _, ⟨rfl, rfl⟩, h⟩ := h
  rw [hreturned, if_neg Bool.false_ne_true] at h
  rw [emit_ok.1 h, State.emitted, emit_live hs]

/-- Leaving a function only adds. -/
theorem leave_additive (result : Option Value) : Additive (leave result) := by
  intro s x t h hs
  unfold leave at h
  simp only [bind_ok, get_ok] at h
  obtain ⟨_, _, ⟨rfl, rfl⟩, h⟩ := h
  split at h
  · simp only [bind_ok, unique_ok, append_ok] at h
    obtain ⟨_, _, ⟨rfl, rfl⟩, _, _, rfl, h⟩ := h
    have hunique := grows_unique (b := s.builder) hs "return"
    have happend := grows_append hunique.started (s.builder.unique "return").1
    refine Adds.trans (t := State.opened { s with builder := (s.builder.unique "return").2 }
      (s.builder.unique "return").1) ⟨hunique.trans happend, ?_, rfl⟩ ?_
    · exact fun _ ht => tidy_append (tidy_unique ht "return")
    · exact emit_additive _ _ _ _ h happend.started
  · exact emit_additive _ _ _ _ h hs

/-- A return only adds. -/
theorem ret_additive (value : Option MiniC.Expr) : Additive (ret globals value) := by
  cases value with
  | none => exact leave_additive none
  | some e =>
      rw [ret_some]
      refine (expr_additive globals e).bind fun value => Additive.bind ?_ fun s =>
        (convert_additive _ _).bind fun _ => leave_additive _
      intro s u t h hs
      obtain ⟨rfl, rfl⟩ := get_ok.1 h
      exact .refl hs

/-- A loop that can run. -/
def loopSteps (e : MiniC.Expr) (body : List Stmt) : Lower Unit := do
  let test ← unique "while.cond"
  let enter ← unique "while.body"
  let done ← unique "while.end"
  jumpTo test
  append test
  let value ← condition globals e
  emit (.branch value enter done)
  append enter
  inScope (stmts globals body)
  jumpTo test
  append done

/-- A loop that never runs leaves nothing behind. -/
theorem loop_ok {e : MiniC.Expr} {body : List Stmt} {pos : Position} {s t : State} {x : Unit}
    (h : stmt globals (.loop e body pos) s = .ok (x, t)) :
    (e.isConstant = true ∧ e.foldsToZero = .ok true ∧ t = s)
      ∨ loopSteps globals e body s = .ok (x, t) := by
  unfold stmt at h
  dsimp only at h
  split at h
  · rename_i hconst
    obtain ⟨never, _, hnever, h⟩ := bind_ok.1 h
    obtain ⟨hfold, rfl⟩ := lift_ok.1 hnever
    cases never with
    | true =>
        rw [if_pos rfl] at h
        obtain ⟨-, rfl⟩ := pure_ok.1 h
        exact Or.inl ⟨hconst, liftEval_ok.1 hfold, rfl⟩
    | false =>
        rw [if_neg Bool.false_ne_true] at h
        exact Or.inr h
  · rw [pure_bind, if_neg Bool.false_ne_true] at h
    exact Or.inr h

/-- The stages of a loop. -/
theorem loopSteps_ok {e : MiniC.Expr} {body : List Stmt} {s t : State} {x : Unit}
    (h : loopSteps globals e body s = .ok (x, t)) :
    ∃ test s₁ enter s₂ done s₃ value u v,
      unique "while.cond" s = .ok (test, s₁) ∧ unique "while.body" s₁ = .ok (enter, s₂)
        ∧ unique "while.end" s₂ = .ok (done, s₃)
        ∧ condition globals e ((s₃.jumped test).opened test) = .ok (value, u)
        ∧ inScope (stmts globals body) ((u.emitted (.branch value enter done)).opened enter)
          = .ok ((), v)
        ∧ t = (v.jumped test).opened done := by
  unfold loopSteps at h
  simp only [bind_ok, jumpTo_ok, append_ok, emit_ok] at h
  obtain ⟨test, s₁, h₁, enter, s₂, h₂, done, s₃, h₃, _, _, rfl, _, _, rfl, value, u, hvalue,
    _, _, rfl, _, _, rfl, _, v, hbody, _, _, rfl, rfl⟩ := h
  exact ⟨test, s₁, enter, s₂, done, s₃, value, u, v, h₁, h₂, h₃, hvalue, hbody, rfl⟩

/-- The stages of an arm without an alternate. -/
theorem ifArm_alone {e : MiniC.Expr} {consequent : List Stmt} {pos : Position} {s t : State}
    {x : Unit} (hconst : e.isConstant = false)
    (h : ifArm globals ⟨e, consequent, .none, pos⟩ s = .ok (x, t)) :
    ∃ value u onTrue u₁ done u₂ v, condition globals e s = .ok (value, u)
      ∧ unique "if.then" u = .ok (onTrue, u₁) ∧ unique "if.end" u₁ = .ok (done, u₂)
      ∧ inScope (stmts globals consequent)
          ((u₂.emitted (.branch value onTrue done)).opened onTrue) = .ok ((), v)
      ∧ t = (v.jumped done).opened done := by
  unfold ifArm at h
  rw [hconst, if_neg Bool.false_ne_true] at h
  simp only [bind_ok, jumpTo_ok, append_ok, emit_ok] at h
  obtain ⟨value, u, hvalue, onTrue, u₁, h₁, done, u₂, h₂, _, _, rfl, _, _, rfl, _, v, hbody,
    _, _, rfl, rfl⟩ := h
  exact ⟨value, u, onTrue, u₁, done, u₂, v, hvalue, h₁, h₂, hbody, rfl⟩

/-- The stages of an arm with an alternate. -/
theorem ifArm_both {e : MiniC.Expr} {consequent : List Stmt} {alternate : Alternate}
    {pos : Position} {s t : State} {x : Unit} (hconst : e.isConstant = false)
    (halternate : alternate ≠ .none)
    (h : ifArm globals ⟨e, consequent, alternate, pos⟩ s = .ok (x, t)) :
    ∃ value u onTrue u₁ onFalse u₂ done u₃ v w, condition globals e s = .ok (value, u)
      ∧ unique "if.then" u = .ok (onTrue, u₁) ∧ unique "if.else" u₁ = .ok (onFalse, u₂)
      ∧ unique "if.end" u₂ = .ok (done, u₃)
      ∧ inScope (stmts globals consequent)
          ((u₃.emitted (.branch value onTrue onFalse)).opened onTrue) = .ok ((), v)
      ∧ otherwise globals alternate ((v.jumped done).opened onFalse) = .ok ((), w)
      ∧ t = (w.jumped done).opened done := by
  unfold ifArm at h
  rw [hconst, if_neg Bool.false_ne_true] at h
  obtain ⟨value, u, hvalue, h⟩ := bind_ok.1 h
  obtain ⟨onTrue, u₁, h₁, h⟩ := bind_ok.1 h
  refine ⟨value, u, onTrue, u₁, ?_⟩
  have hrest : (do
      let onFalse ← unique "if.else"
      let done ← unique "if.end"
      emit (.branch value onTrue onFalse)
      append onTrue
      inScope (stmts globals consequent)
      jumpTo done
      append onFalse
      otherwise globals alternate
      jumpTo done
      append done : Lower Unit) u₁ = .ok (x, t) := by
    cases alternate with
    | none => exact absurd rfl halternate
    | block body => exact h
    | elseIf arm => exact h
  simp only [bind_ok, jumpTo_ok, append_ok, emit_ok] at hrest
  obtain ⟨onFalse, u₂, h₂, done, u₃, h₃, _, _, rfl, _, _, rfl, _, v, hbody, _, _, rfl, _, _, rfl,
    _, w, hother, _, _, rfl, rfl⟩ := hrest
  exact ⟨onFalse, u₂, done, u₃, v, w, hvalue, h₁, h₂, h₃, hbody, hother, rfl⟩

/-- An arm whose condition folds is the part that runs. -/
theorem ifArm_constant {e : MiniC.Expr} {consequent : List Stmt} {alternate : Alternate}
    {pos : Position} {s t : State} {x : Unit} (hconst : e.isConstant = true)
    (h : ifArm globals ⟨e, consequent, alternate, pos⟩ s = .ok (x, t)) :
    ∃ zero, e.foldsToZero = .ok zero
      ∧ (if zero then otherwise globals alternate else inScope (stmts globals consequent)) s
        = .ok (x, t) := by
  unfold ifArm at h
  rw [hconst, if_pos rfl] at h
  obtain ⟨zero, _, hzero, h⟩ := bind_ok.1 h
  obtain ⟨hfold, rfl⟩ := lift_ok.1 hzero
  exact ⟨zero, liftEval_ok.1 hfold, h⟩

-- =============================================================== blocks

/-- How a state goes on from another with the same names in sight, given the
labels whose blocks are yet to be opened before and behind. -/
def Tracks (s : State) (before : List String) (t : State) (behind : List String) : Prop :=
  s.Started → Grows s.builder t.builder ∧ t.scopes = s.scopes
    ∧ (Tidy s.builder before → Tidy t.builder behind)

section Tracks

variable {s t u : State} {before between behind : List String}

/-- Labels are tracked from stage to stage. -/
theorem Tracks.trans (h : Tracks s before t between) (h' : Tracks t between u behind) :
    Tracks s before u behind := by
  intro hs
  obtain ⟨hgrows, hscopes, htidy⟩ := h hs
  obtain ⟨hgrows', hscopes', htidy'⟩ := h' hgrows.started
  exact ⟨hgrows.trans hgrows', hscopes'.trans hscopes, fun ht => htidy' (htidy ht)⟩

/-- What only adds leaves pending what is pending. -/
theorem Adds.tracks (h : s.Started → Adds s t) : Tracks s before t before :=
  fun hs => ⟨(h hs).grows, (h hs).scopes, (h hs).tidy before⟩

/-- What leaves pending whatever was pending only adds. -/
theorem Tracks.adds (h : ∀ pending, Tracks s pending t pending) (hs : s.Started) : Adds s t :=
  ⟨(h [] hs).1, fun pending => (h pending hs).2.2, (h [] hs).2.1⟩

/-- The labels were handed out in the order in which their blocks are
opened. -/
theorem Tracks.inOrder (names : List String) :
    Tracks s (names.reverse ++ before) s (names ++ before) :=
  fun hs => ⟨.refl hs, rfl, fun ht => ht.perm ((List.reverse_perm names).append_right before)⟩

/-- A label that is handed out is pending. -/
theorem unique_tracks {base name : String} (h : unique base s = .ok (name, t)) :
    Tracks s before t (name :: before) := by
  intro hs
  obtain ⟨rfl, rfl⟩ := unique_ok.1 h
  exact ⟨grows_unique hs base, rfl, fun ht => tidy_unique ht base⟩

/-- A block that is opened uses its label. -/
theorem opened_tracks (s : State) (label : String) :
    Tracks s (label :: before) (s.opened label) before :=
  fun hs => ⟨grows_append hs label, rfl, tidy_append⟩

theorem jumped_tracks (s : State) (label : String) : Tracks s before (s.jumped label) before :=
  fun hs => ⟨grows_jumpTo hs label, rfl, fun ht => tidy_jumpTo hs ht label⟩

theorem emitted_tracks (s : State) (instr : Instr) :
    Tracks s before (s.emitted instr) before :=
  fun hs => ⟨grows_emit hs instr, rfl, fun ht => tidy_emit hs ht instr⟩

end Tracks

/-- A loop only adds. -/
theorem loopSteps_additive (e : MiniC.Expr) {body : List Stmt}
    (hbody : Steady (stmts globals body)) : Additive (loopSteps globals e body) := by
  intro s x t h
  refine Tracks.adds fun pending => ?_
  obtain ⟨test, s₁, enter, s₂, done, s₃, value, u, v, h₁, h₂, h₃, hvalue, hinner, rfl⟩ :=
    loopSteps_ok globals h
  have hnames : Tracks s pending s₃ (test :: enter :: done :: pending) :=
    (((unique_tracks h₁).trans (unique_tracks h₂)).trans (unique_tracks h₃)).trans
      (.inOrder [test, enter, done])
  have htest := (hnames.trans (jumped_tracks s₃ test)).trans (opened_tracks _ test)
  have hcondition := htest.trans (Adds.tracks (condition_additive globals e _ _ _ hvalue))
  have henter := (hcondition.trans (emitted_tracks u (.branch value enter done))).trans
    (opened_tracks _ enter)
  have hv := henter.trans (Adds.tracks (inScope_additive hbody _ _ _ hinner))
  exact (hv.trans (jumped_tracks v test)).trans (opened_tracks _ done)

/-- An arm only adds. -/
theorem ifArm_additive_of {e : MiniC.Expr} {consequent : List Stmt} {alternate : Alternate}
    {pos : Position} (hbody : Steady (stmts globals consequent))
    (hother : Additive (otherwise globals alternate)) :
    Additive (ifArm globals ⟨e, consequent, alternate, pos⟩) := by
  intro s x t h
  cases hconst : e.isConstant with
  | true =>
      obtain ⟨zero, -, h⟩ := ifArm_constant globals hconst h
      cases zero with
      | true => exact hother _ _ _ h
      | false => exact inScope_additive hbody _ _ _ h
  | false =>
      refine Tracks.adds fun pending => ?_
      by_cases halternate : alternate = .none
      · subst halternate
        obtain ⟨value, u, onTrue, u₁, done, u₂, v, hvalue, h₁, h₂, hinner, rfl⟩ :=
          ifArm_alone globals hconst h
        have hcondition : Tracks s pending u pending :=
          Adds.tracks (condition_additive globals e _ _ _ hvalue)
        have hnames := ((hcondition.trans (unique_tracks h₁)).trans (unique_tracks h₂)).trans
          (.inOrder [onTrue, done])
        have htrue := (hnames.trans (emitted_tracks u₂ (.branch value onTrue done))).trans
          (opened_tracks _ onTrue)
        have hv := htrue.trans (Adds.tracks (inScope_additive hbody _ _ _ hinner))
        exact (hv.trans (jumped_tracks v done)).trans (opened_tracks _ done)
      · obtain ⟨value, u, onTrue, u₁, onFalse, u₂, done, u₃, v, w, hvalue, h₁, h₂, h₃, hinner,
          houter, rfl⟩ := ifArm_both globals hconst halternate h
        have hcondition : Tracks s pending u pending :=
          Adds.tracks (condition_additive globals e _ _ _ hvalue)
        have hnames := (((hcondition.trans (unique_tracks h₁)).trans (unique_tracks h₂)).trans
          (unique_tracks h₃)).trans (.inOrder [onTrue, onFalse, done])
        have htrue := (hnames.trans (emitted_tracks u₃ (.branch value onTrue onFalse))).trans
          (opened_tracks _ onTrue)
        have hv := htrue.trans (Adds.tracks (inScope_additive hbody _ _ _ hinner))
        have hfalse := (hv.trans (jumped_tracks v done)).trans (opened_tracks _ onFalse)
        have hw := hfalse.trans (Adds.tracks (hother _ _ _ houter))
        exact (hw.trans (jumped_tracks w done)).trans (opened_tracks _ done)

mutual

/-- Whatever is lowered, the function only grows. -/
theorem stmt_steady : ∀ st : Stmt, Steady (stmt globals st)
  | .block body => by
      unfold stmt
      exact (inScope_additive (stmts_steady body)).steady
  | .branch arm => by
      unfold stmt
      exact (ifArm_additive arm).steady
  | .loop e body pos => by
      intro s x t h hs
      rcases loop_ok globals h with ⟨-, -, rfl⟩ | h
      · exact (Adds.refl hs).onto
      · exact (loopSteps_additive globals e (stmts_steady body) _ _ _ h hs).onto
  | .ret value pos => by
      unfold stmt
      exact (ret_additive globals value).steady
  | .variable decl => by
      unfold stmt
      exact variableDecl_steady globals decl
  | .expr e => by
      unfold stmt
      exact ((expr_additive globals e).bind fun _ => Additive.pure _).steady
  | .function _ => by
      unfold stmt
      exact (Additive.fail _).steady
  | .aggregate _ => by
      unfold stmt
      exact (Additive.fail _).steady

theorem stmts_steady : ∀ body : List Stmt, Steady (stmts globals body)
  | [] => by
      unfold stmts
      exact (Additive.pure _).steady
  | st :: rest => by
      unfold stmts
      exact (stmt_steady st).bind fun _ => stmts_steady rest

theorem ifArm_additive : ∀ arm : Arm, Additive (ifArm globals arm)
  | ⟨_, consequent, alternate, _⟩ =>
      ifArm_additive_of globals (stmts_steady consequent) (otherwise_additive alternate)

theorem otherwise_additive : ∀ alternate : Alternate, Additive (otherwise globals alternate)
  | .none => by
      unfold otherwise
      exact Additive.pure _
  | .block body => by
      unfold otherwise
      exact inScope_additive (stmts_steady body)
  | .elseIf arm => by
      unfold otherwise
      exact ifArm_additive arm

end

-- ============================================================= functions

variable {globals} {s t : State} {fn : Function}

/-- A parameter is spilled into a slot that is named after it. -/
theorem spill_ok {param : String × IR.Ty} {x : Unit} (h : spill param s = .ok (x, t)) :
    ∃ slot u, alloca (param.1 ++ ".addr") param.2 s = .ok (slot, u)
      ∧ t = (u.emitted (.store (.argument param.2 param.1) slot)).bind param.1 slot := by
  unfold spill at h
  simp only [bind_ok, emit_ok, bind_ok_iff] at h
  obtain ⟨slot, u, halloca, _, _, rfl, rfl⟩ := h
  exact ⟨slot, u, halloca, rfl⟩

theorem spill_steady (param : String × IR.Ty) : Steady (spill param) := by
  intro s x t h hs
  obtain ⟨slot, u, halloca, rfl⟩ := spill_ok h
  have hu := alloca_additive _ _ _ _ _ halloca hs
  exact bind_onto hs halloca (emit_additive _ _ () _ (emit_ok.2 rfl) hu.grows.started)

theorem spills_steady (params : List (String × IR.Ty)) : Steady (params.forM spill) := by
  induction params with
  | nil => exact (Additive.pure _).steady
  | cons param rest ih => exact (spill_steady param).bind fun _ => ih

/-- A list of computations succeeds exactly when each does. -/
theorem mapM_ok {ε α β : Type} {f : α → Except ε β} :
    ∀ {xs : List α} {ys : List β}, xs.mapM f = .ok ys → List.Forall₂ (fun x y => f x = .ok y) xs ys
  | [], ys, h => by
      cases h
      exact .nil
  | x :: xs, ys, h => by
      rw [List.mapM_cons] at h
      obtain ⟨y, hy, h⟩ := except_bind_ok.1 h
      obtain ⟨rest, hrest, h⟩ := except_bind_ok.1 h
      cases h
      exact .cons hy (mapM_ok hrest)

/-- A function before anything is lowered: its entry block is open. -/
def startState (decl : FunctionDecl) (repr : IR.Ty) (params : List (String × IR.Ty)) : State :=
  ⟨.start decl.name repr params, [[]]⟩

theorem start_live (decl : FunctionDecl) (repr : IR.Ty) (params : List (String × IR.Ty)) :
    Live (startState decl repr params).builder :=
  live_append _ _

theorem start_tidy (decl : FunctionDecl) (repr : IR.Ty) (params : List (String × IR.Ty)) :
    Tidy (startState decl repr params).builder [] := by
  let bare : Builder := ⟨⟨decl.name, repr, params, []⟩, .reserving (params.map (·.1)), 0⟩
  have hbare : Tidy bare [] := ⟨List.nodup_nil, nofun⟩
  exact tidy_append (tidy_unique hbare "entry")

theorem start_laid (decl : FunctionDecl) (repr : IR.Ty) (params : List (String × IR.Ty)) :
    Laid (startState decl repr params) :=
  ⟨List.nodup_nil, nofun, nofun⟩

/-- The stages of a function: its parameters, its body, and a return at the
end of what does not end otherwise. -/
structure Stages (globals : List (String × Slot)) (decl : FunctionDecl) (repr : IR.Ty)
    (params : List (String × IR.Ty)) (s t u : State) : Prop where
  returnType : IR.Ty.ofSource? decl.returnType = some repr
  declared : List.Forall₂ (fun p ir => ir.1 = p.name ∧ slotType p.ty = .ok ir.2) decl.params params
  spills : params.forM spill (startState decl repr params) = .ok ((), s)
  body : stmts globals decl.body s = .ok ((), t)
  ending : u = if t.builder.terminated then t else t.emitted (.ret (defaultReturn repr))

/-- A lowered function went through its stages. -/
theorem function_ok {decl : FunctionDecl} (h : function globals decl = .ok fn) :
    ∃ repr params s t u, Stages globals decl repr params s t u ∧ fn = u.builder.function := by
  unfold function at h
  cases hrepr : IR.Ty.ofSource? decl.returnType with
  | none =>
      rw [hrepr] at h
      cases h
  | some repr =>
      rw [hrepr] at h
      dsimp only at h
      rw [pure_bind] at h
      obtain ⟨params, hparams, h⟩ := except_bind_ok.1 h
      obtain ⟨⟨_, u⟩, hsteps, h⟩ := except_bind_ok.1 h
      cases h
      have hsteps : functionSteps globals decl repr params (startState decl repr params)
        = .ok (_, u) := hsteps
      unfold functionSteps at hsteps
      simp only [bind_ok, get_ok] at hsteps
      obtain ⟨_, s, hspills, _, t, hbody, _, _, ⟨rfl, rfl⟩, hend⟩ := hsteps
      refine ⟨repr, params, s, t, u, ⟨hrepr, ?_, hspills, hbody, ?_⟩, rfl⟩
      · refine (mapM_ok hparams).imp ?_
        intro p ir hp
        obtain ⟨ty, hty, hpure⟩ := except_bind_ok.1 hp
        cases hpure
        exact ⟨rfl, hty⟩
      · cases hterm : t.builder.terminated with
        | true =>
            rw [hterm] at hend
            obtain ⟨-, rfl⟩ := pure_ok.1 hend
            rfl
        | false =>
            rw [hterm] at hend
            exact emit_ok.1 hend

namespace Stages

variable {decl : FunctionDecl} {repr : IR.Ty} {params : List (String × IR.Ty)} {u : State}

/-- Spilling the parameters adds to the start. -/
theorem spilled (h : Stages globals decl repr params s t u) :
    Onto (startState decl repr params) s :=
  spills_steady params _ _ _ h.spills (start_live decl repr params).started

/-- The body adds to what was spilled. -/
theorem built (h : Stages globals decl repr params s t u) : Onto s t :=
  stmts_steady globals decl.body _ _ _ h.body h.spilled.grows.started

/-- The end adds to the body. -/
theorem ended (h : Stages globals decl repr params s t u) : Adds t u := by
  have ht := h.built.grows.started
  rw [h.ending]
  split
  · exact .refl ht
  · exact emit_additive _ _ () _ (emit_ok.2 rfl) ht

theorem names (h : Stages globals decl repr params s t u) :
    u.builder.function.params.map (·.1) = decl.params.map (·.name) := by
  rw [((h.spilled.grows.trans h.built.grows).trans h.ended.grows).params]
  show params.map (·.1) = _
  have hparams := h.declared
  clear h
  generalize decl.params = declared at hparams
  induction hparams with
  | nil => rfl
  | cons hp _ ih => rw [List.map_cons, List.map_cons, hp.1, ih]

/-- No two blocks of a function have the same label. -/
theorem labels_nodup (h : Stages globals decl repr params s t u) :
    (u.builder.function.blocks.map (·.label)).Nodup := by
  have htidy := h.ended.tidy [] (h.built.tidy [] (h.spilled.tidy [] (start_tidy decl repr params)))
  have hlabels := htidy.nodup
  rwa [List.append_nil] at hlabels

end Stages

/-- A global has the slot of its own name and of the type of its own. -/
theorem global_slot {decl : VariableDecl} {g : Global} (h : global decl = .ok g) :
    g.slot.name = decl.name ∧ g.slot.isGlobal = true
      ∧ IR.Ty.ofSource? decl.ty = some g.slot.ty := by
  unfold global at h
  obtain ⟨ty, hty, h⟩ := except_bind_ok.1 h
  have hrepr : IR.Ty.ofSource? decl.ty = some ty := by
    revert hty
    cases decl.ty <;> intro hty <;> cases hty <;> rfl
  have hslot : g.slot = ⟨decl.name, true, ty⟩ := by
    dsimp only at h
    split at h
    · split at h
      · obtain ⟨lit, -, h⟩ := except_bind_ok.1 h
        split at h
        · obtain ⟨init, -, h⟩ := except_bind_ok.1 h
          cases h
          rfl
        · cases h
      · cases h
    · cases h
      rfl
  rw [hslot]
  exact ⟨rfl, rfl, hrepr⟩

end MiniC.Lowering
