/-
Statements are lowered with their meaning. The code of a statement leads to
where lowering goes on, with the variables as the source leaves them, or it
returns what the source returns; where the source stops so does the code,
and a loop that the source does not finish in its rounds takes more
instructions than those (`stmts_follower`).

# What is compared

`Follows` has one case per outcome of the source. Only a statement that ends
normally says anything about what comes behind, so statements in sequence are
compared by `Follows.onward`: either the first returned and the others are
never come to, or control is where their lowering starts (`Reaches`).
`Follower` asks this of a step wherever control reaches it.

# Where control goes

Control only moves along branches and jumps to labels. A block that was
opened in the course of lowering is a block of the finished function, and
behind the end of the block before it nothing comes any more (`opened_goto`),
so that a jump that was added last is what comes (`jumped_ahead`). That it is
the block that a label leads to is all that distinct labels are needed for.

# Branches

An arm and a loop both lower a condition, a branch and the statements behind
it; those stages are `BranchStages`, and where control goes from them is said
once (`BranchStages.follows`). An arm with and one without an alternate differ
in what the label of failure opens.

# Loops

`loop_follower` is an induction on the rounds of the source. A round costs at
least the branch that begins it (`Follows.branch`), which is why a loop that
the source does not finish takes more instructions than rounds: the code may
be run as long as wanted without coming to an end.
Consumed by the proof about functions.
-/
import MiniC.Proofs.Lowering.Expressions

namespace MiniC.Lowering

open IR Source Steps

-- ============================================================ comparison

/-- Whether the lowering from `s` to `t` is code that leads from the memory
`m` to `m'`. -/
structure Reaches (fn : Function) (s : State) (m : Memory) (t : State) (m' : Memory) : Prop where
  live : Live t.builder
  leads : ∀ rest rest', Ahead s.builder.function.blocks fn.blocks rest →
    Ahead t.builder.function.blocks fn.blocks rest' → Leads fn rest m rest' m'

/-- Whether the lowering from `s` to `t` is code that does, from the memory
`m`, what a run of statements does. -/
def Follows (types : List (String × MiniC.Ty)) (fn : Function) (rounds : Nat) (s : State)
    (m : Memory) (t : State) (sight : Sight) (run : Except Source.Stop (Outcome × Store)) : Prop :=
  match run with
  | .ok (.normal, store) => ∃ m', Reaches fn s m t m' ∧ Held types sight t store m'
  | .ok (.returned value, store) =>
    ∀ rest, Ahead s.builder.function.blocks fn.blocks rest →
      Returns fn rest m value store.globals
  | .error stop =>
    ∀ rest, Ahead s.builder.function.blocks fn.blocks rest → Fails fn rounds rest m stop

variable {types : List (String × MiniC.Ty)} {globals : List (String × Slot)} {fn : Function}
  {rounds : Nat} {s t u : State} {m m' : Memory} {store : Store} {sight sight' : Sight}

/-- Code that is passed through leads to where it ends. -/
theorem Passes.reaches (h : Passes fn s m t m') : Reaches fn s m t m' := ⟨h.live, h.leads⟩

/-- What is reached may be gone on from. -/
theorem Reaches.trans {m'' : Memory} (h : Reaches fn s m t m') (h' : Reaches fn t m' u m'')
    (hfn : Within fn t) : Reaches fn s m u m'' := by
  refine ⟨h'.live, fun rest rest'' hrest hrest'' => ?_⟩
  obtain ⟨rest', hrest'⟩ := hfn
  exact (h.leads rest rest' hrest hrest').trans (h'.leads rest' rest'' hrest' hrest'')

/-- What follows from a point that is reached follows from where it is
reached from. -/
theorem Reaches.follows (h : Reaches fn s m t m') (hfn : Within fn t)
    {run : Except Source.Stop (Outcome × Store)}
    (h' : Follows types fn rounds t m' u sight run) : Follows types fn rounds s m u sight run := by
  unfold Follows at h' ⊢
  split at h'
  · obtain ⟨m'', hreaches, hheld⟩ := h'
    exact ⟨m'', h.trans hreaches hfn, hheld⟩
  · intro rest hrest
    obtain ⟨rest', hrest'⟩ := hfn
    exact (h.leads rest rest' hrest hrest').returns (h' rest' hrest')
  · intro rest hrest
    obtain ⟨rest', hrest'⟩ := hfn
    exact (h' rest' hrest').leads (h.leads rest rest' hrest hrest')

/-- A run that begins with what is simulated goes on from there. -/
theorem Simulates.follows {α : Type} {P : α → Store → Memory → Prop} {x : Run Store α}
    {f : α → Run Store Outcome} (hx : Simulates fn rounds s m t (x store) P) (hfn : Within fn t)
    (hf : ∀ a store' m', Passes fn s m t m' → P a store' m' →
      Follows types fn rounds t m' u sight (f a store')) :
    Follows types fn rounds s m u sight ((x >>= f) store) := by
  show Follows types fn rounds s m u sight (StateT.bind x f store)
  unfold StateT.bind
  cases hrun : x store with
  | error stop =>
      rw [hrun] at hx
      exact hx
  | ok r =>
      obtain ⟨a, store'⟩ := r
      rw [hrun] at hx
      obtain ⟨m', hpass, hpost⟩ := hx
      exact hpass.reaches.follows hfn (hf a store' m' hpass hpost)

/-- A statement is followed by others unless it returns. -/
theorem Follows.onward {x next : Run Store Outcome}
    (hx : Follows types fn rounds s m t sight (x store)) (hfn : Within fn t)
    (hnext : ∀ store' m', Live t.builder → Held types sight t store' m' →
      Follows types fn rounds t m' u sight' (next store')) :
    Follows types fn rounds s m u sight'
      ((x >>= fun outcome => onward outcome next) store) := by
  show Follows types fn rounds s m u sight' (StateT.bind x _ store)
  unfold StateT.bind
  cases hrun : x store with
  | error stop =>
      rw [hrun] at hx
      exact hx
  | ok r =>
      obtain ⟨outcome, store'⟩ := r
      rw [hrun] at hx
      cases outcome with
      | normal =>
          obtain ⟨m', hreaches, hheld⟩ := hx
          exact hreaches.follows hfn (hnext store' m' hreaches.live hheld)
      | returned value => exact hx

-- ================================================================ scopes

/-- A scope that is opened holds nothing. -/
theorem Held.push (h : Held types sight s store m) :
    Held types ([] :: sight) { s with scopes := [] :: s.scopes }
      { store with scopes := [] :: store.scopes } m := by
  refine ⟨⟨h.laid.nodup, h.laid.taken, h.laid.isLocal⟩, h.agrees.push, ?_⟩
  rw [← h.sight]
  rfl

/-- Whether the code of a step does what a run of statements does, wherever
control reaches it in a function of the given return type. -/
def Follower (types : List (String × MiniC.Ty)) (fn : Function) (rounds : Nat) (repr : IR.Ty)
    (sight sight' : Sight) (step : Lower Unit) (run : Run Store Outcome) : Prop :=
  ∀ ⦃s m store t x⦄, Live s.builder → Held types sight s store m →
    s.builder.function.returnType = repr → Within fn t → step s = .ok (x, t) →
    Follows types fn rounds s m t sight' (run store)

variable {repr : IR.Ty}

/-- What is declared in a scope of its own goes with it, on both sides. -/
theorem inScope_follower {step : Lower Unit} {run : Run Store Outcome} {inner : Sight}
    (hstep : Follower types fn rounds repr ([] :: sight) inner step run) (hsteady : Steady step)
    (hinner : inner.drop 1 = sight) :
    Follower types fn rounds repr sight sight (inScope step) (Source.inScope run) := by
  intro s m store t x hs hheld hret hfn h
  have hadds := inScope_additive hsteady s x t h hs.started
  obtain ⟨v, hv, rfl⟩ := inScope_ok.1 h
  have hfnv : Within fn v := hfn
  have hfollows := hstep (s := { s with scopes := [] :: s.scopes }) ⟨hs.started, hs.running⟩
    hheld.push hret hfnv hv
  rw [inScope_run]
  cases hrun : run { store with scopes := [] :: store.scopes } with
  | error stop =>
      rw [hrun] at hfollows
      exact hfollows
  | ok r =>
      obtain ⟨outcome, store'⟩ := r
      rw [hrun] at hfollows
      cases outcome with
      | returned value => exact hfollows
      | normal =>
          obtain ⟨m', hreaches, hheld'⟩ := hfollows
          refine ⟨m', ⟨hreaches.live, hreaches.leads⟩, hadds.laid hheld.laid,
            hheld'.agrees.pop, ?_⟩
          have hsight := hheld'.sight
          unfold sightOf at hsight ⊢
          rw [List.map_drop, hsight, hinner]

-- ========================================================== simple steps

/-- A condition is lowered to a truth value. -/
theorem condition_simulates (hglobals : GlobalSlots types globals) {e : MiniC.Expr}
    (hcombined : e.Combined) (hwhole : e.Integral types sight) (hs : Live s.builder)
    (hheld : Held types sight s store m) (hfn : Within fn t) {value : IR.Value}
    (h : condition globals e s = .ok (value, t)) :
    Simulates fn rounds s m t (test false types e store) fun holds store' m' =>
      Held types sight t store' m' ∧ m'.read value = .ok (if holds then 1 else 0) := by
  unfold condition at h
  obtain ⟨result, u, hresult, hconvert⟩ := bind_ok.1 h
  have hu := (expr_additive globals e).started hs.started hresult
  have hfn' := (convert_additive _ _).within hu hconvert hfn
  refine (expr_simulates hglobals hcombined hwhole hs hheld hfn' hresult).bind hfn' ?_
  rintro v store' m' hpass ⟨hheld', hdenotes⟩
  obtain ⟨m'', hpass', hsame, hvalue⟩ :=
    convert_passes fn hpass.live hdenotes Represents.bool hconvert
  refine ⟨m'', hpass', hheld'.same hpass' hsame, ?_⟩
  rw [hvalue.read]
  refine congrArg Except.ok ?_
  show (if v.2 = 0 then (0 : Int) else 1) = if decide (v.2 ≠ 0) then 1 else 0
  by_cases hzero : v.2 = 0
  · rw [if_pos hzero, if_neg (by simpa using hzero)]
  · rw [if_neg hzero, if_pos (by simpa using hzero)]

/-- Whether a leaf can be followed in a function of the given return type:
it is about whole numbers, its expressions are built by `combine`, and what
it returns the function has room for. -/
structure Leaf.Sane (types : List (String × MiniC.Ty)) (returnType : MiniC.Ty) (sight : Sight)
    (leaf : Leaf) : Prop where
  whole : leaf.Integral types sight
  combined : ∀ e ∈ leaf.exprs, e.Combined
  result : ∀ e, leaf = .result (some e) → returnType.isInteger = true

/-- An expression is evaluated for its assignments. -/
theorem effect_follower (hglobals : GlobalSlots types globals) {returnType : MiniC.Ty}
    {e : MiniC.Expr} (hsane : Leaf.Sane types returnType sight (.effect e)) :
    Follower types fn rounds repr sight sight
      (do let _ ← expr globals e)
      (do
        let _ ← eval (cells types) false e
        return .normal) := by
  intro s m store t x hs hheld hret hfn h
  obtain ⟨value, u, hvalue, hpure⟩ := bind_ok.1 h
  obtain ⟨-, rfl⟩ := pure_ok.1 hpure
  have hwhole := hsane.whole.1 e List.mem_cons_self
  have hcombined := hsane.combined e List.mem_cons_self
  refine (expr_simulates hglobals hcombined hwhole hs hheld hfn hvalue).follows hfn ?_
  rintro v store' m' hpass ⟨hheld', -⟩
  exact ⟨m', (Passes.refl fn m' hpass.live).reaches, hheld'⟩

/-- A return that is reached ends the run. -/
theorem leave_returns {result : Option IR.Value} {value : Option Int} (hs : Live s.builder)
    (hfn : Within fn t) {x : Unit} (h : leave result s = .ok (x, t))
    (hvalue : match result, value with
      | some r, some n => m.read r = .ok n
      | none, none => True
      | _, _ => False) {rest : List Instr}
    (hrest : Ahead s.builder.function.blocks fn.blocks rest) :
    Returns fn rest m value m.globals := by
  obtain rfl := leave_live hs h
  obtain ⟨rest', hrest'⟩ := hfn
  rw [hrest.functional (hrest'.of_addToLast hs.started)]
  cases result with
  | none =>
      cases value with
      | none => exact returns_none
      | some n => exact hvalue.elim
  | some r =>
      cases value with
      | none => exact hvalue.elim
      | some n => exact returns_some hvalue

/-- A return yields the value as the function's type. -/
theorem ret_follower (hglobals : GlobalSlots types globals) {returnType : MiniC.Ty}
    (hrepr : IR.Ty.ofSource? returnType = some repr) {value : Option MiniC.Expr}
    (hsane : Leaf.Sane types returnType sight (.result value)) :
    Follower types fn rounds repr sight sight (ret globals value)
      (.returned <$> result false types returnType value) := by
  intro s m store t x hs hheld hret hfn h
  cases value with
  | none =>
      intro rest hrest
      rw [← hheld.agrees.globals]
      exact leave_returns hs hfn h (by trivial) hrest
  | some e =>
      rw [ret_some] at h
      simp only [bind_ok, get_ok] at h
      obtain ⟨v, u, hv, _, _, ⟨rfl, rfl⟩, r, w, hr, hleave⟩ := h
      have hwhole := hsane.whole.1 e List.mem_cons_self
      have hcombined := hsane.combined e List.mem_cons_self
      have hinteger := hsane.result e rfl
      have hu := (expr_additive globals e _ _ _ hv hs.started).grows
      have hw := (convert_additive _ _).started hu.started hr
      have hfnw := (leave_additive _).within hw hleave hfn
      have hfnu := (convert_additive _ _).within hu.started hr hfnw
      rw [hu.returnType, hret] at hr
      have hrun : (.returned <$> result false types returnType (some e) : Run Store Outcome)
          = eval (cells types) false e >>= fun a =>
            pure (.returned (some (Source.convert false a.1 returnType a.2))) := by
        show Outcome.returned <$> some <$> evalAs false types returnType e = _
        rw [evalAs_whole hinteger]
        simp only [map_eq_pure_bind, bind_assoc, pure_bind]
      rw [hrun]
      refine (expr_simulates hglobals hcombined hwhole hs hheld hfnu hv).follows hfnu ?_
      rintro a store' m' hpass ⟨hheld', hdenotes⟩
      intro rest hrest
      obtain ⟨m'', hpass', hsame, hvalue⟩ := convert_passes fn hpass.live hdenotes
        (.of_ofSource? hinteger hrepr) hr
      obtain ⟨rest', hrest'⟩ := hfnw
      refine (hpass'.leads rest rest' hrest hrest').returns ?_
      rw [← hheld'.agrees.globals, ← hsame.globals]
      exact leave_returns hpass'.live hfn hleave hvalue.read hrest'

-- ========================================================== declarations

/-- A slot of a whole-number type represents it. -/
theorem slotType_whole {ty : MiniC.Ty} {repr : IR.Ty} (hty : ty.isInteger = true)
    (h : slotType ty = .ok repr) : Represents ty repr := by
  cases ty <;> first | cases hty; done | (cases h; constructor)

variable (fn) in
/-- A slot that is reserved is empty, and no name in sight has it. -/
theorem alloca_passes {base : String} {ty : IR.Ty} {slot : Slot} (hs : Live s.builder)
    (hheld : Held types sight s store m) (h : alloca base ty s = .ok (slot, t)) :
    ∃ m', Passes fn s m t m' ∧ Held types sight t store m' ∧ m'.locals slot.name = none
      ∧ m'.args = m.args ∧ ∀ other ∈ s.slots, other.name ≠ slot.name := by
  have hadds := alloca_additive base ty s slot t h hs.started
  obtain ⟨hslot, ht⟩ := alloca_ok.1 h
  have hlive : Live (s.builder.unique base).2 := ⟨hs.started, hs.running⟩
  have hfresh : ∀ other ∈ s.slots, other.name ≠ slot.name := by
    intro other hother heq
    have hold := hheld.laid.taken other hother
    rw [heq, hslot] at hold
    exact s.builder.names.unique_fresh base hold
  have hpass : Passes fn s m t (m.reserve slot) := by
    refine ⟨hadds, ⟨hadds.grows.started, ?_⟩, ?_, fun _ _ => rfl⟩
    · rw [ht]
      exact terminated_emit hlive.started _
    · intro rest rest' hrest hrest'
      rw [ht] at hrest'
      rw [emit_live hlive] at hrest'
      rw [hrest.functional (hrest'.of_addToLast hs.started)]
      exact leads_exec rfl
  refine ⟨_, hpass, ⟨hadds.laid hheld.laid, ?_, hheld.sight⟩, if_pos rfl, rfl, hfresh⟩
  rw [hadds.scopes]
  exact hheld.agrees.congr (fun other hother => if_neg (hfresh other hother)) rfl

/-- A variable comes into sight once its slot holds its value. -/
theorem Held.bind (h : Held types sight s store m) {name : String} {ty : MiniC.Ty}
    {value : Option Int} {slot : Slot} (hlaid : Laid (s.bind name slot))
    (hbound : Bound m (ty, value) slot) :
    Held types (sight.bind name ty) (s.bind name slot) (store.bind name ty value) m := by
  refine ⟨hlaid, h.agrees.bind name hbound, ?_⟩
  rw [sightOf_bind, h.sight]

/-- Storing into a slot of the function changes that one variable. -/
theorem put_local {slot : Slot} (hlocal : slot.isGlobal = false) (m : Memory) (n : Int) :
    m.put slot n
      = { m with locals := fun x => if x = slot.name then some n else m.locals x } := by
  unfold Memory.put
  rw [hlocal, if_neg Bool.false_ne_true]

/-- Storing into a slot that no name in sight has leaves all variables. -/
theorem Held.put (h : Held types sight s store m) {slot : Slot} (hlocal : slot.isGlobal = false)
    (hfresh : ∀ other ∈ s.slots, other.name ≠ slot.name) (n : Int) :
    Held types sight s store (m.put slot n) := by
  rw [put_local hlocal]
  exact ⟨h.laid, h.agrees.congr (fun other hother => if_neg (hfresh other hother)) rfl, h.sight⟩

/-- A slot that is stored into holds the value from then on. -/
theorem bound_put {ty : MiniC.Ty} {slot : Slot} {n : Int} (hrepr : Represents ty slot.ty)
    (hlocal : slot.isGlobal = false) (hn : InRange ty n) :
    Bound (m.put slot n) (ty, some n) slot := by
  refine ⟨hrepr, ?_, ?_⟩
  · intro k hk
    cases hk
    exact hn
  · rw [put_local hlocal]
    exact if_pos rfl

variable (fn) in
/-- A store is passed and changes its slot. -/
theorem emit_store_passes {value : IR.Value} {slot : Slot} {n : Int} {x : Unit}
    (hs : Live s.builder) (hty : slot.ty.isInteger = true) (hlocal : slot.isGlobal = false)
    (hread : m.read value = .ok n) (h : emit (.store value slot) s = .ok (x, t)) :
    Passes fn s m t (m.put slot n) := by
  refine emit_passes hs rfl (Memory.exec_store hty hread) ?_ h
  intro i _
  rw [put_local hlocal]

variable (fn) in
/-- A slot that no name has is stored into with the value converted. -/
theorem store_passes {value result : IR.Value} {slot : Slot} {v : Source.Value}
    (hs : Live s.builder) (hheld : Held types sight s store m) (hv : Denotes s m value v)
    {ty : MiniC.Ty} (hrepr : Represents ty slot.ty) (hlocal : slot.isGlobal = false)
    (hfresh : ∀ other ∈ s.slots, other.name ≠ slot.name)
    (h : Lowering.store value slot s = .ok (result, t)) :
    ∃ m', Passes fn s m t m' ∧ Held types sight t store m'
      ∧ Bound m' (ty, some (Source.convert false v.1 ty v.2)) slot := by
  unfold Lowering.store at h
  simp only [bind_ok, pure_ok] at h
  obtain ⟨converted, u, hconvert, _, w, hemit, rfl, rfl⟩ := h
  obtain ⟨m₁, hpass, hsame, hconverted⟩ := convert_passes fn hs hv hrepr hconvert
  have hslots : u.slots = s.slots := by
    unfold State.slots
    rw [hpass.adds.scopes]
  have hheld₁ := (hheld.same hpass hsame).put hlocal (hslots ▸ hfresh)
    (Source.convert false v.1 ty v.2)
  have hpass' := emit_store_passes fn hpass.live hrepr.isInteger hlocal hconverted.read
    hemit
  exact ⟨_, hpass.trans hpass', hheld₁.grown hpass'.adds.grows hpass'.adds.scopes,
    bound_put hrepr hlocal hconverted.inRange⟩

/-- A declaration reserves a slot and stores what initializes it, if anything does;
only then is the name in sight. -/
theorem variableDecl_follower (hglobals : GlobalSlots types globals) {returnType : MiniC.Ty}
    {decl : VariableDecl} (hsane : Leaf.Sane types returnType sight (.variable decl)) :
    Follower types fn rounds repr sight (sight.bind decl.name decl.ty)
      (variableDecl globals decl)
      (do
        declare false types decl
        return .normal) := by
  intro s m store t x hs hheld hret hfn h
  have hty := hsane.whole.2 decl rfl
  have hsteady := variableDecl_steady globals decl _ _ _ h hs.started
  obtain ⟨ty, slot, u, v, hslotType, halloca, hinit, rfl⟩ := variableDecl_ok globals h
  have hrepr := slotType_whole hty hslotType
  have hlaid := hsteady.laid hheld.laid
  obtain ⟨m₁, hpass, hheld₁, hempty, -, hfresh⟩ := alloca_passes fn hs hheld halloca
  obtain ⟨hslotTy, hlocal⟩ : slot.ty = ty ∧ slot.isGlobal = false := by
    rw [(alloca_ok.1 halloca).1]
    exact ⟨rfl, rfl⟩
  subst hslotTy
  have hbuilder := builder_bind v decl.name slot
  have hfnv : Within fn v := by
    obtain ⟨rest, hrest⟩ := hfn
    rw [hbuilder] at hrest
    exact ⟨rest, hrest⟩
  -- what is reached in `v` is reached where the name has come into sight
  have hbind : ∀ {m' : Memory} {store' : Store} {value : Option Int}, Live v.builder →
      Held types sight v store' m' → Bound m' (decl.ty, value) slot →
      Follows types fn rounds v m' (v.bind decl.name slot) (sight.bind decl.name decl.ty)
        (.ok (.normal, store'.bind decl.name decl.ty value)) := by
    intro m' store' value hlive hheld' hbound
    refine ⟨m', ⟨by rwa [hbuilder], ?_⟩, hheld'.bind hlaid hbound⟩
    intro rest rest' hrest hrest'
    rw [hbuilder] at hrest'
    rw [hrest.functional hrest']
    exact .refl fn rest' m'
  rw [declare_run false types hty]
  cases hdecl : decl.init with
  | none =>
      rw [hdecl] at hinit
      obtain rfl : v = u := hinit
      refine hpass.reaches.follows hfnv ?_
      exact hbind hpass.live hheld₁ ⟨hrepr, nofun, hempty⟩
  | some init =>
      rw [hdecl] at hinit
      obtain ⟨value, w, stored, hvalue, hstore⟩ := hinit
      have hmem : init ∈ (Leaf.variable decl).exprs := by
        show init ∈ decl.init.toList
        rw [hdecl]
        exact List.mem_cons_self
      have hw := (expr_additive globals init).started hpass.live.started hvalue
      have hfnw := (store_additive _ _).within hw hstore hfnv
      have hfnu := (expr_additive globals init).within hpass.live.started hvalue hfnw
      refine hpass.reaches.follows hfnu ?_
      show Follows types fn rounds u m₁ (v.bind decl.name slot) (sight.bind decl.name decl.ty)
        (((eval (cells types) false init >>= fun v => modify fun store =>
          store.bind decl.name decl.ty (some (Source.convert false v.1 decl.ty v.2)))
            >>= fun _ => pure Outcome.normal) store)
      rw [bind_assoc]
      refine (expr_simulates hglobals (hsane.combined init hmem) (hsane.whole.1 init hmem)
        hpass.live hheld₁ hfnw hvalue).follows hfnw ?_
      rintro a store' m' hpass' ⟨hheld', hdenotes⟩
      have hfresh' : ∀ other ∈ w.slots, other.name ≠ slot.name := by
        have hslots : w.slots = s.slots := by
          unfold State.slots
          rw [hpass'.adds.scopes, hpass.adds.scopes]
        rw [hslots]
        exact hfresh
      obtain ⟨m'', hpass'', hheld'', hbound⟩ :=
        store_passes fn hpass'.live hheld' hdenotes hrepr hlocal hfresh' hstore
      exact hpass''.reaches.follows hfnv (hbind hpass''.live hheld'' hbound)

-- ================================================================= edges

/-- An instruction that was added is what comes, and behind it what came. -/
theorem emitted_ahead (hs : Live s.builder) {instr : Instr} {rest : List Instr}
    (h : Ahead (s.emitted instr).builder.function.blocks fn.blocks rest) :
    Ahead s.builder.function.blocks fn.blocks (instr :: rest) := by
  have hadded : (s.emitted instr).builder = added s.builder instr := emit_live hs instr
  rw [hadded] at h
  exact h.of_addToLast hs.started

/-- A jump that was added to a block without an end is what comes. -/
theorem jumped_ahead (hs : Live s.builder) {label : String} {rest : List Instr}
    (h : Ahead (s.jumped label).builder.function.blocks fn.blocks rest) :
    Ahead s.builder.function.blocks fn.blocks (.jump label :: rest) := by
  have hadded : (s.jumped label).builder = added s.builder (.jump label) := jumpTo_live hs label
  rw [hadded] at h
  exact h.of_addToLast hs.started

/-- An instruction is added to the last block. -/
theorem emitted_grows (hs : s.Started) (instr : Instr) :
    Grows s.builder (s.emitted instr).builder :=
  grows_emit hs instr

/-- A jump is added to the last block. -/
theorem jumped_grows (hs : s.Started) (label : String) :
    Grows s.builder (s.jumped label).builder :=
  grows_jumpTo hs label

/-- A block is added behind the others. -/
theorem opened_grows (hs : s.Started) (label : String) :
    Grows s.builder (s.opened label).builder :=
  grows_append hs label

/-- A block that was just opened is not at its end. -/
theorem opened_live (s : State) (label : String) : Live (s.opened label).builder :=
  live_append s.builder label

/-- A label whose block is opened is where jumps to it go; behind the block
before it nothing comes. -/
theorem opened_goto (hnodup : (fn.blocks.map (·.label)).Nodup)
    (hs : s.builder.function.blocks ≠ []) {label : String} {rest : List Instr}
    (h : Ahead (s.opened label).builder.function.blocks fn.blocks rest) :
    fn.goto label = .ok rest ∧ Ahead s.builder.function.blocks fn.blocks [] := by
  obtain ⟨hbefore, hmem⟩ := Ahead.of_append hs h
  exact ⟨goto_of_mem hnodup hmem, hbefore⟩

/-- Code that comes to its end and jumps reaches the block of the label. -/
theorem Follows.jump {other : String} {run : Except Source.Stop (Outcome × Store)}
    (h : Follows types fn rounds s m t sight run) {label : String} {behind : List Instr}
    (hgoto : fn.goto label = .ok behind)
    (hend : ∃ rest, Ahead ((t.jumped label).opened other).builder.function.blocks fn.blocks rest)
    (ht : t.Started) (hu : Live u.builder)
    (hbehind : Ahead u.builder.function.blocks fn.blocks behind)
    (hgrows : Grows t.builder u.builder) (hscopes : u.scopes = t.scopes) :
    Follows types fn rounds s m u sight run := by
  unfold Follows at h ⊢
  split at h
  · obtain ⟨m', hreaches, hheld⟩ := h
    refine ⟨m', ⟨hu, ?_⟩, hheld.grown hgrows hscopes⟩
    intro rest rest' hrest hrest'
    obtain ⟨after, hafter⟩ := hend
    have hjumped := (jumped_grows ht label).started
    have hclosed := jumped_ahead hreaches.live (Ahead.of_append hjumped hafter).1
    rw [← hbehind.functional hrest']
    exact (hreaches.leads rest _ hrest hclosed).trans (leads_jump hgoto)
  · exact h
  · exact h

/-- A branch that comes next reaches the block it goes to. -/
theorem branch_reaches {value : IR.Value} {onTrue onFalse : String} {n : Int}
    {behind : List Instr}
    (hs : Ahead s.builder.function.blocks fn.blocks [.branch value onTrue onFalse])
    (hread : m.read value = .ok n)
    (hgoto : fn.goto (if n = 0 then onFalse else onTrue) = .ok behind) (ht : Live t.builder)
    (hbehind : Ahead t.builder.function.blocks fn.blocks behind) : Reaches fn s m t m := by
  refine ⟨ht, fun rest rest' hrest hrest' => ?_⟩
  rw [hrest.functional hs, ← hbehind.functional hrest']
  exact leads_branch hread hgoto

/-- A jump that comes next reaches the block it goes to. -/
theorem jump_reaches {label : String} {behind : List Instr}
    (hs : Ahead s.builder.function.blocks fn.blocks [.jump label])
    (hgoto : fn.goto label = .ok behind) (ht : Live t.builder)
    (hbehind : Ahead t.builder.function.blocks fn.blocks behind) : Reaches fn s m t m := by
  refine ⟨ht, fun rest rest' hrest hrest' => ?_⟩
  rw [hrest.functional hs, ← hbehind.functional hrest']
  exact leads_jump hgoto

/-- Names do not end a block. -/
theorem live_congr {b b' : Builder} (h : Live b) (hsame : b'.function = b.function) : Live b' := by
  obtain ⟨hstarted, hrunning⟩ := h
  unfold Builder.terminated Builder.current? at hrunning
  refine ⟨by rwa [hsame], ?_⟩
  unfold Builder.terminated Builder.current?
  rwa [hsame]

/-- What runs long enough for many rounds does for fewer. -/
theorem Follows.mono {rounds' : Nat} {run : Except Source.Stop (Outcome × Store)}
    (h : Follows types fn rounds s m t sight run) (hle : rounds' ≤ rounds) :
    Follows types fn rounds' s m t sight run := by
  unfold Follows at h ⊢
  split at h
  · exact h
  · exact h
  · rename_i stop
    intro rest hrest
    have hfails := h rest hrest
    cases stop with
    | divide => exact hfails
    | stuck => exact hfails
    | unfinished => exact hfails.mono hle

/-- A branch is one more instruction in front of what follows. -/
theorem Follows.branch {value : IR.Value} {onTrue onFalse : String} {n : Int}
    {behind : List Instr} {run : Except Source.Stop (Outcome × Store)}
    (hs : Ahead s.builder.function.blocks fn.blocks [.branch value onTrue onFalse])
    (hread : m.read value = .ok n)
    (hgoto : fn.goto (if n = 0 then onFalse else onTrue) = .ok behind) (ht : Live t.builder)
    (hbehind : Ahead t.builder.function.blocks fn.blocks behind)
    (h : Follows types fn rounds t m u sight run) :
    Follows types fn (rounds + 1) s m u sight run := by
  have hreach := branch_reaches hs hread hgoto ht hbehind
  unfold Follows at h ⊢
  split at h
  · obtain ⟨m', hreaches, hheld⟩ := h
    exact ⟨m', hreach.trans hreaches ⟨behind, hbehind⟩, hheld⟩
  · intro rest hrest
    exact (hreach.leads rest behind hrest hbehind).returns (h behind hbehind)
  · rename_i stop
    intro rest hrest
    have hfails := h behind hbehind
    cases stop with
    | divide => exact hfails.leads (hreach.leads rest behind hrest hbehind)
    | stuck => exact hfails.leads (hreach.leads rest behind hrest hbehind)
    | unfinished =>
        rw [hrest.functional hs]
        exact lasts_branch hread hgoto hfails

-- ================================================================ stages

/-- Whether names were taken from one stage to another, and nothing else was
done. -/
structure NamesTaken (s t : State) : Prop where
  grows : Grows s.builder t.builder
  scopes : t.scopes = s.scopes
  same : t.builder.function = s.builder.function

theorem NamesTaken.refl (hs : s.Started) : NamesTaken s s := ⟨.refl hs, rfl, rfl⟩

/-- One more name is taken. -/
theorem NamesTaken.unique (h : NamesTaken s t) {base name : String}
    (hname : Lowering.unique base t = .ok (name, u)) : NamesTaken s u := by
  have htracks : Tracks t [] u [name] := unique_tracks hname
  obtain ⟨hgrows, hscopes, -⟩ := htracks h.grows.started
  refine ⟨h.grows.trans hgrows, hscopes.trans h.scopes, ?_⟩
  obtain ⟨-, rfl⟩ := unique_ok.1 hname
  exact h.same

/-- A jump is added behind a stage and the next block is opened. -/
theorem left_grows (hs : s.Started) (target label : String) :
    Grows s.builder ((s.jumped target).opened label).builder :=
  (jumped_grows hs target).trans (opened_grows (jumped_grows hs target).started label)

/-- The stages of a branch while it is lowered: the condition from `s` to `u`,
names up to `named`, and up to `v` the statements that run if the condition
holds, in a block that is opened behind the branch. -/
structure BranchStages (globals : List (String × Slot)) (e : MiniC.Expr) (body : List Stmt)
    (s : State) (value : IR.Value) (u named : State) (onTrue onFalse : String) (v : State) :
    Prop where
  tests : condition globals e s = .ok (value, u)
  tested : Adds s u
  names : NamesTaken u named
  runs : inScope (stmts globals body) ((named.emitted (.branch value onTrue onFalse)).opened onTrue)
    = .ok ((), v)

section Stages

variable {e : MiniC.Expr} {body : List Stmt} {value : IR.Value} {named v : State}
  {onTrue onFalse : String}

/-- The statements of a branch are lowered in a block behind its condition. -/
theorem BranchStages.entered (h : BranchStages globals e body s value u named onTrue onFalse v) :
    Grows u.builder ((named.emitted (.branch value onTrue onFalse)).opened onTrue).builder :=
  have hemitted := emitted_grows h.names.grows.started (.branch value onTrue onFalse)
  h.names.grows.trans (hemitted.trans (opened_grows hemitted.started onTrue))

/-- The statements of a branch only add to it. -/
theorem BranchStages.ran (h : BranchStages globals e body s value u named onTrue onFalse v) :
    Adds ((named.emitted (.branch value onTrue onFalse)).opened onTrue) v :=
  inScope_additive (stmts_steady globals body) _ _ _ h.runs h.entered.started

/-- The stages of an arm without an alternate. -/
theorem ifArm_alone_stages (hs : s.Started) {pos : Position} {x : Unit}
    (hconst : e.isConstant = false) (h : ifArm globals ⟨e, body, .none, pos⟩ s = .ok (x, t)) :
    ∃ value u named onTrue done v, BranchStages globals e body s value u named onTrue done v
      ∧ t = (v.jumped done).opened done := by
  obtain ⟨value, u, onTrue, u₁, done, u₂, v, hvalue, h₁, h₂, hinner, rfl⟩ :=
    ifArm_alone globals hconst h
  have hu := condition_additive globals e s value u hvalue hs
  have hnamed := ((NamesTaken.refl hu.grows.started).unique h₁).unique h₂
  exact ⟨value, u, u₂, onTrue, done, v, ⟨hvalue, hu, hnamed, hinner⟩, rfl⟩

/-- The stages of an arm with an alternate, which is lowered behind the
statements. -/
theorem ifArm_both_stages (hs : s.Started) {alternate : Alternate} {pos : Position} {x : Unit}
    (hconst : e.isConstant = false) (halternate : alternate ≠ .none)
    (h : ifArm globals ⟨e, body, alternate, pos⟩ s = .ok (x, t)) :
    ∃ value u named onTrue onFalse done v w,
      BranchStages globals e body s value u named onTrue onFalse v
        ∧ otherwise globals alternate ((v.jumped done).opened onFalse) = .ok ((), w)
        ∧ Adds ((v.jumped done).opened onFalse) w ∧ t = (w.jumped done).opened done := by
  obtain ⟨value, u, onTrue, u₁, onFalse, u₂, done, u₃, v, w, hvalue, h₁, h₂, h₃, hinner, houter,
    rfl⟩ := ifArm_both globals hconst halternate h
  have hu := condition_additive globals e s value u hvalue hs
  have hnamed := (((NamesTaken.refl hu.grows.started).unique h₁).unique h₂).unique h₃
  have hstages : BranchStages globals e body s value u u₃ onTrue onFalse v :=
    ⟨hvalue, hu, hnamed, hinner⟩
  have hother := left_grows hstages.ran.grows.started done onFalse
  exact ⟨value, u, u₃, onTrue, onFalse, done, v, w, hstages, houter,
    otherwise_additive globals alternate _ _ _ houter hother.started, rfl⟩

/-- The stages of a loop: those of a branch from its head on, where the names
have been taken already. -/
theorem loopSteps_stages (hs : s.Started) {x : Unit}
    (h : loopSteps globals e body s = .ok (x, t)) :
    ∃ test enter done named value u v, NamesTaken s named
      ∧ BranchStages globals e body ((named.jumped test).opened test) value u u enter done v
      ∧ t = (v.jumped test).opened done := by
  obtain ⟨test, s₁, enter, s₂, done, s₃, value, u, v, h₁, h₂, h₃, hvalue, hinner, rfl⟩ :=
    loopSteps_ok globals h
  have hnamed := (((NamesTaken.refl hs).unique h₁).unique h₂).unique h₃
  have hu := condition_additive globals e _ value u hvalue
    (left_grows hnamed.grows.started test test).started
  exact ⟨test, enter, done, s₃, value, u, v, hnamed,
    ⟨hvalue, hu, .refl hu.grows.started, hinner⟩, rfl⟩

variable (hnodup : (fn.blocks.map (·.label)).Nodup)

include hnodup

/-- Control that reaches a branch goes where its condition says, and the
instruction for that is one more. -/
theorem BranchStages.follows (h : BranchStages globals e body s value u named onTrue onFalse v)
    (hglobals : GlobalSlots types globals) {returnType : MiniC.Ty}
    (hsane : Leaf.Sane types returnType sight (.condition e)) (hs : Live s.builder)
    (hheld : Held types sight s store m)
    (hinto : Within fn ((named.emitted (.branch value onTrue onFalse)).opened onTrue))
    {other : State} {behind : List Instr} (hother : Live other.builder)
    (hbehind : Ahead other.builder.function.blocks fn.blocks behind)
    (hgoto : fn.goto onFalse = .ok behind) {run runElse : Run Store Outcome}
    (htrue : ∀ store' m',
      Held types sight ((named.emitted (.branch value onTrue onFalse)).opened onTrue) store' m' →
      Follows types fn rounds ((named.emitted (.branch value onTrue onFalse)).opened onTrue) m' t
        sight (run store'))
    (hfalse : ∀ store' m', Held types sight u store' m' →
      Follows types fn rounds other m' t sight (runElse store')) :
    Follows types fn (rounds + 1) s m t sight
      ((do if ← test false types e then run else runElse) store) := by
  obtain ⟨inside, hinside⟩ := id hinto
  have hemitted := emitted_grows h.names.grows.started (.branch value onTrue onFalse)
  obtain ⟨hgotoTrue, hclosed⟩ := opened_goto hnodup hemitted.started hinside
  have hfnu := hinto.of_grows h.entered
  refine (condition_simulates hglobals (hsane.combined e List.mem_cons_self)
    (hsane.whole.1 e List.mem_cons_self) hs hheld hfnu h.tests).follows hfnu ?_
  rintro holds store' m' hpass ⟨hheld', hread⟩
  have hbranch := emitted_ahead (live_congr hpass.live h.names.same) hclosed
  rw [h.names.same] at hbranch
  cases holds with
  | true =>
      exact Follows.branch hbranch hread (by exact hgotoTrue) (opened_live _ _) hinside
        (htrue store' m' (hheld'.grown h.entered h.names.scopes))
  | false =>
      exact Follows.branch hbranch hread (by exact hgoto) hother hbehind
        (hfalse store' m' hheld')

/-- Control that reaches a loop comes to the head of it. -/
theorem head_reaches {test : String} (h : NamesTaken s named) (hs : Live s.builder)
    (hfn : Within fn ((named.jumped test).opened test)) :
    Reaches fn s m ((named.jumped test).opened test) m := by
  obtain ⟨top, htop⟩ := hfn
  obtain ⟨hgoto, hclosed⟩ := opened_goto hnodup (jumped_grows h.grows.started test).started htop
  have hfirst := jumped_ahead (live_congr hs h.same) hclosed
  rw [h.same] at hfirst
  exact jump_reaches hfirst hgoto (opened_live _ _) htop

end Stages

-- ============================================================ statements

/-- An arm without an alternate: control goes past the statements if the condition
fails. -/
theorem arm_alone_follower (hglobals : GlobalSlots types globals)
    (hnodup : (fn.blocks.map (·.label)).Nodup) {returnType : MiniC.Ty} {e : MiniC.Expr}
    {consequent : List Stmt} {pos : Position} {run : Run Store Outcome}
    (hsane : Leaf.Sane types returnType sight (.condition e)) (hconst : e.isConstant = false)
    (hbody : Follower types fn rounds repr sight sight (inScope (stmts globals consequent)) run) :
    Follower types fn rounds repr sight sight (ifArm globals ⟨e, consequent, .none, pos⟩)
      (do if ← test false types e then run else return .normal) := by
  intro s m store t x hs hheld hret hfn h
  obtain ⟨value, u, named, onTrue, done, v, hstages, rfl⟩ :=
    ifArm_alone_stages hs.started hconst h
  have hv := hstages.ran
  have hdone := left_grows hv.grows.started done done
  obtain ⟨behind, hbehind⟩ := id hfn
  obtain ⟨hgoto, -⟩ := opened_goto hnodup (jumped_grows hv.grows.started done).started hbehind
  have hfnv := hfn.of_grows hdone
  have hinto := hstages.tested.grows.trans hstages.entered
  refine (hstages.follows hnodup hglobals hsane hs hheld (hfnv.of_grows hv.grows)
    (opened_live (v.jumped done) done) hbehind hgoto ?_ ?_).mono (Nat.le_succ rounds)
  · intro store' m' hheld'
    have hfollows := hbody (opened_live _ _) hheld' (hinto.returnType.trans hret) hfnv
      hstages.runs
    exact hfollows.jump hgoto ⟨behind, hbehind⟩ hv.grows.started (opened_live _ _) hbehind
      hdone rfl
  · intro store' m' hheld'
    exact ⟨m', (Passes.refl fn m' (opened_live _ _)).reaches,
      hheld'.grown (hstages.entered.trans (hv.grows.trans hdone))
        (hv.scopes.trans hstages.names.scopes)⟩

/-- An arm with an alternate: its end jumps over the alternate, where it has one. -/
theorem arm_both_follower (hglobals : GlobalSlots types globals)
    (hnodup : (fn.blocks.map (·.label)).Nodup) {returnType : MiniC.Ty} {e : MiniC.Expr}
    {consequent : List Stmt} {alternate : Alternate} {pos : Position}
    {run runElse : Run Store Outcome}
    (hsane : Leaf.Sane types returnType sight (.condition e)) (hconst : e.isConstant = false)
    (halternate : alternate ≠ .none)
    (hbody : Follower types fn rounds repr sight sight (inScope (stmts globals consequent)) run)
    (helse : Follower types fn rounds repr sight sight (otherwise globals alternate) runElse) :
    Follower types fn rounds repr sight sight (ifArm globals ⟨e, consequent, alternate, pos⟩)
      (do if ← test false types e then run else runElse) := by
  intro s m store t x hs hheld hret hfn h
  obtain ⟨value, u, named, onTrue, onFalse, done, v, w, hstages, houter, hw, rfl⟩ :=
    ifArm_both_stages hs.started hconst halternate h
  have hv := hstages.ran
  have hother := left_grows hv.grows.started done onFalse
  have hdone := left_grows hw.grows.started done done
  obtain ⟨behind, hbehind⟩ := id hfn
  obtain ⟨hgotoDone, -⟩ := opened_goto hnodup (jumped_grows hw.grows.started done).started hbehind
  have hfnw := hfn.of_grows hdone
  have hfnE := hfnw.of_grows hw.grows
  obtain ⟨outside, houtside⟩ := id hfnE
  obtain ⟨hgotoFalse, -⟩ := opened_goto hnodup (jumped_grows hv.grows.started done).started
    houtside
  have hfnv := hfnE.of_grows hother
  have hinto := hstages.tested.grows.trans hstages.entered
  refine (hstages.follows hnodup hglobals hsane hs hheld (hfnv.of_grows hv.grows)
    (opened_live (v.jumped done) onFalse) houtside hgotoFalse ?_ ?_).mono (Nat.le_succ rounds)
  · intro store' m' hheld'
    have hfollows := hbody (opened_live _ _) hheld' (hinto.returnType.trans hret) hfnv
      hstages.runs
    exact hfollows.jump hgotoDone ⟨outside, houtside⟩ hv.grows.started (opened_live _ _) hbehind
      (hother.trans (hw.grows.trans hdone)) hw.scopes
  · intro store' m' hheld'
    have hbefore := hv.grows.trans hother
    have hheldE := hheld'.grown (t := (v.jumped done).opened onFalse)
      (hstages.entered.trans hbefore) (hv.scopes.trans hstages.names.scopes)
    have hfollows := helse (opened_live _ _) hheldE ((hinto.trans hbefore).returnType.trans hret)
      hfnw houter
    exact hfollows.jump hgotoDone ⟨behind, hbehind⟩ hw.grows.started (opened_live _ _) hbehind
      hdone rfl

/-- A loop goes round as the source does: the test is reached in front of
the first round and behind every other. -/
theorem loop_follower (hglobals : GlobalSlots types globals)
    (hnodup : (fn.blocks.map (·.label)).Nodup) {returnType : MiniC.Ty} {e : MiniC.Expr}
    {body : List Stmt} {run : Run Store Outcome}
    (hsane : Leaf.Sane types returnType sight (.condition e))
    (hbody : Follower types fn rounds repr sight sight (inScope (stmts globals body)) run) :
    Follower types fn rounds repr sight sight (loopSteps globals e body)
      (iterate (test false types e) run rounds) := by
  intro s m store t x hs hheld hret hfn h
  obtain ⟨test, enter, done, named, value, u, v, hnamed, hstages, rfl⟩ :=
    loopSteps_stages hs.started h
  have hv := hstages.ran
  have hdone := left_grows hv.grows.started test done
  obtain ⟨behind, hbehind⟩ := id hfn
  obtain ⟨hgotoDone, hclosed⟩ := opened_goto hnodup (jumped_grows hv.grows.started test).started
    hbehind
  have hfnv := hfn.of_grows hdone
  have hfnE := hfnv.of_grows hv.grows
  have hinto := hstages.tested.grows.trans hstages.entered
  have hfnT := hfnE.of_grows hinto
  obtain ⟨top, htop⟩ := id hfnT
  obtain ⟨hgotoTest, -⟩ := opened_goto hnodup (jumped_grows hnamed.grows.started test).started htop
  have hhead := hnamed.grows.trans (left_grows hnamed.grows.started test test)
  have hretE := (hhead.trans hinto).returnType.trans hret
  have hrounds : ∀ r ≤ rounds, ∀ store m,
      Held types sight ((named.jumped test).opened test) store m →
      Follows types fn r ((named.jumped test).opened test) m ((v.jumped test).opened done) sight
        (iterate (Source.test false types e) run r store) := by
    intro r
    induction r with
    | zero =>
        intro _ store m hheld rest hrest fuel hfuel
        rw [Nat.le_zero.1 hfuel]
        rfl
    | succ r ih =>
        intro hr store m hheld
        refine hstages.follows hnodup hglobals hsane (opened_live _ _) hheld hfnE
          (opened_live (v.jumped test) done) hbehind hgotoDone ?_ ?_
        · intro store' m' hheldE
          have hround := (hbody (opened_live _ _) hheldE hretE hfnv hstages.runs).mono
            (Nat.le_of_succ_le hr)
          refine hround.onward hfnv ?_
          intro store'' m'' hlive hheld''
          have hreach : Reaches fn v m'' ((named.jumped test).opened test) m'' :=
            jump_reaches (jumped_ahead hlive hclosed) hgotoTest (opened_live _ _) htop
          have hscopes : v.scopes = ((named.jumped test).opened test).scopes :=
            hv.scopes.trans hstages.tested.scopes
          exact hreach.follows hfnT (ih (Nat.le_of_succ_le hr) store'' m''
            ⟨hheld.laid, hscopes ▸ hheld''.agrees, hheld''.sight⟩)
        · intro store' m' hheld'
          exact ⟨m', (Passes.refl fn m' (opened_live _ _)).reaches,
            hheld'.grown (hstages.entered.trans (hv.grows.trans hdone)) hv.scopes⟩
  exact (head_reaches hnodup hnamed hs hfnT).follows hfnT
    (hrounds rounds (Nat.le_refl _) store m (hheld.grown hhead hnamed.scopes))

/-- A loop whose condition folds to zero is no code. -/
theorem loop_never {e : MiniC.Expr} {run : Run Store Outcome} (hs : Live s.builder)
    (hheld : Held types sight s store m) (hconst : e.isConstant = true)
    (hwhole : e.Integral types sight) (hzero : e.foldsToZero = .ok true) :
    Follows types fn rounds s m s sight (iterate (test false types e) run rounds store) := by
  cases rounds with
  | zero =>
      intro rest hrest fuel hfuel
      rw [Nat.le_zero.1 hfuel]
      rfl
  | succ rounds =>
      have htest := test_constant false types hconst (hwhole.folds hconst) hzero store
      have hrun : iterate (test false types e) run (rounds + 1) store
          = .ok (.normal, store) := by
        show (test false types e >>= fun holds => if holds then _ else _) store = _
        show StateT.bind (test false types e) _ store = _
        unfold StateT.bind
        rw [htest]
        rfl
      rw [hrun]
      exact ⟨m, (Passes.refl fn m hs).reaches, hheld⟩

section Statements

variable {returnType : MiniC.Ty}

mutual

/-- The code of a statement does what the source says. -/
theorem stmt_follower (hglobals : GlobalSlots types globals)
    (hnodup : (fn.blocks.map (·.label)).Nodup) (hrepr : IR.Ty.ofSource? returnType = some repr) :
    ∀ {sight : Sight} {st : Stmt},
    st.Everywhere (Leaf.Sane types returnType) sight →
    Follower types fn rounds repr sight (st.declare sight) (stmt globals st)
      (Source.stmt false types returnType rounds st)
  | sight, .block body, h => by
      unfold stmt Source.stmt
      exact block_follower hglobals hnodup hrepr h
  | sight, .branch arm, h => by
      unfold stmt Source.stmt
      exact arm_follower hglobals hnodup hrepr h
  | sight, .loop e body pos, h => by
      intro s m store t x hs hheld hret hfn hstep
      unfold Source.stmt
      rcases loop_ok globals hstep with ⟨hconst, hzero, rfl⟩ | hsteps
      · exact loop_never hs hheld hconst (h.1.whole.1 e List.mem_cons_self) hzero
      · exact loop_follower hglobals hnodup h.1 (block_follower hglobals hnodup hrepr h.2) hs
          hheld hret hfn hsteps
  | sight, .ret value pos, h => by
      unfold stmt Source.stmt
      exact ret_follower hglobals hrepr h
  | sight, .variable decl, h => by
      unfold stmt Source.stmt
      exact variableDecl_follower hglobals h
  | sight, .expr e, h => by
      unfold stmt Source.stmt
      exact effect_follower hglobals h
  | sight, .function _, _ => by
      intro s m store t x hs hheld hret hfn hstep
      unfold stmt at hstep
      exact (fail_ok.1 hstep).elim
  | sight, .aggregate _, _ => by
      intro s m store t x hs hheld hret hfn hstep
      unfold stmt at hstep
      exact (fail_ok.1 hstep).elim

/-- The code of statements in a scope of their own. -/
theorem block_follower (hglobals : GlobalSlots types globals)
    (hnodup : (fn.blocks.map (·.label)).Nodup) (hrepr : IR.Ty.ofSource? returnType = some repr)
    {sight : Sight} {body : List Stmt}
    (h : Stmt.EverywhereIn (Leaf.Sane types returnType) ([] :: sight) body) :
    Follower types fn rounds repr sight sight (inScope (stmts globals body))
      (Source.inScope (Source.stmts false types returnType rounds body)) :=
  inScope_follower (stmts_follower hglobals hnodup hrepr h) (stmts_steady globals body) (by
    obtain ⟨scope, hscope⟩ := declareAll_cons [] sight body
    rw [hscope]
    rfl)

/-- The code of statements in sequence, by induction on their list; what is declared
by the first is in sight of the others. -/
theorem stmts_follower (hglobals : GlobalSlots types globals)
    (hnodup : (fn.blocks.map (·.label)).Nodup) (hrepr : IR.Ty.ofSource? returnType = some repr) :
    ∀ {sight : Sight} {body : List Stmt},
    Stmt.EverywhereIn (Leaf.Sane types returnType) sight body →
    Follower types fn rounds repr sight (declareAll sight body) (stmts globals body)
      (Source.stmts false types returnType rounds body)
  | sight, [], _ => by
      intro s m store t x hs hheld hret hfn hstep
      unfold stmts at hstep
      obtain ⟨-, rfl⟩ := pure_ok.1 hstep
      unfold Source.stmts
      exact ⟨m, (Passes.refl fn m hs).reaches, hheld⟩
  | sight, st :: rest, h => by
      intro s m store t x hs hheld hret hfn hstep
      unfold stmts at hstep
      obtain ⟨_, u, hst, hrest⟩ := bind_ok.1 hstep
      have hu := (stmt_steady globals st _ _ _ hst hs.started).grows
      have hfnu := hfn.of_grows (stmts_steady globals rest _ _ _ hrest hu.started).grows
      unfold Source.stmts
      refine (stmt_follower hglobals hnodup hrepr h.1 hs hheld hret hfnu hst).onward hfnu ?_
      intro store' m' hlive hheld'
      exact stmts_follower hglobals hnodup hrepr h.2 hlive hheld' (hu.returnType.trans hret) hfn
        hrest

/-- The code of an arm, by the cases of its condition: decided or not. -/
theorem arm_follower (hglobals : GlobalSlots types globals)
    (hnodup : (fn.blocks.map (·.label)).Nodup) (hrepr : IR.Ty.ofSource? returnType = some repr) :
    ∀ {sight : Sight} {arm : Arm},
    arm.Everywhere (Leaf.Sane types returnType) sight →
    Follower types fn rounds repr sight sight (ifArm globals arm)
      (Source.arm false types returnType rounds arm)
  | sight, ⟨e, consequent, alternate, pos⟩, ⟨hsane, hbody, helse⟩ => by
      unfold Source.arm
      have hthen := block_follower hglobals hnodup hrepr hbody
      have hother := otherwise_follower hglobals hnodup hrepr helse
      cases hconst : e.isConstant with
      | true =>
          intro s m store t x hs hheld hret hfn hstep
          obtain ⟨zero, hzero, hstep⟩ := ifArm_constant globals hconst hstep
          have htest := test_constant false types hconst
            ((hsane.whole.1 e List.mem_cons_self).folds hconst) hzero store
          have hrun : Simulates fn rounds s m s (test false types e store)
              fun holds store' m' => holds = !zero ∧ store' = store ∧ m' = m := by
            rw [htest]
            exact ⟨m, .refl fn m hs, rfl, rfl, rfl⟩
          have hfns : Within fn s := by
            cases zero with
            | true => exact (otherwise_additive globals alternate).within hs.started hstep hfn
            | false =>
                exact (inScope_additive (stmts_steady globals consequent)).within hs.started
                  hstep hfn
          refine hrun.follows hfns ?_
          rintro holds _ _ - ⟨rfl, rfl, rfl⟩
          cases zero with
          | true => exact hother hs hheld hret hfn hstep
          | false => exact hthen hs hheld hret hfn hstep
      | false =>
          cases alternate with
          | none =>
              unfold Source.otherwise
              exact arm_alone_follower hglobals hnodup hsane hconst hthen
          | block body =>
              exact arm_both_follower hglobals hnodup hsane hconst nofun hthen hother
          | elseIf arm =>
              exact arm_both_follower hglobals hnodup hsane hconst nofun hthen hother

/-- The code of an alternate, if there is one. -/
theorem otherwise_follower (hglobals : GlobalSlots types globals)
    (hnodup : (fn.blocks.map (·.label)).Nodup) (hrepr : IR.Ty.ofSource? returnType = some repr) :
    ∀ {sight : Sight} {alternate : Alternate},
    alternate.Everywhere (Leaf.Sane types returnType) sight →
    Follower types fn rounds repr sight sight (otherwise globals alternate)
      (Source.otherwise false types returnType rounds alternate)
  | sight, .none, _ => by
      intro s m store t x hs hheld hret hfn hstep
      unfold otherwise at hstep
      obtain ⟨-, rfl⟩ := pure_ok.1 hstep
      unfold Source.otherwise
      exact ⟨m, (Passes.refl fn m hs).reaches, hheld⟩
  | sight, .block body, h => by
      unfold otherwise Source.otherwise
      exact block_follower hglobals hnodup hrepr h
  | sight, .elseIf arm, h => by
      unfold otherwise Source.otherwise
      exact arm_follower hglobals hnodup hrepr h

end

end Statements

end MiniC.Lowering
