/-
Steps with a state that may fail, which is what both back ends are made of, and
what can be said of a step by what its parts do.

# Inversion

A successful run is taken apart here into the runs of its parts. A step is
applied to its start state, so that `step s = .ok (a, t)` reads: from `s` it
ends in `t` with the answer `a`.

# What is kept

A relation between the state before and the state behind that holds of every
part of a step holds of the whole (`Keeps`). This is how steps are shown to
leave something alone.

# Failing, yielding, needing

The other sections follow a condition along a sequence. `Triple` says where a
step ends and in which ways it fails, so its last part is told where the first
one ended. `Yields` says nothing of failures but has a result to talk about.
`Needs` goes the other way: what is known if a step succeeds at all. All three
have one lemma for each way to build a step, and the proofs about a stage apply
them along its definition.
Consumed by the proofs about both back ends.
-/

namespace MiniC.Steps

variable {σ ε α β : Type}

-- ============================================================ inversion

/-- A sequence succeeds exactly when its parts do, one after the other. -/
theorem bind_ok {x : StateT σ (Except ε) α} {f : α → StateT σ (Except ε) β}
    {s t : σ} {b : β} :
    (x >>= f) s = .ok (b, t) ↔ ∃ a u, x s = .ok (a, u) ∧ f a u = .ok (b, t) := by
  show (StateT.bind x f) s = _ ↔ _
  unfold StateT.bind
  cases hx : x s with
  | error e =>
      constructor
      · intro h
        cases h
      · rintro ⟨a, u, h, -⟩
        cases h
  | ok r =>
      obtain ⟨a, u⟩ := r
      constructor
      · intro h
        exact ⟨a, u, rfl, h⟩
      · rintro ⟨a', u', h, hf⟩
        cases h
        exact hf

/-- A step that only answers leaves the state. -/
theorem pure_ok {a b : α} {s t : σ} :
    (pure a : StateT σ (Except ε) α) s = .ok (b, t) ↔ a = b ∧ s = t := by
  show Except.ok (a, s) = Except.ok (b, t) ↔ _
  rw [Except.ok.injEq, Prod.mk.injEq]

/-- A step under a function answers with the function's value. -/
theorem map_ok {f : α → β} {x : StateT σ (Except ε) α} {s t : σ} {b : β} :
    (f <$> x) s = .ok (b, t) ↔ ∃ a, x s = .ok (a, t) ∧ f a = b := by
  show (StateT.map f x) s = _ ↔ _
  unfold StateT.map
  cases hx : x s with
  | error e =>
      constructor
      · intro h
        cases h
      · rintro ⟨a, h, -⟩
        cases h
  | ok r =>
      obtain ⟨a, u⟩ := r
      constructor
      · intro h
        cases h
        exact ⟨a, rfl, rfl⟩
      · rintro ⟨a', h, hf⟩
        cases h
        cases hf
        rfl

/-- A failure does not succeed. -/
theorem throw_ok {e : ε} {s : σ} {r : α × σ} :
    (throw e : StateT σ (Except ε) α) s = .ok r ↔ False := by
  constructor
  · intro h
    cases h
  · intro h
    cases h

/-- Looking at the state leaves it. -/
theorem get_ok {s t u : σ} :
    (get : StateT σ (Except ε) σ) s = .ok (u, t) ↔ s = u ∧ s = t := by
  show Except.ok (s, s) = Except.ok (u, t) ↔ _
  rw [Except.ok.injEq, Prod.mk.injEq]

/-- A step that looks at the state first goes on with it. -/
theorem get_bind (f : σ → StateT σ (Except ε) α) (s : σ) : (get >>= f) s = f s s := rfl

/-- Replacing the state. -/
theorem set_ok {s s' t : σ} {u : PUnit} :
    (set s' : StateT σ (Except ε) PUnit) s = .ok (u, t) ↔ s' = t := by
  show Except.ok ((⟨⟩ : PUnit), s') = Except.ok (u, t) ↔ _
  rw [Except.ok.injEq, Prod.mk.injEq]
  exact ⟨fun h => h.2, fun h => ⟨rfl, h⟩⟩

/-- Changing the state by a function that also answers. -/
theorem modifyGet_ok {f : σ → α × σ} {s t : σ} {a : α} :
    (modifyGet f : StateT σ (Except ε) α) s = .ok (a, t) ↔ f s = (a, t) := by
  show Except.ok (f s) = Except.ok (a, t) ↔ _
  rw [Except.ok.injEq]

/-- Changing the state by a function. -/
theorem modify_ok {f : σ → σ} {s t : σ} {u : PUnit} :
    (modify f : StateT σ (Except ε) PUnit) s = .ok (u, t) ↔ f s = t := by
  show Except.ok ((⟨⟩ : PUnit), f s) = Except.ok (u, t) ↔ _
  rw [Except.ok.injEq, Prod.mk.injEq]
  exact ⟨fun h => h.2, fun h => ⟨rfl, h⟩⟩

/-- A computation without a state, as a step, leaves the state. -/
theorem lift_ok {x : Except ε α} {s t : σ} {a : α} :
    (liftM x : StateT σ (Except ε) α) s = .ok (a, t) ↔ x = .ok a ∧ s = t := by
  show (StateT.lift x) s = _ ↔ _
  unfold StateT.lift
  cases x with
  | error e =>
      constructor
      · intro h
        cases h
      · rintro ⟨h, -⟩
        cases h
  | ok a' =>
      show Except.ok (a', s) = Except.ok (a, t) ↔ _
      rw [Except.ok.injEq, Prod.mk.injEq, Except.ok.injEq]

/-- A sequence without a state succeeds exactly when its parts do. -/
theorem except_bind_ok {x : Except ε α} {f : α → Except ε β} {b : β} :
    (x >>= f) = .ok b ↔ ∃ a, x = .ok a ∧ f a = .ok b := by
  cases x with
  | error e =>
      constructor
      · intro h
        cases h
      · rintro ⟨a, h, -⟩
        cases h
  | ok a =>
      constructor
      · intro h
        exact ⟨a, rfl, h⟩
      · rintro ⟨a', h, hf⟩
        cases h
        exact hf

/-- A computation under a function answers with the function's value. -/
theorem except_map_ok {f : α → β} {x : Except ε α} {b : β} :
    (f <$> x) = .ok b ↔ ∃ a, x = .ok a ∧ f a = b := by
  cases x with
  | error e =>
      constructor
      · intro h
        cases h
      · rintro ⟨a, h, -⟩
        cases h
  | ok a =>
      constructor
      · intro h
        cases h
        exact ⟨a, rfl, rfl⟩
      · rintro ⟨a', h, hf⟩
        cases h
        cases hf
        rfl

/-- What is left of a computation when its failure does not matter. -/
theorem toOption_some {x : Except ε α} {a : α} : x.toOption = some a ↔ x = .ok a := by
  cases x with
  | error e =>
      constructor
      · intro h
        cases h
      · intro h
        cases h
  | ok b =>
      show some b = some a ↔ _
      rw [Option.some.injEq, Except.ok.injEq]

/-- Why a result is missing, if it is. -/
def cause? {ε α : Type} : Except ε α → Option ε
  | .ok _ => none
  | .error e => some e

/-- The cause of a missing result. -/
theorem cause?_some {ε α : Type} {x : Except ε α} {e : ε} : cause? x = some e ↔ x = .error e := by
  cases x <;> simp [cause?]

-- ========================================================= what is kept

/-- Whether a step that succeeds leaves its states related. -/
def Keeps (R : σ → σ → Prop) (step : StateT σ (Except ε) α) : Prop :=
  ∀ s a t, step s = .ok (a, t) → R s t

variable {R : σ → σ → Prop}

/-- A sequence keeps what its parts keep. -/
theorem Keeps.bind (trans : ∀ a b c, R a b → R b c → R a c)
    {x : StateT σ (Except ε) α} {f : α → StateT σ (Except ε) β}
    (hx : Keeps R x) (hf : ∀ a, Keeps R (f a)) : Keeps R (x >>= f) := by
  intro s b t h
  obtain ⟨a, u, hxs, hfu⟩ := bind_ok.1 h
  exact trans s u t (hx s a u hxs) (hf a u b t hfu)

/-- A step under a function keeps what the step keeps. -/
theorem Keeps.map {f : α → β} {x : StateT σ (Except ε) α} (hx : Keeps R x) :
    Keeps R (f <$> x) := by
  intro s b t h
  obtain ⟨a, hxs, -⟩ := map_ok.1 h
  exact hx s a t hxs

-- ====================================================== the ways to fail

/-- Whether a computation fails in no other ways than the given ones. -/
def Only (ways : ε → Prop) (x : Except ε α) : Prop := ∀ e, x = .error e → ways e

/-- Whether a step that starts where `I` holds ends where `J` holds, or else
fails in one of the given ways. -/
structure Triple (I J : σ → Prop) (ways : ε → Prop) (step : StateT σ (Except ε) α) : Prop where
  ends : ∀ s a t, I s → step s = .ok (a, t) → J t
  fails : ∀ s, I s → Only ways (step s)

variable {ways : ε → Prop} {I J K : σ → Prop}

/-- What succeeds does not fail. -/
theorem Only.ok (a : α) : Only ways (.ok a : Except ε α) := by
  intro e h
  cases h

/-- A failure is of its own way. -/
theorem Only.error {e : ε} (h : ways e) : Only ways (.error e : Except ε α) := by
  intro e' he
  cases he
  exact h

/-- A sequence fails as its parts do. -/
theorem Only.bind {x : Except ε α} {f : α → Except ε β} (hx : Only ways x)
    (hf : ∀ a, x = .ok a → Only ways (f a)) : Only ways (x >>= f) := by
  intro e h
  cases hxs : x with
  | error e' =>
      rw [hxs] at h
      cases h
      exact hx e hxs
  | ok a =>
      rw [hxs] at h
      exact hf a hxs e h

/-- A computation under a function fails as the computation does. -/
theorem Only.map {x : Except ε α} {f : α → β} (hx : Only ways x) : Only ways (f <$> x) := by
  intro e h
  cases hxs : x with
  | error e' =>
      rw [hxs] at h
      cases h
      exact hx e hxs
  | ok a =>
      rw [hxs] at h
      cases h

/-- A choice fails as the part that is chosen. -/
theorem Only.ite {c : Prop} [Decidable c] {x y : Except ε α} (hx : c → Only ways x)
    (hy : ¬ c → Only ways y) : Only ways (if c then x else y) := by
  split
  · exact hx ‹_›
  · exact hy ‹_›

/-- A computation for each of several things fails as one of them. -/
theorem Only.mapM {γ : Type} {f : γ → Except ε α} {xs : List γ} (h : ∀ x ∈ xs, Only ways (f x)) :
    Only ways (xs.mapM f) := by
  induction xs with
  | nil => exact Only.ok []
  | cons x rest ih =>
      rw [List.mapM_cons]
      refine Only.bind (h x List.mem_cons_self) fun a _ => ?_
      refine Only.bind (ih fun y hy => h y (List.mem_cons_of_mem x hy)) fun as _ => ?_
      exact Only.ok (a :: as)

namespace Triple

/-- A sequence starts its second part where the first one ends. -/
theorem bind {x : StateT σ (Except ε) α} {f : α → StateT σ (Except ε) β}
    (hx : Triple I J ways x) (hf : ∀ a, Triple J K ways (f a)) : Triple I K ways (x >>= f) where
  ends s b t hs h := by
    obtain ⟨a, u, hxs, hfu⟩ := bind_ok.1 h
    exact (hf a).ends u b t (hx.ends s a u hs hxs) hfu
  fails s hs := Only.bind (hx.fails s hs) fun r hr =>
    (hf r.1).fails r.2 (hx.ends s r.1 r.2 hs hr)

theorem pure (h : ∀ s, I s → J s) (a : α) :
    Triple I J ways (pure a : StateT σ (Except ε) α) where
  ends s b t hs hstep := by
    obtain ⟨-, rfl⟩ := pure_ok.1 hstep
    exact h s hs
  fails s _ := Only.ok (a, s)

theorem map {x : StateT σ (Except ε) α} {f : α → β} (hx : Triple I J ways x) :
    Triple I J ways (f <$> x) := by
  rw [map_eq_pure_bind]
  exact hx.bind fun a => Triple.pure (fun _ h => h) (f a)

theorem throw {e : ε} (h : ways e) : Triple I J ways (throw e : StateT σ (Except ε) α) where
  ends _ _ _ _ hstep := (throw_ok.1 hstep).elim
  fails _ _ := Only.error h

theorem lift {x : Except ε α} (h : Only ways x) :
    Triple I I ways (liftM x : StateT σ (Except ε) α) where
  ends s b t hs hstep := by
    obtain ⟨-, rfl⟩ := lift_ok.1 hstep
    exact hs
  fails s _ := Only.bind h fun a _ => Only.ok (a, s)

/-- A step that looks at the state first starts where it looked. -/
theorem get {f : σ → StateT σ (Except ε) α} (h : ∀ s, I s → Triple (· = s) J ways (f s)) :
    Triple I J ways (get >>= f) where
  ends s a t hs hstep := by
    obtain ⟨_, _, hget, hf⟩ := bind_ok.1 hstep
    obtain ⟨rfl, rfl⟩ := get_ok.1 hget
    exact (h s hs).ends s a t rfl hf
  fails s hs := (h s hs).fails s rfl

/-- A step may be started in fewer states and left with less known. -/
theorem weaken {I' J' : σ → Prop} {x : StateT σ (Except ε) α} (h : Triple I J ways x)
    (hI : ∀ s, I' s → I s) (hJ : ∀ s, J s → J' s) : Triple I' J' ways x where
  ends s a t hs hstep := hJ t (h.ends s a t (hI s hs) hstep)
  fails s hs := h.fails s (hI s hs)

/-- A computation without a state, and what its answer leads to. -/
theorem lift_bind {x : Except ε α} {f : α → StateT σ (Except ε) β} (hx : Only ways x)
    (hf : ∀ a, x = .ok a → Triple I J ways (f a)) : Triple I J ways (liftM x >>= f) where
  ends s b t hs h := by
    obtain ⟨a, _, hxs, hfs⟩ := bind_ok.1 h
    obtain ⟨hxa, rfl⟩ := lift_ok.1 hxs
    exact (hf a hxa).ends s b t hs hfs
  fails s hs := by
    refine Only.bind (Only.bind hx fun a _ => Only.ok (a, s)) fun r hr => ?_
    obtain ⟨a, u⟩ := r
    obtain ⟨hxa, rfl⟩ := lift_ok.1 hr
    exact (hf a hxa).fails s hs

theorem modifyGet {f : σ → α × σ} (h : ∀ s, I s → J (f s).2) :
    Triple I J ways (modifyGet f : StateT σ (Except ε) α) where
  ends s a t hs hstep := by
    have hJ := h s hs
    rw [modifyGet_ok.1 hstep] at hJ
    exact hJ
  fails s _ := Only.ok (f s)

theorem ite {c : Prop} [Decidable c] {x y : StateT σ (Except ε) α} (hx : c → Triple I J ways x)
    (hy : ¬ c → Triple I J ways y) : Triple I J ways (if c then x else y) := by
  split
  · exact hx ‹_›
  · exact hy ‹_›

end Triple

-- ========================================================= what is yielded

/-- Whether a step that starts where `I` holds and succeeds ends where `J`
holds, with a result of which `A` holds. -/
def Yields (I : σ → Prop) (A : α → Prop) (J : σ → Prop) (step : StateT σ (Except ε) α) : Prop :=
  ∀ ⦃s a t⦄, I s → step s = .ok (a, t) → A a ∧ J t

namespace Yields

variable {A : α → Prop} {B : β → Prop}

theorem bind {x : StateT σ (Except ε) α} {f : α → StateT σ (Except ε) β} (hx : Yields I A J x)
    (hf : ∀ a, A a → Yields J B K (f a)) : Yields I B K (x >>= f) := by
  intro s b t hs h
  obtain ⟨a, u, hxs, hfu⟩ := bind_ok.1 h
  obtain ⟨ha, hu⟩ := hx hs hxs
  exact hf a ha hu hfu

theorem pure {a : α} (ha : A a) : Yields I A I (pure a : StateT σ (Except ε) α) := by
  intro s b t hs h
  obtain ⟨rfl, rfl⟩ := pure_ok.1 h
  exact ⟨ha, hs⟩

theorem throw (e : ε) : Yields I A J (throw e : StateT σ (Except ε) α) := by
  intro s a t _ h
  exact (throw_ok.1 h).elim

theorem lift {x : Except ε α} (h : ∀ a, x = .ok a → A a) :
    Yields I A I (liftM x : StateT σ (Except ε) α) := by
  intro s a t hs hstep
  obtain ⟨hx, rfl⟩ := lift_ok.1 hstep
  exact ⟨h a hx, hs⟩

theorem ite {c : Prop} [Decidable c] {x y : StateT σ (Except ε) α} (hx : c → Yields I A J x)
    (hy : ¬ c → Yields I A J y) : Yields I A J (if c then x else y) := by
  split
  · exact hx ‹_›
  · exact hy ‹_›

/-- A step that looks at the state first starts where it looked. -/
theorem get {f : σ → StateT σ (Except ε) α} (h : ∀ s, I s → Yields I A J (f s)) :
    Yields I A J (get >>= f) := by
  intro s a t hs hstep
  obtain ⟨_, _, hget, hf⟩ := bind_ok.1 hstep
  obtain ⟨rfl, rfl⟩ := get_ok.1 hget
  exact h s hs hs hf

theorem modifyGet {f : σ → α × σ} (h : ∀ s, I s → A (f s).1 ∧ J (f s).2) :
    Yields I A J (modifyGet f : StateT σ (Except ε) α) := by
  intro s a t hs hstep
  have hf := h s hs
  rwa [modifyGet_ok.1 hstep] at hf

/-- Of a result less may be known. -/
theorem weaken {A' : α → Prop} {x : StateT σ (Except ε) α} (h : Yields I A J x)
    (hA : ∀ a, A a → A' a) : Yields I A' J x := by
  intro s a t hs hstep
  obtain ⟨ha, ht⟩ := h hs hstep
  exact ⟨hA a ha, ht⟩

end Yields

-- ========================================================= what is needed

/-- Whether a step that starts where `I` holds succeeds only if something is the
case. -/
def Needs (I : σ → Prop) (what : Prop) (step : StateT σ (Except ε) α) : Prop :=
  ∀ ⦃s r⦄, I s → step s = .ok r → what

namespace Needs

variable {what what' : Prop}

/-- A sequence needs what its first part needs. -/
theorem first {x : StateT σ (Except ε) α} {f : α → StateT σ (Except ε) β} (hx : Needs I what x) :
    Needs I what (x >>= f) := by
  rintro s ⟨b, t⟩ hs h
  obtain ⟨a, u, hxs, -⟩ := bind_ok.1 h
  exact hx hs hxs

/-- It needs what its second part needs, if the first leaves what is known. -/
theorem next {x : StateT σ (Except ε) α} {f : α → StateT σ (Except ε) β}
    (hkeeps : Keeps (fun s t => I s → I t) x) (hf : ∀ a, Needs I what (f a)) :
    Needs I what (x >>= f) := by
  rintro s ⟨b, t⟩ hs h
  obtain ⟨a, u, hxs, hfu⟩ := bind_ok.1 h
  exact hf a (hkeeps s a u hxs hs) hfu

/-- Behind a computation without a state its answer is known. -/
theorem lift {x : Except ε α} {f : α → StateT σ (Except ε) β}
    (hf : ∀ a, x = .ok a → Needs I what (f a)) : Needs I what (liftM x >>= f) := by
  rintro s ⟨b, t⟩ hs h
  obtain ⟨a, _, hxs, hfs⟩ := bind_ok.1 h
  obtain ⟨hx, rfl⟩ := lift_ok.1 hxs
  exact hf a hx hs hfs

theorem map {x : StateT σ (Except ε) α} {f : α → β} (hx : Needs I what x) :
    Needs I what (f <$> x) := by
  rw [map_eq_pure_bind]
  exact hx.first

theorem throw (e : ε) : Needs I what (throw e : StateT σ (Except ε) α) := by
  intro s r _ h
  exact (throw_ok.1 h).elim

theorem ite {c : Prop} [Decidable c] {x y : StateT σ (Except ε) α} (hx : c → Needs I what x)
    (hy : ¬ c → Needs I what y) : Needs I what (if c then x else y) := by
  split
  · exact hx ‹_›
  · exact hy ‹_›

theorem and {x : StateT σ (Except ε) α} (h : Needs I what x) (h' : Needs I what' x) :
    Needs I (what ∧ what') x :=
  fun _ _ hs hstep => ⟨h hs hstep, h' hs hstep⟩

theorem weaken {x : StateT σ (Except ε) α} (h : Needs I what x) (himp : what → what') :
    Needs I what' x :=
  fun _ _ hs hstep => himp (h hs hstep)

end Needs

end MiniC.Steps
