/-
The names that a builder hands out (`uniques_handsOut`).

# One call

A call tries the candidates of its base from the base's counter on, and takes the first
that is free. The loop is written here without a bound (`Attempts`); it ends because
candidates differ and finitely many are taken (`attempts_unique`). The builder's own
version is given as many attempts as there are names taken and one more, which are never
spent.

# The first free name

All candidates below a counter are taken (`Skipped`), so it does not matter where the
loop starts: of all candidates of the base, the first free one is handed out. Names
handed out are therefore distinct, whatever suffixes spell other bases: a base with a
number behind it may be another base, and then the one call finds taken what the other
took.

# Names of a function

A function under construction uses names as labels, as slots and as parameters.
`Naming` says that all of these differ, and differ from those handed out for blocks that
are yet to be opened; and that they start as words do, which no temporary does.
Consumed by the proof that lowered functions give no name twice.
-/
import MiniC.Proofs.IR.Graph

namespace MiniC.IR

namespace Names

variable {n m : Names} {base name : String}

-- ============================================================ one call

/-- The counter of a base goes on by one. -/
def counted (n : Names) (base : String) : Names :=
  { n with counters := (base, n.counter base + 1) :: n.counters }

/-- The loop of a call: try the next candidate until one is free, and count
each try. -/
inductive Attempts (base : String) : Names → String → Names → Prop
  | free {n : Names} : candidate base (n.counter base) ∉ n.taken →
      Attempts base n (candidate base (n.counter base))
        { n.counted base with taken := candidate base (n.counter base) :: n.taken }
  | again {n n' : Names} {name : String} : candidate base (n.counter base) ∈ n.taken →
      Attempts base (n.counted base) name n' → Attempts base n name n'

/-- One call after the other. -/
inductive Calls : Names → List String → List String → Names → Prop
  | done (n : Names) : Calls n [] [] n
  | call {n n' n'' : Names} {base name : String} {bases names : List String} :
      Attempts base n name n' → Calls n' bases names n'' →
      Calls n (base :: bases) (name :: names) n''

/-- Whether the same names are taken and the same ones are tried next. -/
structure Same (n m : Names) : Prop where
  taken : n.taken = m.taken
  counter : ∀ base, n.counter base = m.counter base

/-- A counter that is raised is that of its base only. -/
theorem counter_cons (base other : String) (k : Nat) (counters : List (String × Nat))
    (taken : List String) :
    counter ⟨(base, k) :: counters, taken⟩ other
      = if other = base then k else counter ⟨counters, taken⟩ other := by
  unfold counter
  rw [List.lookup_cons]
  by_cases h : other = base
  · rw [if_pos h, h, BEq.rfl]
    rfl
  · rw [if_neg h, beq_false_of_ne h]

/-- What a call answers and leaves. -/
theorem unique_eq (n : Names) (base : String) : ∃ k,
    k = firstFree n.taken base (n.taken.length + 1) (n.counter base)
      ∧ n.unique base
        = (candidate base k, ⟨(base, k + 1) :: n.counters, candidate base k :: n.taken⟩) :=
  ⟨_, rfl, rfl⟩

/-- The first free candidate is none of those before the counter. -/
theorem le_firstFree (taken : List String) (base : String) : ∀ fuel k : Nat,
    k ≤ firstFree taken base fuel k
  | 0, k => Nat.le_refl k
  | fuel + 1, k => by
      unfold firstFree
      split
      · exact Nat.le_of_succ_le (le_firstFree taken base fuel (k + 1))
      · exact Nat.le_refl k

/-- A search that ends at a free name has met names that are taken. -/
theorem taken_below_firstFree {taken : List String} {base : String} : ∀ (fuel k j : Nat),
    k ≤ j → j < firstFree taken base fuel k → candidate base j ∈ taken
  | 0, k, j, hkj, hj => absurd hj (by rw [firstFree]; omega)
  | fuel + 1, k, j, hkj, hj => by
      unfold firstFree at hj
      split at hj
      · rename_i hk
        rcases Nat.eq_or_lt_of_le hkj with rfl | hlt
        · exact List.contains_iff_mem.1 hk
        · exact taken_below_firstFree fuel (k + 1) j hlt hj
      · omega

theorem Same.refl (n : Names) : Same n n := ⟨rfl, fun _ => rfl⟩

theorem Same.trans {k : Names} (h : Same n m) (h' : Same m k) : Same n k :=
  ⟨h.taken.trans h'.taken, fun base => (h.counter base).trans (h'.counter base)⟩

/-- The loop gets to the first candidate from the counter on that is free. -/
theorem attempts_candidate {k : Nat} (hk : n.counter base ≤ k)
    (hbelow : ∀ j, n.counter base ≤ j → j < k → candidate base j ∈ n.taken)
    (hfree : candidate base k ∉ n.taken) :
    ∃ n', Attempts base n (candidate base k) n'
      ∧ Same ⟨(base, k + 1) :: n.counters, candidate base k :: n.taken⟩ n' := by
  -- the induction is on the number of candidates in between
  obtain ⟨d, hd⟩ : ∃ d, k = n.counter base + d := ⟨k - n.counter base, by omega⟩
  induction d generalizing n with
  | zero =>
      obtain rfl : k = n.counter base := hd
      exact ⟨_, .free hfree, .refl _⟩
  | succ d ih =>
      have hcounter : (n.counted base).counter base = n.counter base + 1 := by
        unfold counted
        rw [counter_cons, if_pos rfl]
      obtain ⟨n', hattempts, hsame⟩ := @ih (n.counted base) (by omega)
        (fun j hj hlt => hbelow j (by omega) hlt) hfree (by omega)
      refine ⟨n', .again (hbelow _ (Nat.le_refl _) (by omega)) hattempts, Same.trans ?_ hsame⟩
      refine ⟨rfl, fun other => ?_⟩
      unfold counted
      rw [counter_cons, counter_cons, counter_cons]
      by_cases h : other = base
      · rw [if_pos h, if_pos h]
      · rw [if_neg h, if_neg h, if_neg h]

/-- The loop of a call ends, with the name that is handed out. -/
theorem attempts_unique (h : Same n m) (base : String) :
    ∃ m', Attempts base m (n.unique base).1 m' ∧ Same (n.unique base).2 m' := by
  obtain ⟨k, hk, hunique⟩ := unique_eq n base
  have hfree := n.unique_fresh base
  rw [hunique] at hfree ⊢
  have hle : m.counter base ≤ k := by
    rw [← h.counter, hk]
    exact le_firstFree _ _ _ _
  have hbelow : ∀ j, m.counter base ≤ j → j < k → candidate base j ∈ m.taken := by
    intro j hj hlt
    rw [← h.taken]
    exact taken_below_firstFree _ _ j (h.counter base ▸ hj) (hk ▸ hlt)
  obtain ⟨m', hattempts, hsame⟩ := attempts_candidate hle hbelow (h.taken ▸ hfree)
  refine ⟨m', hattempts, Same.trans ⟨by rw [h.taken], fun other => ?_⟩ hsame⟩
  rw [counter_cons, counter_cons]
  exact congrArg (if other = base then k + 1 else ·) (h.counter other)

-- ======================================================= the first free name

/-- Whether a name is the first of a base's candidates that is not in use. -/
def FirstFree (used : List String) (base name : String) : Prop :=
  ∃ k, name = candidate base k ∧ candidate base k ∉ used ∧ ∀ j < k, candidate base j ∈ used

/-- Whether each of the names, from the first on, is the first free one of
its base, where names given before are in use too. -/
inductive HandsOut : List String → List String → List String → Prop
  | done (used : List String) : HandsOut used [] []
  | next {used bases names : List String} {base name : String} :
      FirstFree used base name → HandsOut (name :: used) bases names →
      HandsOut used (base :: bases) (name :: names)

/-- Whether all candidates that will not be tried again are taken. -/
def Skipped (n : Names) : Prop := ∀ base, ∀ j < n.counter base, candidate base j ∈ n.taken

theorem skipped_reserving (taken : List String) : Skipped (reserving taken) :=
  fun _ j hj => absurd hj (Nat.not_lt_zero j)

theorem Skipped.below (h : Skipped n) {k j : Nat} {base : String}
    (hk : k = firstFree n.taken base (n.taken.length + 1) (n.counter base)) (hj : j < k) :
    candidate base j ∈ n.taken := by
  rcases Nat.lt_or_ge j (n.counter base) with hlt | hge
  · exact h base j hlt
  · exact taken_below_firstFree _ _ j hge (hk ▸ hj)

/-- A call keeps the counters below what is taken. -/
theorem Skipped.unique (h : Skipped n) (base : String) : Skipped (n.unique base).2 := by
  obtain ⟨k, hk, hunique⟩ := unique_eq n base
  rw [hunique]
  intro other j hj
  rw [counter_cons] at hj
  by_cases hother : other = base
  · subst hother
    rw [if_pos rfl] at hj
    rcases Nat.eq_or_lt_of_le (Nat.le_of_lt_succ hj) with rfl | hlt
    · exact List.mem_cons_self
    · exact List.mem_cons_of_mem _ (h.below hk hlt)
  · rw [if_neg hother] at hj
    exact List.mem_cons_of_mem _ (h other j hj)

/-- A call hands out the first free name of its base. -/
theorem Skipped.firstFree (h : Skipped n) (base : String) :
    FirstFree n.taken base (n.unique base).1 := by
  obtain ⟨k, hk, hunique⟩ := unique_eq n base
  have hfree := n.unique_fresh base
  rw [hunique] at hfree ⊢
  exact ⟨k, rfl, hfree, fun j hj => h.below hk hj⟩

/-- Names handed out one after the other differ, from each other and from
those in use before. -/
theorem HandsOut.distinct {used bases names : List String} (h : HandsOut used bases names) :
    names.Nodup ∧ ∀ name ∈ names, name ∉ used := by
  induction h with
  | done used => exact ⟨List.nodup_nil, nofun⟩
  | next hfirst _ ih =>
      obtain ⟨hnodup, hfresh⟩ := ih
      obtain ⟨k, rfl, hfree, -⟩ := hfirst
      refine ⟨List.nodup_cons.2 ⟨fun hmem => hfresh _ hmem List.mem_cons_self, hnodup⟩, ?_⟩
      intro name hname
      rcases List.mem_cons.1 hname with rfl | hname
      · exact hfree
      · exact fun hused => hfresh name hname (List.mem_cons_of_mem _ hused)

end Names

-- ======================================================== calls in sequence

open Names

/-- The names that a builder hands out for bases, one after the other. -/
def Builder.uniques (b : Builder) : List String → List String × Builder
  | [] => ([], b)
  | base :: bases =>
    let (name, b) := b.unique base
    let (names, b) := b.uniques bases
    (name :: names, b)

/-- A sequence of calls comes to its end, and each call hands out the first
free name of its base. -/
theorem uniques_handsOut (bases : List String) {b : Builder} {m : Names} (h : Skipped b.names)
    (hsame : Same b.names m) :
    (∃ m', Calls m bases (b.uniques bases).1 m')
      ∧ HandsOut b.names.taken bases (b.uniques bases).1 := by
  induction bases generalizing b m with
  | nil => exact ⟨⟨m, .done m⟩, .done _⟩
  | cons base bases ih =>
      obtain ⟨m', hattempts, hsame'⟩ := attempts_unique hsame base
      have hrest := @ih (b.unique base).2 m' (h.unique base) hsame'
      obtain ⟨⟨m'', hcalls⟩, hhands⟩ := hrest
      exact ⟨⟨m'', .call hattempts hcalls⟩, .next (h.firstFree base) hhands⟩

/-- A function starts with a call for its entry block. -/
theorem start_handsOut (name : String) (returnType : Ty) (params : List (String × Ty))
    (bases : List String) :
    let b := Builder.start name returnType params
    let names := labels b ++ (b.uniques bases).1
    (∃ m', Calls (.reserving (params.map (·.1))) ("entry" :: bases) names m')
      ∧ HandsOut (params.map (·.1)) ("entry" :: bases) names := by
  let bare : Names := .reserving (params.map (·.1))
  have hskipped : Skipped bare := skipped_reserving _
  obtain ⟨m', hattempts, hsame⟩ := attempts_unique (Same.refl bare) "entry"
  obtain ⟨⟨m'', hcalls⟩, hhands⟩ := uniques_handsOut bases
    (b := Builder.start name returnType params) (hskipped.unique "entry") hsame
  exact ⟨⟨m'', .call hattempts hcalls⟩, .next (hskipped.firstFree "entry") hhands⟩

-- ============================================================ names given

/-- The name of the slot that an instruction reserves. -/
def Instr.reserves? : Instr → Option String
  | .alloca slot => some slot.name
  | _ => none

/-- The names of the slots that blocks reserve, in the order of the
instructions. -/
def reserved (blocks : List Block) : List String := collected Instr.reserves? blocks

/-- The names that a function gives: to its blocks, its slots, its parameters
and its temporaries. -/
def Function.names (fn : Function) : List String :=
  fn.blocks.map (·.label) ++ reserved fn.blocks ++ fn.params.map (·.1)
    ++ (definitions fn.blocks).map toString

/-- Whether a name does not start with a digit. -/
def Wordy (name : String) : Prop := ∃ c ∈ name.toList.head?, c.isDigit = false

instance (name : String) : Decidable (Wordy name) :=
  decidable_of_iff (name.toList.head?.any (fun c => !c.isDigit) = true)
    (by simp [Wordy, Option.any_eq_true])

theorem Wordy.append {name : String} (h : Wordy name) (suffix : String) :
    Wordy (name ++ suffix) := by
  obtain ⟨c, hc, hdigit⟩ := h
  refine ⟨c, ?_, hdigit⟩
  rw [String.toList_append, List.head?_append, Option.mem_def.1 hc]
  rfl

/-- A base with a number behind it still starts as a word. -/
theorem Wordy.candidate {base : String} (h : Wordy base) (k : Nat) :
    Wordy (Names.candidate base k) := by
  unfold Names.candidate
  split
  · exact h
  · exact h.append _

/-- The number of a temporary starts with a digit. -/
theorem not_wordy_toString (k : Nat) : ¬ Wordy (toString k) := by
  rintro ⟨c, hc, hdigit⟩
  have hmem : c ∈ Nat.toDigits 10 k := by
    rw [← Nat.toList_repr]
    exact List.mem_of_mem_head? hc
  rw [Nat.isDigit_of_mem_toDigits (by decide) (by decide) hmem] at hdigit
  cases hdigit

/-- Names that are handed out start as their bases do. -/
theorem wordy_unique {n : Names} {base : String} (h : ∀ name ∈ n.taken, Wordy name)
    (hbase : Wordy base) : ∀ name ∈ (n.unique base).2.taken, Wordy name := by
  obtain ⟨k, -, hunique⟩ := n.unique_eq base
  rw [hunique]
  exact List.forall_mem_cons.2 ⟨hbase.candidate k, h⟩

-- ===================================================== under construction

/-- Whether the labels and slots of a function differ, from each other and
from the names pending, all of them are handed out, and none is a number. -/
structure Naming (b : Builder) (pending : List String) : Prop where
  started : b.function.blocks ≠ []
  tidy : Tidy b (reserved b.function.blocks ++ pending)
  wordy : ∀ name ∈ b.names.taken, Wordy name

namespace Naming

variable {b : Builder} {pending pending' : List String}

/-- At the start the parameters are pending; nothing may use their names. -/
theorem start (name : String) (returnType : Ty) {params : List (String × Ty)}
    (hnodup : (params.map (·.1)).Nodup) (hwordy : ∀ param ∈ params.map (·.1), Wordy param) :
    Naming (.start name returnType params) (params.map (·.1)) := by
  let bare : Builder := ⟨⟨name, returnType, params, []⟩, .reserving (params.map (·.1)), 0⟩
  have hbare : Tidy bare (params.map (·.1)) := ⟨hnodup, fun _ h => h⟩
  exact ⟨(live_append _ _).started, tidy_append (tidy_unique hbare "entry"),
    wordy_unique hwordy (by decide)⟩

/-- Names are pending in no order. -/
theorem perm (h : Naming b pending) (hperm : pending.Perm pending') : Naming b pending' :=
  ⟨h.started, h.tidy.perm (hperm.append_left _), h.wordy⟩

/-- The name of a base that is no number is handed out. -/
theorem unique (h : Naming b pending) (base : String) (hbase : Wordy base) :
    Naming (b.unique base).2 ((b.unique base).1 :: pending) :=
  ⟨h.started, (tidy_unique h.tidy base).perm List.perm_middle.symm,
    wordy_unique h.wordy hbase⟩

/-- A label that was pending is used by its block. -/
theorem append {label : String} (h : Naming b (label :: pending)) :
    Naming (b.append label) pending := by
  refine ⟨(live_append b label).started, ?_, h.wordy⟩
  unfold reserved
  rw [collected_append]
  exact tidy_append (h.tidy.perm List.perm_middle)

theorem freshTemp (h : Naming b pending) : Naming b.freshTemp.2 pending :=
  ⟨h.started, ⟨h.tidy.nodup, h.tidy.taken⟩, h.wordy⟩

/-- An instruction may reserve a slot whose name is pending. -/
theorem emit {instr : Instr} (h : Naming b (instr.reserves?.toList ++ pending)) :
    Naming (b.emit instr) pending := by
  have htidy := tidy_emit h.started h.tidy instr
  refine ⟨(grows_emit h.started instr).started, ?_, ?_⟩
  · unfold reserved at htidy ⊢
    rwa [collected_emit Instr.reserves? h.started, List.append_assoc]
  · cases hend : b.terminated with
    | false =>
        rw [emit_live ⟨h.started, hend⟩]
        exact h.wordy
    | true =>
        rw [emit_dead hend]
        exact (h.unique "unreachable" (by decide)).wordy

/-- A jump gives no name. -/
theorem jumpTo (h : Naming b pending) (label : String) : Naming (b.jumpTo label) pending := by
  unfold Builder.jumpTo
  split
  · exact h
  · exact h.emit

end Naming

end MiniC.IR
