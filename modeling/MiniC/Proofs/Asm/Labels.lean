/-
Labels and jumps of a list of lines, and what consolidation does to them.

# Aliases

Of two labels in a row the first becomes an alias of the second, and a jump to it is
sent on. Such a chain may go on over several labels. When no label is defined twice,
the chain that starts at a label stays among the labels of the list and ends within
as many links as there are aliases, at a label that stays (`resolve_mem`): the alias
added for the first of two labels in a row points into the rest of the list and is
never met again (`resolve_append`).

# Consolidation

Redirecting the jumps and leaving out the labels that are aliases, and then leaving
out the jumps to the line behind them, changes labels and targets in a way that can
be told without the lines: labels are those that are no alias, and targets are the
ends of their chains (`labels_redirect`, `targets_redirect`). So consolidation keeps
labels distinct, and leaves a jump without its label exactly where there was one
before (`resolved_mergeLabels`). Consumed by the proofs about generated functions.
-/
import MiniC.Asm.Line

namespace MiniC.Asm.Line

variable {ι : Type}

-- =================================================== labels and targets

/-- The labels that lines define. -/
def labels (ls : List (Line ι)) : List Nat := ls.filterMap defines?

/-- The labels that lines jump to. -/
def targets (ls : List (Line ι)) : List Nat := ls.filterMap target?

/-- Whether every jump goes to a label that the lines define. -/
def Resolved (ls : List (Line ι)) : Prop := ∀ n ∈ targets ls, n ∈ labels ls

@[simp] theorem labels_nil : labels ([] : List (Line ι)) = [] := rfl

@[simp] theorem labels_append (a b : List (Line ι)) :
    labels (a ++ b) = labels a ++ labels b :=
  List.filterMap_append

@[simp] theorem labels_label (n : Nat) (ls : List (Line ι)) :
    labels (.label n :: ls) = n :: labels ls := rfl

@[simp] theorem labels_jump (kind : Jump) (n : Nat) (ls : List (Line ι)) :
    labels (.jump kind n :: ls) = labels ls := rfl

@[simp] theorem labels_insn (i : ι) (ls : List (Line ι)) :
    labels (.insn i :: ls) = labels ls := rfl

@[simp] theorem labels_epilogue (ls : List (Line ι)) :
    labels (.epilogue :: ls) = labels ls := rfl

@[simp] theorem targets_nil : targets ([] : List (Line ι)) = [] := rfl

@[simp] theorem targets_append (a b : List (Line ι)) :
    targets (a ++ b) = targets a ++ targets b :=
  List.filterMap_append

@[simp] theorem targets_label (n : Nat) (ls : List (Line ι)) :
    targets (.label n :: ls) = targets ls := rfl

@[simp] theorem targets_jump (kind : Jump) (n : Nat) (ls : List (Line ι)) :
    targets (.jump kind n :: ls) = n :: targets ls := rfl

@[simp] theorem targets_insn (i : ι) (ls : List (Line ι)) :
    targets (.insn i :: ls) = targets ls := rfl

@[simp] theorem targets_epilogue (ls : List (Line ι)) :
    targets (.epilogue :: ls) = targets ls := rfl

@[simp] theorem labels_map_insn (is : List ι) : labels (is.map .insn) = [] := by
  induction is with
  | nil => rfl
  | cons i is ih => rw [List.map_cons, labels_insn, ih]

@[simp] theorem targets_map_insn (is : List ι) : targets (is.map .insn) = [] := by
  induction is with
  | nil => rfl
  | cons i is ih => rw [List.map_cons, targets_insn, ih]

/-- The labels of the rest are labels of the whole. -/
theorem labels_cons_subset (line : Line ι) (ls : List (Line ι)) :
    labels ls ⊆ labels (line :: ls) := by
  intro n hn
  cases line with
  | label m => exact List.mem_cons_of_mem m hn
  | jump kind m => exact hn
  | insn i => exact hn
  | epilogue => exact hn

-- ============================================================== aliases

/-- An alias leads from a label to a label. -/
theorem mem_aliases {ls : List (Line ι)} {a b : Nat} (h : (a, b) ∈ aliases ls) :
    a ∈ labels ls ∧ b ∈ labels ls := by
  fun_induction aliases ls with
  | case1 c d rest ih =>
      rcases List.mem_append.1 h with h | h
      · obtain ⟨ha, hb⟩ := ih h
        exact ⟨List.mem_cons_of_mem c ha, List.mem_cons_of_mem c hb⟩
      · cases List.mem_singleton.1 h
        exact ⟨List.mem_cons_self, List.mem_cons_of_mem _ List.mem_cons_self⟩
  | case2 line rest _ ih =>
      obtain ⟨ha, hb⟩ := ih h
      exact ⟨labels_cons_subset line rest ha, labels_cons_subset line rest hb⟩
  | case3 => cases h

/-- A link that is found is there. -/
theorem lookup_mem {links : List (Nat × Nat)} {a b : Nat} (h : links.lookup a = some b) :
    (a, b) ∈ links := by
  induction links with
  | nil => cases h
  | cons link rest ih =>
      obtain ⟨c, d⟩ := link
      rw [List.lookup_cons] at h
      by_cases hc : a = c
      · subst hc
        rw [BEq.rfl] at h
        cases h
        exact List.mem_cons_self
      · rw [beq_false_of_ne hc] at h
        exact List.mem_cons_of_mem _ (ih h)

/-- A number that is no label has no alias. -/
theorem lookup_aliases_none {ls : List (Line ι)} {n : Nat} (h : n ∉ labels ls) :
    (aliases ls).lookup n = none := by
  cases hn : (aliases ls).lookup n with
  | none => rfl
  | some m => exact absurd (mem_aliases (lookup_mem hn)).1 h

/-- A label that is no alias is the end of its chain. -/
theorem resolve_of_lookup_none {links : List (Nat × Nat)} {n : Nat}
    (h : links.lookup n = none) (fuel : Nat) : resolve links fuel n = n := by
  cases fuel with
  | zero => rfl
  | succ fuel =>
      unfold resolve
      rw [h]

/-- One more alias at the end does not matter to a chain that stays away
from its label. -/
theorem resolve_append {links : List (Nat × Nat)} {S : List Nat} {a b : Nat}
    (closed : ∀ n ∈ S, ∀ m, links.lookup n = some m → m ∈ S) (ha : a ∉ S)
    (fuel n : Nat) (hn : n ∈ S) :
    (links ++ [(a, b)]).lookup n = links.lookup n
      ∧ resolve (links ++ [(a, b)]) fuel n = resolve links fuel n := by
  have hlookup : ∀ n ∈ S, (links ++ [(a, b)]).lookup n = links.lookup n := by
    intro n hn
    have hne : n ≠ a := fun h => ha (h ▸ hn)
    rw [List.lookup_append, List.lookup_cons, beq_false_of_ne hne, List.lookup_nil]
    cases links.lookup n <;> rfl
  refine ⟨hlookup n hn, ?_⟩
  induction fuel generalizing n with
  | zero => rfl
  | succ fuel ih =>
      unfold resolve
      rw [hlookup n hn]
      cases hm : links.lookup n with
      | none => rfl
      | some m => exact ih m (closed n hn m hm)

/-- With distinct labels, the chain of aliases from a label ends at a label
that has no alias, within as many links as there are aliases. -/
theorem resolve_mem {ls : List (Line ι)} (nodup : (labels ls).Nodup) {n : Nat}
    (hn : n ∈ labels ls) {fuel : Nat} (hfuel : (aliases ls).length ≤ fuel) :
    resolve (aliases ls) fuel n ∈ labels ls
      ∧ (aliases ls).lookup (resolve (aliases ls) fuel n) = none := by
  fun_induction aliases ls generalizing n fuel with
  | case1 a b rest ih =>
      obtain ⟨ha, hrest⟩ := List.nodup_cons.1 nodup
      have closed : ∀ n ∈ labels (.label b :: rest), ∀ m,
          (aliases (.label b :: rest)).lookup n = some m → m ∈ labels (.label b :: rest) :=
        fun n _ m hm => (mem_aliases (lookup_mem hm)).2
      rw [List.length_append] at hfuel
      have hlen : (aliases (.label b :: rest)).length + 1 ≤ fuel := hfuel
      -- a chain inside the rest of the list never meets the new alias
      have inner : ∀ m ∈ labels (.label b :: rest), ∀ k,
          (aliases (.label b :: rest)).length ≤ k →
          resolve (aliases (.label b :: rest) ++ [(a, b)]) k m ∈ labels (.label b :: rest)
            ∧ (aliases (.label b :: rest) ++ [(a, b)]).lookup
                (resolve (aliases (.label b :: rest) ++ [(a, b)]) k m) = none := by
        intro m hm k hk
        obtain ⟨hmem, hnone⟩ := ih hrest hm hk
        rw [(resolve_append closed ha k m hm).2]
        exact ⟨hmem, (resolve_append closed ha k _ hmem).1.trans hnone⟩
      rcases List.mem_cons.1 hn with rfl | hn
      · -- the new alias is the chain's first link
        obtain ⟨k, rfl⟩ : ∃ k, fuel = k + 1 := ⟨fuel - 1, by omega⟩
        have hfirst : (aliases (.label b :: rest) ++ [(n, b)]).lookup n = some b := by
          rw [List.lookup_append, lookup_aliases_none ha, List.lookup_cons, BEq.rfl]
          rfl
        unfold resolve
        rw [hfirst]
        obtain ⟨hmem, hnone⟩ := inner b List.mem_cons_self k (by omega)
        exact ⟨List.mem_cons_of_mem n hmem, hnone⟩
      · obtain ⟨hmem, hnone⟩ := inner n hn fuel (by omega)
        exact ⟨List.mem_cons_of_mem a hmem, hnone⟩
  | case2 line rest hline ih =>
      have hrest : (labels rest).Nodup := by
        cases line with
        | label m => exact (List.nodup_cons.1 nodup).2
        | jump kind m => exact nodup
        | insn i => exact nodup
        | epilogue => exact nodup
      by_cases hmem : n ∈ labels rest
      · obtain ⟨hin, hnone⟩ := ih hrest hmem hfuel
        exact ⟨labels_cons_subset line rest hin, hnone⟩
      · have hnone := lookup_aliases_none hmem
        rw [resolve_of_lookup_none hnone]
        exact ⟨hn, hnone⟩
  | case3 => cases hn

-- ======================================================== consolidation

/-- A label stays if it is no alias. -/
theorem redirect_label (links : List (Nat × Nat)) (n : Nat) (ls : List (Line ι)) :
    redirect links (.label n :: ls)
      = if (links.lookup n).isSome then redirect links ls else .label n :: redirect links ls := by
  unfold redirect
  rw [List.filterMap_cons]
  cases hn : (links.lookup n).isSome with
  | false => simp only [hn, Bool.false_eq_true, if_false]
  | true => simp only [hn, if_true]

/-- The labels that stay are those that are no alias. -/
theorem labels_redirect (links : List (Nat × Nat)) (ls : List (Line ι)) :
    labels (redirect links ls) = (labels ls).filter fun n => (links.lookup n).isNone := by
  induction ls with
  | nil => rfl
  | cons line ls ih =>
      cases line with
      | label n =>
          rw [redirect_label, labels_label, List.filter_cons]
          cases links.lookup n with
          | none => exact congrArg _ ih
          | some m => exact ih
      | jump kind n => exact ih
      | insn i => exact ih
      | epilogue => exact ih

/-- A jump goes to the end of its target's chain. -/
theorem targets_redirect (links : List (Nat × Nat)) (ls : List (Line ι)) :
    targets (redirect links ls) = (targets ls).map (resolve links links.length) := by
  induction ls with
  | nil => rfl
  | cons line ls ih =>
      cases line with
      | label n =>
          rw [redirect_label]
          cases (links.lookup n).isSome with
          | false => exact ih
          | true => exact ih
      | jump kind n => exact congrArg _ ih
      | insn i => exact ih
      | epilogue => exact ih

/-- Leaving out jumps leaves the labels. -/
theorem labels_dropJumps (ls : List (Line ι)) : labels (dropJumps ls) = labels ls := by
  induction ls with
  | nil => rfl
  | cons line ls ih =>
      unfold dropJumps
      split
      · split
        · rw [labels_jump, ih]
        · rw [labels_jump, labels_jump, ih]
      · cases line <;> simp [ih]

/-- A jump is dropped only in front of its label. -/
theorem mem_targets_dropJumps {ls : List (Line ι)} {n : Nat} (hn : n ∈ targets ls) :
    n ∈ targets (dropJumps ls) ∨ n ∈ labels ls := by
  induction ls with
  | nil => cases hn
  | cons line ls ih =>
      unfold dropJumps
      split
      · rename_i m k rest
        rw [targets_jump] at hn
        split
        · rename_i hmk
          subst hmk
          rcases List.mem_cons.1 hn with rfl | hn
          · exact Or.inr List.mem_cons_self
          · exact ih hn
        · rw [targets_jump]
          rcases List.mem_cons.1 hn with rfl | hn
          · exact Or.inl List.mem_cons_self
          · exact (ih hn).imp (List.mem_cons_of_mem m) id
      · cases line with
        | label m => exact (ih hn).imp id (List.mem_cons_of_mem m)
        | jump kind m =>
            rcases List.mem_cons.1 hn with rfl | hn
            · exact Or.inl List.mem_cons_self
            · exact (ih hn).imp (List.mem_cons_of_mem m) id
        | insn i => exact ih hn
        | epilogue => exact ih hn

theorem targets_dropJumps_subset (ls : List (Line ι)) :
    targets (dropJumps ls) ⊆ targets ls := by
  induction ls with
  | nil => exact fun _ h => h
  | cons line ls ih =>
      unfold dropJumps
      split
      · split
        · exact fun n hn => List.mem_cons_of_mem _ (ih hn)
        · exact List.cons_subset_cons _ ih
      · cases line with
        | label m => exact ih
        | jump kind m => exact List.cons_subset_cons _ ih
        | insn i => exact ih
        | epilogue => exact ih

/-- Consolidation keeps the labels that are no alias. -/
theorem labels_mergeLabels (ls : List (Line ι)) :
    labels (mergeLabels ls) = (labels ls).filter fun n => ((aliases ls).lookup n).isNone := by
  unfold mergeLabels
  rw [labels_dropJumps, labels_redirect]

/-- Consolidation keeps labels distinct. -/
theorem nodup_labels_mergeLabels {ls : List (Line ι)} (nodup : (labels ls).Nodup) :
    (labels (mergeLabels ls)).Nodup := by
  rw [labels_mergeLabels]
  exact nodup.filter _

/-- Consolidation leaves a jump without its label exactly where there was
one before. -/
theorem resolved_mergeLabels {ls : List (Line ι)} (nodup : (labels ls).Nodup) :
    Resolved (mergeLabels ls) ↔ Resolved ls := by
  constructor
  · intro h n hn
    -- a number that is no label is its own end, and its jump is kept
    refine Classical.byContradiction fun hno => ?_
    have hnone := lookup_aliases_none hno
    have hmem : n ∈ targets (redirect (aliases ls) ls) := by
      rw [targets_redirect]
      exact List.mem_map.2 ⟨n, hn, resolve_of_lookup_none hnone _⟩
    have hkept : n ∉ labels (redirect (aliases ls) ls) := by
      rw [labels_redirect]
      exact fun hin => hno (List.mem_filter.1 hin).1
    have htarget := (mem_targets_dropJumps hmem).resolve_right hkept
    have hlabel := h n htarget
    rw [labels_mergeLabels] at hlabel
    exact hno (List.mem_filter.1 hlabel).1
  · intro h n hn
    have hn' := targets_dropJumps_subset _ hn
    rw [targets_redirect] at hn'
    obtain ⟨m, hm, rfl⟩ := List.mem_map.1 hn'
    obtain ⟨hmem, hnone⟩ := resolve_mem nodup (h m hm) (Nat.le_refl _)
    rw [labels_mergeLabels]
    refine List.mem_filter.2 ⟨hmem, ?_⟩
    rw [hnone]
    rfl

end MiniC.Asm.Line
