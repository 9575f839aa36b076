/-
The normal form of consolidated lines. In it no label stands right in front
of a label and no jump right in front of the label it goes to (`Normal`).

# Over and over

Consolidation leaves exactly the lines in normal form as they are
(`mergeLabels_eq_self`), and takes a line from all others, so merging over and
over arrives there (`exists_normal`).

# Once

One round need not arrive. Jumps are dropped behind the merging of labels,
and a jump that goes brings the line in front of it next to the labels
behind: a label, which is then not merged with them, or a jump to one of
them, which then is not dropped (`Cascading`). With distinct labels nothing
else is missed (`mergeLabels_normal`), since a label's chain of aliases ends
at the last label of its row: a jump is dropped exactly when its label is in
the row behind it (`merged_jmp`).

What the lines behind come to is told from the front by `landing`: the row of
labels that the lines start with once what is dropped there is gone. Both
`Cascading` and what is left of the lines are read off it, line by line.

# In generated code

Code generation writes such lines for a loop with an empty body behind an `if`
(`idleLoop`), so its functions are not all in normal form.
-/
import Mathlib.Data.List.Chain
import Mathlib.Logic.Function.Iterate
import MiniC.Proofs.ControlFlow.Consolidation

namespace MiniC.Asm.Line

variable {ι : Type}

-- ============================================================ normal form

/-- Whether one line may stand right in front of another. -/
def apart : Line ι → Line ι → Bool
  | .label _, .label _ => false
  | .jump .jmp n, .label m => m != n
  | _, _ => true

/-- Lines without a label right in front of a label or a jump right in front
of its label. -/
def Normal (ls : List (Line ι)) : Prop := ls.IsChain (apart · ·)

instance (ls : List (Line ι)) : Decidable (Normal ls) :=
  inferInstanceAs (Decidable (ls.IsChain (apart · ·)))

/-- The labels in a row at the start of lines. -/
def row : List (Line ι) → List Nat
  | .label n :: rest => n :: row rest
  | _ => []

/-- Whether the second of the lines is a jump into the row of labels behind
it and the first may not stand in front of that row. -/
def Cascades : List (Line ι) → Prop
  | .label _ :: .jump .jmp n :: rest => n ∈ row rest
  | .jump .jmp m :: .jump .jmp n :: rest => m ∈ row rest ∧ n ∈ row rest
  | _ => False

/-- Whether dropping a jump brings together, somewhere in the lines, what
may not stand together. -/
def Cascading (ls : List (Line ι)) : Prop := ∃ rest, rest <:+ ls ∧ Cascades rest

@[simp] theorem row_nil : row ([] : List (Line ι)) = [] := rfl

@[simp] theorem row_label (n : Nat) (ls : List (Line ι)) : row (.label n :: ls) = n :: row ls := rfl

@[simp] theorem row_jump (kind : Jump) (n : Nat) (ls : List (Line ι)) :
    row (.jump kind n :: ls) = [] := rfl

@[simp] theorem row_insn (i : ι) (ls : List (Line ι)) : row (.insn i :: ls) = [] := rfl

@[simp] theorem row_epilogue (ls : List (Line ι)) : row (.epilogue :: ls) = [] := rfl

/-- A row that has a first label starts with it. -/
theorem row_head?_some {ls : List (Line ι)} {n : Nat} (h : (row ls).head? = some n) :
    ∃ rest, ls = .label n :: rest := by
  cases ls with
  | nil => cases h
  | cons line rest =>
      cases line with
      | label m =>
          cases h
          exact ⟨rest, rfl⟩
      | jump kind m => cases h
      | insn i => cases h
      | epilogue => cases h

/-- A label may stand in front of what starts with none. -/
theorem normal_label {n : Nat} {ls : List (Line ι)} :
    Normal (.label n :: ls) ↔ row ls = [] ∧ Normal ls := by
  unfold Normal
  cases ls with
  | nil => simp
  | cons line rest => cases line <;> simp [apart]

/-- A jump may stand in front of what does not start with its label. -/
theorem normal_jmp {n : Nat} {ls : List (Line ι)} :
    Normal (.jump .jmp n :: ls) ↔ (row ls).head? ≠ some n ∧ Normal ls := by
  unfold Normal
  cases ls with
  | nil => simp
  | cons line rest => cases line <;> simp [apart]

/-- A conditional jump may stand anywhere. -/
theorem normal_branch {kind : Jump} (h : kind ≠ .jmp) {n : Nat} {ls : List (Line ι)} :
    Normal (.jump kind n :: ls) ↔ Normal ls := by
  unfold Normal
  cases ls with
  | nil => simp
  | cons line rest =>
      cases kind with
      | jmp => exact absurd rfl h
      | je => simp [apart]
      | jne => simp [apart]

/-- So may an instruction. -/
theorem normal_insn {i : ι} {ls : List (Line ι)} : Normal (.insn i :: ls) ↔ Normal ls := by
  unfold Normal
  cases ls <;> simp [apart]

/-- So may an epilogue. -/
theorem normal_epilogue {ls : List (Line ι)} : Normal (.epilogue :: ls) ↔ Normal ls := by
  unfold Normal
  cases ls <;> simp [apart]

-- ========================================================= where it stays

/-- The aliases are the pairs of labels of which one follows the other. -/
theorem mem_aliases_iff {ls : List (Line ι)} {a b : Nat} :
    (a, b) ∈ aliases ls ↔ ∃ rest, .label a :: .label b :: rest <:+ ls := by
  fun_induction aliases ls with
  | case1 c d ls ih =>
      rw [List.mem_append, ih, List.mem_singleton]
      constructor
      · rintro (⟨rest, h⟩ | h)
        · exact ⟨rest, h.trans (List.suffix_cons _ _)⟩
        · cases h
          exact ⟨ls, List.suffix_refl _⟩
      · rintro ⟨rest, h⟩
        rcases List.suffix_cons_iff.1 h with heq | hinner
        · cases heq
          exact Or.inr rfl
        · exact Or.inl ⟨rest, hinner⟩
  | case2 line ls hline ih =>
      rw [ih]
      constructor
      · rintro ⟨rest, h⟩
        exact ⟨rest, h.trans (List.suffix_cons _ _)⟩
      · rintro ⟨rest, h⟩
        rcases List.suffix_cons_iff.1 h with heq | hinner
        · cases heq
          exact absurd rfl (hline a b rest rfl)
        · exact ⟨rest, hinner⟩
  | case3 => simp

theorem lookup_isSome_of_mem {links : List (Nat × Nat)} {a b : Nat} (h : (a, b) ∈ links) :
    (links.lookup a).isSome := by
  cases hlookup : links.lookup a with
  | some c => rfl
  | none => exact absurd (List.lookup_eq_none_iff.1 hlookup _ h) (by simp)

/-- A jump is dropped in front of its label. -/
theorem dropJumps_jmp (n : Nat) (ls : List (Line ι)) :
    dropJumps (.jump .jmp n :: ls)
      = if (row ls).head? = some n then dropJumps ls else .jump .jmp n :: dropJumps ls := by
  cases ls with
  | nil => rfl
  | cons line rest => cases line <;> simp [dropJumps, eq_comm]

/-- Lines are dropped and none are added. -/
theorem dropJumps_sublist (ls : List (Line ι)) : (dropJumps ls).Sublist ls := by
  induction ls with
  | nil => exact List.Sublist.refl _
  | cons line ls ih =>
      unfold dropJumps
      split
      · split
        · exact ih.cons _
        · exact ih.cons_cons _
      · exact ih.cons_cons _

/-- Lines are in normal form when no label has an alias and no jump is
dropped. -/
theorem normal_iff {ls : List (Line ι)} :
    Normal ls ↔ aliases ls = [] ∧ dropJumps ls = ls := by
  induction ls with
  | nil => simp [Normal, aliases, dropJumps]
  | cons line ls ih =>
      cases line with
      | label n =>
          rw [normal_label, ih]
          cases ls with
          | nil => simp [aliases, dropJumps]
          | cons line rest => cases line <;> simp [aliases, dropJumps]
      | jump kind n =>
          cases kind with
          | jmp =>
              have hshort : dropJumps ls ≠ .jump .jmp n :: ls := fun h =>
                absurd (dropJumps_sublist ls).length_le (by rw [h]; simp)
              rw [normal_jmp, ih, dropJumps_jmp, aliases]
              · split <;> simp_all
              · intros; contradiction
          | je => rw [normal_branch (by decide), ih]; simp [aliases, dropJumps]
          | jne => rw [normal_branch (by decide), ih]; simp [aliases, dropJumps]
      | insn i => rw [normal_insn, ih]; simp [aliases, dropJumps]
      | epilogue => rw [normal_epilogue, ih]; simp [aliases, dropJumps]

/-- Without aliases nothing is sent elsewhere. -/
theorem redirect_nil_links (ls : List (Line ι)) : redirect [] ls = ls := by
  induction ls with
  | nil => rfl
  | cons line ls ih =>
      cases line with
      | label n => rw [redirect_label, ih]; rfl
      | jump kind n => exact congrArg (List.cons _) ih
      | insn i => exact congrArg (List.cons _) ih
      | epilogue => exact congrArg (List.cons _) ih

/-- Consolidation takes a line from lines that are not in normal form. -/
theorem mergeLabels_length_lt {ls : List (Line ι)} (h : ¬ Normal ls) :
    (mergeLabels ls).length < ls.length := by
  unfold mergeLabels
  cases haliases : aliases ls with
  | nil =>
      rw [redirect_nil_links]
      have hdrop : dropJumps ls ≠ ls := fun hdrop => h (normal_iff.2 ⟨haliases, hdrop⟩)
      have hsub := dropJumps_sublist ls
      exact lt_of_le_of_ne hsub.length_le fun hlen => hdrop (hsub.eq_of_length hlen)
  | cons link links =>
      have hlink : (link.1, link.2) ∈ aliases ls := haliases ▸ List.mem_cons_self
      rw [← haliases]
      refine lt_of_le_of_lt (dropJumps_sublist _).length_le ?_
      obtain ⟨line, hline, hdefines⟩ := List.mem_filterMap.1 (mem_aliases hlink).1
      cases line with
      | label n =>
          cases hdefines
          refine List.length_filterMap_lt_length_iff_exists.2 ⟨_, hline, ?_⟩
          dsimp only
          rw [if_pos (lookup_isSome_of_mem hlink)]
      | jump kind n => cases hdefines
      | insn i => cases hdefines
      | epilogue => cases hdefines

/-- Exactly the lines in normal form are left as they are. -/
theorem mergeLabels_eq_self {ls : List (Line ι)} : mergeLabels ls = ls ↔ Normal ls := by
  constructor
  · intro h
    refine Classical.byContradiction fun hnormal => ?_
    exact absurd (mergeLabels_length_lt hnormal) (by rw [h]; exact lt_irrefl _)
  · intro h
    obtain ⟨haliases, hdrop⟩ := normal_iff.1 h
    unfold mergeLabels
    rw [haliases, redirect_nil_links, hdrop]

/-- Merging over and over arrives at a normal form. -/
theorem exists_normal (ls : List (Line ι)) : ∃ k ≤ ls.length, Normal (mergeLabels^[k] ls) := by
  generalize hlen : ls.length = len
  induction len using Nat.strong_induction_on generalizing ls with
  | _ len ih =>
      subst hlen
      by_cases h : Normal ls
      · exact ⟨0, Nat.zero_le _, h⟩
      · have hlt := mergeLabels_length_lt h
        obtain ⟨k, hk, hnormal⟩ := ih _ hlt _ rfl
        exact ⟨k + 1, by omega, hnormal⟩

-- ====================================================== the end of a chain

/-- A chain that has ended does not go on with more fuel. -/
theorem resolve_ended {links : List (Nat × Nat)} {k n : Nat}
    (h : links.lookup (resolve links k n) = none) :
    resolve links (k + 1) n = resolve links k n := by
  induction k generalizing n with
  | zero => exact resolve_of_lookup_none h 1
  | succ k ih =>
      rw [resolve] at h
      rw [resolve, resolve]
      cases hn : links.lookup n with
      | none => rfl
      | some m =>
          rw [hn] at h
          exact ih h

/-- The row of labels behind what consolidation drops at the start of
lines. -/
def landing : List (Line ι) → List Nat
  | .jump .jmp n :: rest => if n ∈ row rest then row rest else []
  | ls => row ls

/-- Lines that start with labels land at those. -/
theorem landing_row {ls : List (Line ι)} (h : row ls ≠ []) : landing ls = row ls := by
  obtain ⟨n, hn⟩ := Option.isSome_iff_exists.1 (List.isSome_head?.2 h)
  obtain ⟨rest, rfl⟩ := row_head?_some hn
  rfl

/-- A jump lands at the row behind it if its label is there. -/
theorem landing_jmp (n : Nat) (ls : List (Line ι)) :
    landing (.jump .jmp n :: ls) = if n ∈ row ls then row ls else [] := rfl

/-- A conditional jump is not dropped. -/
theorem landing_branch {kind : Jump} (h : kind ≠ .jmp) (n : Nat) (ls : List (Line ι)) :
    landing (.jump kind n :: ls) = [] := by
  cases kind with
  | jmp => exact absurd rfl h
  | je => rfl
  | jne => rfl

/-- A conditional jump stays, and goes to the end of its label's chain. -/
theorem merged_branch {links : List (Nat × Nat)} {kind : Jump} (h : kind ≠ .jmp) (n : Nat)
    (ls : List (Line ι)) :
    merged links (.jump kind n :: ls)
      = .jump kind (resolve links links.length n) :: merged links ls :=
  (merged_jump links kind n ls).resolve_right fun hdropped => h hdropped.1

@[simp] theorem cascading_nil : ¬ Cascading ([] : List (Line ι)) := by
  rintro ⟨rest, hrest, h⟩
  cases List.suffix_nil.1 hrest
  exact h

/-- What lines bring together is brought together at the first of them or behind it. -/
theorem cascading_cons {line : Line ι} {ls : List (Line ι)} :
    Cascading (line :: ls) ↔ Cascades (line :: ls) ∨ Cascading ls := by
  constructor
  · rintro ⟨rest, hrest, h⟩
    rcases List.suffix_cons_iff.1 hrest with rfl | hrest
    · exact Or.inl h
    · exact Or.inr ⟨rest, hrest, h⟩
  · rintro (h | ⟨rest, hrest, h⟩)
    · exact ⟨_, List.suffix_refl _, h⟩
    · exact ⟨rest, hrest.trans (List.suffix_cons _ _), h⟩

/-- A label cascades with whatever row the lines behind it come to land
at. -/
theorem cascades_label {n : Nat} {ls : List (Line ι)} :
    Cascades (.label n :: ls) ↔ row ls = [] ∧ landing ls ≠ [] := by
  cases ls with
  | nil => simp [Cascades, landing]
  | cons line rest =>
      cases line with
      | label m => simp [Cascades]
      | jump kind m =>
          by_cases hkind : kind = .jmp
          · subst hkind
            rw [landing_jmp]
            by_cases hm : m ∈ row rest
            · simp [Cascades, hm, List.ne_nil_of_mem hm]
            · simp [Cascades, hm]
          · simp [Cascades, landing_branch hkind, hkind]
      | insn i => simp [Cascades, landing]
      | epilogue => simp [Cascades, landing]

/-- A jump cascades with the row that the lines behind it come to land at, if
its label is there. -/
theorem cascades_jmp {n : Nat} {ls : List (Line ι)} :
    Cascades (.jump .jmp n :: ls) ↔ row ls = [] ∧ n ∈ landing ls := by
  cases ls with
  | nil => simp [Cascades, landing]
  | cons line rest =>
      cases line with
      | label m => simp [Cascades]
      | jump kind m =>
          by_cases hkind : kind = .jmp
          · subst hkind
            rw [landing_jmp]
            by_cases hm : m ∈ row rest
            · simp [Cascades, hm]
            · simp [Cascades, hm]
          · simp [Cascades, landing_branch hkind, hkind]
      | insn i => simp [Cascades, landing]
      | epilogue => simp [Cascades, landing]

/-- A conditional jump may stay in front of its label. -/
theorem cascades_branch {kind : Jump} (h : kind ≠ .jmp) {n : Nat} {ls : List (Line ι)} :
    ¬ Cascades (.jump kind n :: ls) := by
  simp [Cascades, h]

section Distinct

variable {ls : List (Line ι)} (nodup : (labels ls).Nodup)

include nodup

/-- A label is defined at one place. -/
theorem suffix_unique {a b : List (Line ι)} {n : Nat} (ha : .label n :: a <:+ ls)
    (hb : .label n :: b <:+ ls) : a = b := by
  have inner : ∀ {a b : List (Line ι)}, .label n :: a <:+ .label n :: b →
      .label n :: b <:+ ls → a = b := by
    intro a b h hb
    rcases List.suffix_cons_iff.1 h with heq | hinner
    · exact (List.cons.inj heq).2
    · have hnodup : (labels (.label n :: b)).Nodup := nodup.sublist (hb.sublist.filterMap _)
      have hmem : n ∈ labels b :=
        (hinner.sublist.filterMap defines?).subset (List.mem_cons_self (a := n))
      exact absurd hmem (List.nodup_cons.1 hnodup).1
  rcases List.suffix_or_suffix_of_suffix ha hb with h | h
  · exact inner h hb
  · exact (inner h ha).symm

/-- A label's alias is the label right behind it. -/
theorem lookup_aliases {n : Nat} {rest : List (Line ι)} (hrest : .label n :: rest <:+ ls) :
    (aliases ls).lookup n = (row rest).head? := by
  cases hlookup : (aliases ls).lookup n with
  | some b =>
      obtain ⟨tail, rfl⟩ := alias_behind nodup (lookup_mem hlookup) hrest
      rfl
  | none =>
      cases hrow : (row rest).head? with
      | none => rfl
      | some b =>
          obtain ⟨tail, rfl⟩ := row_head?_some hrow
          have hsome := lookup_isSome_of_mem (mem_aliases_iff.2 ⟨tail, hrest⟩)
          rw [hlookup] at hsome
          cases hsome

/-- A label's chain ends where the chain of its alias ends. -/
theorem resolve_alias {a b : Nat} (h : (aliases ls).lookup a = some b) :
    resolve (aliases ls) (aliases ls).length a = resolve (aliases ls) (aliases ls).length b := by
  have ha : a ∈ labels ls := (mem_aliases (lookup_mem h)).1
  have hend := (resolve_mem nodup ha (Nat.le_refl _)).2
  have hpos : 0 < (aliases ls).length := List.length_pos_of_mem (lookup_mem h)
  obtain ⟨k, hk⟩ : ∃ k, (aliases ls).length = k + 1 := ⟨_, (Nat.succ_pred_eq_of_pos hpos).symm⟩
  have hfirst : resolve (aliases ls) (k + 1) a = resolve (aliases ls) k b := by
    rw [resolve, h]
  rw [hk, hfirst] at hend
  rw [hk, hfirst]
  exact (resolve_ended hend).symm

/-- The chains of the labels in a row end at the last one. -/
theorem resolve_row {rest : List (Line ι)} (hrest : rest <:+ ls) {n : Nat} (hn : n ∈ row rest) :
    (row rest).getLast? = some (resolve (aliases ls) (aliases ls).length n) := by
  induction rest generalizing n with
  | nil => cases hn
  | cons line tail ih =>
      cases line with
      | label a =>
          have htail : tail <:+ ls := (List.suffix_cons _ _).trans hrest
          have hlookup := lookup_aliases nodup hrest
          cases hrow : row tail with
          | nil =>
              rw [hrow] at hlookup
              rw [row_label, hrow] at hn ⊢
              obtain rfl := List.mem_singleton.1 hn
              rw [resolve_of_lookup_none hlookup]
              rfl
          | cons b others =>
              have hb : b ∈ row tail := hrow ▸ List.mem_cons_self
              rw [hrow] at hlookup
              rw [row_label, hrow, List.getLast?_cons_cons, ← hrow]
              rcases List.mem_cons.1 hn with rfl | hn
              · rw [resolve_alias nodup hlookup]
                exact ih htail hb
              · exact ih htail hn
      | jump kind m => cases hn
      | insn i => cases hn
      | epilogue => cases hn

/-- The label in front of a label of the row is in the row too, unless the
row starts there. -/
theorem mem_row_of_alias {line : Line ι} {rest : List (Line ι)} (hrest : line :: rest <:+ ls)
    {a b : Nat} (hlink : (aliases ls).lookup a = some b) (hb : b ∈ row rest) :
    line = .label a ∨ a ∈ row rest := by
  induction rest generalizing line with
  | nil => cases hb
  | cons next tail ih =>
      have htail : next :: tail <:+ ls := (List.suffix_cons _ _).trans hrest
      cases next with
      | label c =>
          rcases List.mem_cons.1 hb with rfl | hb
          · obtain ⟨t, ht⟩ := mem_aliases_iff.1 (lookup_mem hlink)
            obtain rfl := suffix_unique nodup htail ((List.suffix_cons _ _).trans ht)
            have hsame := List.suffix_of_suffix_length_le hrest ht (Nat.le_refl _)
            exact Or.inl (List.cons.inj (hsame.eq_of_length rfl)).1
          · rcases ih htail hb with heq | hmem
            · cases heq
              exact Or.inr List.mem_cons_self
            · exact Or.inr (List.mem_cons_of_mem c hmem)
      | jump kind m => cases hb
      | insn i => cases hb
      | epilogue => cases hb

/-- The chains that end at the last label of a row start in the row. -/
theorem resolve_eq_last {line : Line ι} {rest : List (Line ι)} (hrest : line :: rest <:+ ls)
    (hline : ∀ a, line ≠ .label a) {n : Nat} :
    (row rest).getLast? = some (resolve (aliases ls) (aliases ls).length n) ↔ n ∈ row rest := by
  constructor
  · intro hlast
    have hmem := List.mem_of_getLast? hlast
    clear hlast
    generalize (aliases ls).length = fuel at hmem
    induction fuel generalizing n with
    | zero => exact hmem
    | succ fuel ih =>
        cases hlookup : (aliases ls).lookup n with
        | none => rwa [resolve_of_lookup_none hlookup] at hmem
        | some b =>
            rw [resolve, hlookup] at hmem
            exact (mem_row_of_alias nodup hrest hlookup (ih hmem)).resolve_left (hline n)
  · exact resolve_row nodup ((List.suffix_cons _ _).trans hrest)

-- ====================================================== what merging leaves

/-- What is left of lines before jumps are dropped starts with the last label
of their row. -/
theorem head_redirect {rest : List (Line ι)} (hrest : rest <:+ ls) :
    (row (redirect (aliases ls) rest)).head? = (row rest).getLast? := by
  induction rest with
  | nil => rfl
  | cons line tail ih =>
      cases line with
      | label n =>
          rw [redirect_label, lookup_aliases nodup hrest]
          cases hrow : row tail with
          | nil => simp [hrow]
          | cons b others =>
              rw [row_label, hrow, List.getLast?_cons_cons, ← hrow]
              simpa [hrow] using ih ((List.suffix_cons _ _).trans hrest)
      | jump kind n => rfl
      | insn i => rfl
      | epilogue => rfl

/-- A jump is dropped exactly when its label is in the row behind it. -/
theorem merged_jmp {n : Nat} {rest : List (Line ι)} (hrest : .jump .jmp n :: rest <:+ ls) :
    merged (aliases ls) (.jump .jmp n :: rest)
      = if n ∈ row rest then merged (aliases ls) rest
        else .jump .jmp (resolve (aliases ls) (aliases ls).length n)
          :: merged (aliases ls) rest := by
  have hredirect : merged (aliases ls) (.jump .jmp n :: rest)
      = dropJumps (.jump .jmp (resolve (aliases ls) (aliases ls).length n)
          :: redirect (aliases ls) rest) := rfl
  rw [hredirect, dropJumps_jmp, head_redirect nodup ((List.suffix_cons _ _).trans hrest)]
  simp only [resolve_eq_last nodup hrest (fun _ => nofun)]
  rfl

/-- A label stays exactly when no label follows. -/
theorem merged_label_row {n : Nat} {rest : List (Line ι)} (hrest : .label n :: rest <:+ ls) :
    merged (aliases ls) (.label n :: rest)
      = if row rest = [] then .label n :: merged (aliases ls) rest
        else merged (aliases ls) rest := by
  rw [merged_label, lookup_aliases nodup hrest]
  cases row rest <;> rfl

/-- What is left of lines starts with the last label of the row they
land at. -/
theorem head_merged {rest : List (Line ι)} (hrest : rest <:+ ls) :
    (row (merged (aliases ls) rest)).head? = (landing rest).getLast? := by
  induction rest with
  | nil => rfl
  | cons line tail ih =>
      have ih := ih ((List.suffix_cons _ _).trans hrest)
      cases line with
      | label n =>
          rw [merged_label_row nodup hrest, landing_row (by simp)]
          cases hrow : row tail with
          | nil => simp [hrow]
          | cons b others =>
              rw [landing_row (by simp [hrow]), hrow] at ih
              simpa [hrow] using ih
      | jump kind n =>
          by_cases hkind : kind = .jmp
          · subst hkind
            rw [merged_jmp nodup hrest, landing_jmp]
            split
            · rename_i hn
              rwa [landing_row (List.ne_nil_of_mem hn)] at ih
            · rfl
          · rw [merged_branch hkind, landing_branch hkind]
            rfl
      | insn i => rw [merged_insn]; rfl
      | epilogue => rw [merged_epilogue]; rfl

/-- The chain of a kept jump's label ends in front of the jump exactly when
the label is in the row that the lines behind land at. -/
theorem resolve_landing {n : Nat} {rest : List (Line ι)} (hrest : .jump .jmp n :: rest <:+ ls) :
    (landing rest).getLast? = some (resolve (aliases ls) (aliases ls).length n)
      ↔ n ∈ landing rest := by
  cases rest with
  | nil => simp [landing]
  | cons line tail =>
      by_cases hrow : row (line :: tail) = []
      · cases line with
        | label m => cases hrow
        | jump kind m =>
            by_cases hkind : kind = .jmp
            · subst hkind
              rw [landing_jmp]
              split
              · exact resolve_eq_last nodup ((List.suffix_cons _ _).trans hrest) (fun _ => nofun)
              · simp
            · simp [landing_branch hkind]
        | insn i => simp [landing]
        | epilogue => simp [landing]
      · rw [landing_row hrow]
        exact resolve_eq_last nodup hrest (fun _ => nofun)

/-- What is left of lines is in normal form exactly when no two of them are
brought together that may not stand together. -/
theorem normal_merged {rest : List (Line ι)} (hrest : rest <:+ ls) :
    Normal (merged (aliases ls) rest) ↔ ¬ Cascading rest := by
  induction rest with
  | nil => simp [Normal, merged, redirect, dropJumps, cascading_nil]
  | cons line tail ih =>
      have htail : tail <:+ ls := (List.suffix_cons _ _).trans hrest
      rw [cascading_cons, not_or, ← ih htail]
      cases line with
      | label n =>
          rw [merged_label_row nodup hrest, cascades_label]
          by_cases hrow : row tail = []
          · rw [if_pos hrow, normal_label, ← List.head?_eq_none_iff, head_merged nodup htail,
              List.getLast?_eq_none_iff]
            simp [hrow]
          · simp [hrow]
      | jump kind n =>
          by_cases hkind : kind = .jmp
          · subst hkind
            rw [merged_jmp nodup hrest, cascades_jmp]
            by_cases hn : n ∈ row tail
            · simp [hn, List.ne_nil_of_mem hn]
            · rw [if_neg hn, normal_jmp, head_merged nodup htail]
              have hlanding := resolve_landing nodup hrest
              by_cases hrow : row tail = []
              · simp [hrow, hlanding]
              · rw [landing_row hrow] at hlanding ⊢
                simp [hlanding, hn, hrow]
          · rw [merged_branch hkind, normal_branch hkind]
            simp [cascades_branch hkind]
      | insn i => rw [merged_insn, normal_insn]; simp [Cascades]
      | epilogue => rw [merged_epilogue, normal_epilogue]; simp [Cascades]

end Distinct

/-- With distinct labels, merging once arrives at a normal form, and merging
again changes nothing, exactly when no dropped jump brings together what may
not stand together; merging as often as there are lines always arrives. -/
theorem mergeLabels_normal {ls : List (Line ι)} (nodup : (labels ls).Nodup) :
    (Normal (mergeLabels ls) ↔ ¬ Cascading ls)
      ∧ (mergeLabels (mergeLabels ls) = mergeLabels ls ↔ ¬ Cascading ls)
      ∧ ∃ k ≤ ls.length, Normal (mergeLabels^[k] ls) := by
  have hnormal : Normal (mergeLabels ls) ↔ ¬ Cascading ls :=
    normal_merged nodup (List.suffix_refl ls)
  exact ⟨hnormal, mergeLabels_eq_self.trans hnormal, exists_normal ls⟩

/-- A row of labels that is jumped to from in front of it and from behind. -/
def loopedRow : List (Line Unit) :=
  [.jump .jmp 0, .label 0, .label 1, .insn (), .jump .je 0, .epilogue]

/-- Of the row one label stays, and `mergeLabels_normal` says that nothing
more is to be done. -/
theorem loopedRow_settles :
    (labels loopedRow).Nodup
      ∧ mergeLabels loopedRow = [.label 1, .insn (), .jump .je 1, .epilogue]
      ∧ ¬ Cascading loopedRow
      ∧ mergeLabels (mergeLabels loopedRow) = mergeLabels loopedRow := by
  have nodup : (labels loopedRow).Nodup := by decide
  obtain ⟨hnormal, hagain, -⟩ := mergeLabels_normal nodup
  have hcascading : ¬ Cascading loopedRow := hnormal.1 (by decide)
  exact ⟨nodup, by decide, hcascading, hagain.2 hcascading⟩

/-- A label in front of a jump to the next line. -/
def guardedLabel : List (Line Unit) := [.label 0, .jump .jmp 1, .label 1]

/-- Two jumps to the line behind them. -/
def twoJumps : List (Line Unit) := [.jump .jmp 0, .jump .jmp 0, .label 0]

end MiniC.Asm.Line

namespace MiniC

open Asm Line

/-- A loop with an empty body behind an `if`: the jump to the loop's test is
dropped, and the end of the `if` stands in front of the test. -/
def idleLoop : String := "int main() { int n = 1; if (n) { n = 3; } while (n) { } return n; }"

/-- For each function assembled from a text, if it is accepted and assembled,
whether its lines are in normal form. -/
def functionsNormal (source : String) : Option (List Bool) := do
  let program ← (frontend source (.empty false)).1.toOption
  let asm ← (program.generate false).toOption
  return asm.functions.map fun fn => decide (Normal fn.2)

/-- One round does not arrive where labels of the lines are distinct, and it
does not in code that is generated. -/
theorem idleLoop_unsettled :
    ((labels guardedLabel).Nodup ∧ mergeLabels guardedLabel = [.label 0, .label 1]
        ∧ ¬ Normal (mergeLabels guardedLabel)
        ∧ mergeLabels (mergeLabels guardedLabel) ≠ mergeLabels guardedLabel)
      ∧ ((labels twoJumps).Nodup ∧ mergeLabels twoJumps = [.jump .jmp 0, .label 0]
        ∧ ¬ Normal (mergeLabels twoJumps)
        ∧ mergeLabels (mergeLabels twoJumps) ≠ mergeLabels twoJumps)
      ∧ ∃ program asm, (frontend idleLoop (.empty false)).1 = .ok program
        ∧ program.generate false = .ok asm ∧ ∃ fn ∈ asm.functions, ¬ Normal fn.2 := by
  refine ⟨by decide, by decide, ?_⟩
  have h : functionsNormal idleLoop = some [false] := by decide +kernel
  unfold functionsNormal at h
  obtain ⟨program, hfront, h⟩ := Option.bind_eq_some_iff.1 h
  obtain ⟨asm, hgen, h⟩ := Option.bind_eq_some_iff.1 h
  obtain ⟨fn, hmem, hfn⟩ := List.mem_map.1 (Option.some.inj h ▸ List.mem_cons_self)
  exact ⟨program, asm, Steps.toOption_some.1 hfront, Steps.toOption_some.1 hgen, fn, hmem,
    of_decide_eq_false hfn⟩

end MiniC
