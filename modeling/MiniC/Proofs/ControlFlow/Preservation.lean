/-
Consolidating labels preserves what lines do, whatever their instructions are
and wherever their jumps go (`mergeLabels_preserves`).

# Runs

A run over lines executes instructions, follows jumps, falls through labels, and
stops at an epilogue, behind the last line or at a taken jump whose label is not
defined; conditional jumps are decided from outside. The run over the
consolidated lines stays with the run before: each step of the one is made up
for by one step of the other, or by none while the run before comes closer to
the end of the list (`step_abreast`). So neither executes what the other does
not, and neither runs on where the other has stopped.

# Chains of aliases

A label right in front of another is an alias of it. The chain that starts at a
label ends because every alias names the label right behind (`chain_ending`); it
runs over a row of labels, of which the last is the one that stays
(`exists_row`). A jump is sent to the end of its label's chain, and behind that
label is what was behind the first one (`behind_merged`).

# Dropped jumps

A dropped jump is the case where the two could part: it is passed in no time,
and would be so for ever if it led back to itself. It never does, since the
row of labels that its own label stands in ends behind the jump
(`length_behind_lt`).

# Both directions

What the run over lines has done the other one does (`after_abreast`). For the
converse the run over lines has to catch up with a step of the other; it is
ahead of it by dropped lines only, and comes closer to the end only so often
(`catch_up`).
-/
import MiniC.Proofs.ControlFlow.Consolidation

namespace MiniC.Asm.Line

variable {ι : Type} {ls : List (Line ι)}

-- ============================================================== chains

/-- Where the chain of aliases that starts at a label ends. -/
def ending (ls : List (Line ι)) (n : Nat) : Nat :=
  resolve (aliases ls) (aliases ls).length n

/-- The chain of aliases that starts at a label, followed to its end. -/
inductive Chain (links : List (Nat × Nat)) : Nat → Nat → Prop
  | ends {n : Nat} : links.lookup n = none → Chain links n n
  | link {n m last : Nat} : links.lookup n = some m → Chain links m last → Chain links n last

/-- Following a chain to a label without an alias is following it to its end. -/
theorem chain_resolve {links : List (Nat × Nat)} {fuel n : Nat}
    (h : links.lookup (resolve links fuel n) = none) :
    Chain links n (resolve links fuel n) := by
  induction fuel generalizing n with
  | zero => exact .ends h
  | succ fuel ih =>
      cases hm : links.lookup n with
      | none =>
          rw [resolve_of_lookup_none hm]
          exact .ends hm
      | some m =>
          have hnext : resolve links (fuel + 1) n = resolve links fuel m := by
            rw [resolve, hm]
          rw [hnext] at h ⊢
          exact .link hm (ih h)

/-- A label whose chain ends is on no cycle, and leads to none. -/
theorem Chain.acc {links : List (Nat × Nat)} {n last : Nat} (h : Chain links n last) :
    Acc (fun m k => links.lookup k = some m) n := by
  induction h with
  | ends hnone =>
      refine ⟨_, fun m hm => ?_⟩
      rw [hnone] at hm
      cases hm
  | link hnext _ ih =>
      refine ⟨_, fun m hm => ?_⟩
      rw [hnext] at hm
      cases hm
      exact ih

section Distinct

variable (nodup : (labels ls).Nodup)

include nodup

/-- Where a chain ends there is no alias. -/
theorem lookup_ending (n : Nat) : (aliases ls).lookup (ending ls n) = none := by
  unfold ending
  by_cases hn : n ∈ labels ls
  · exact (resolve_mem nodup hn (Nat.le_refl _)).2
  · have hnone := lookup_aliases_none hn
    rw [resolve_of_lookup_none hnone]
    exact hnone

/-- Every chain ends. -/
theorem chain_ending (n : Nat) : Chain (aliases ls) n (ending ls n) :=
  chain_resolve (lookup_ending nodup n)

/-- The end of a defined label's chain is still defined when the aliased
labels are gone. -/
theorem ending_mem {n : Nat} (hn : n ∈ labels ls) : ending ls n ∈ labels (mergeLabels ls) := by
  rw [labels_mergeLabels]
  apply List.mem_filter.2
  refine ⟨(resolve_mem nodup hn (Nat.le_refl _)).1, ?_⟩
  rw [lookup_ending nodup n]
  rfl

/-- The chain from a label runs over the labels behind it, and all of them
but the last have aliases. -/
theorem exists_row {n last : Nat} {dest : List (Line ι)} (hchain : Chain (aliases ls) n last)
    (h : .label n :: dest <:+ ls) :
    ∃ (row : List Nat) (tail : List (Line ι)),
      .label n :: dest = row.map Line.label ++ .label last :: tail
        ∧ ∀ m ∈ row, ((aliases ls).lookup m).isSome := by
  induction hchain generalizing dest with
  | ends hnone => exact ⟨[], dest, rfl, nofun⟩
  | @link n m last hnext hchain ih =>
      obtain ⟨tail, rfl⟩ := alias_behind nodup (lookup_mem hnext) h
      obtain ⟨row, rest, hrow, haliased⟩ := ih ((List.suffix_cons _ _).trans h)
      refine ⟨n :: row, rest, ?_, ?_⟩
      · rw [hrow]
        rfl
      · refine List.forall_mem_cons.2 ⟨?_, haliased⟩
        rw [hnext]
        rfl

end Distinct

/-- A row of aliased labels is gone. -/
theorem merged_row {links : List (Nat × Nat)} {row : List Nat}
    (h : ∀ m ∈ row, (links.lookup m).isSome) (rest : List (Line ι)) :
    merged links (row.map Line.label ++ rest) = merged links rest := by
  induction row with
  | nil => rfl
  | cons m row ih =>
      obtain ⟨hm, hrow⟩ := List.forall_mem_cons.1 h
      rw [List.map_cons, List.cons_append, merged_label, if_pos hm]
      exact ih hrow

/-- A jump in a row of labels and what follows it is in what follows. -/
theorem suffix_of_row {row : List Nat} {kind : Jump} {n : Nat} {tail rest : List (Line ι)}
    (h : .jump kind n :: tail <:+ row.map Line.label ++ rest) : .jump kind n :: tail <:+ rest := by
  induction row with
  | nil => exact h
  | cons m row ih =>
      rcases List.suffix_cons_iff.1 h with heq | hrow
      · cases heq
      · exact ih hrow

/-- Consolidated lines jump to where the labels of the jumps went; jumps go,
but none comes. -/
theorem targets_mergeLabels_sublist (ls : List (Line ι)) :
    (targets (mergeLabels ls)).Sublist ((targets ls).map (ending ls)) := by
  have hdrop : ∀ lines : List (Line ι), (targets (dropJumps lines)).Sublist (targets lines) := by
    intro lines
    induction lines with
    | nil => exact List.Sublist.refl _
    | cons line rest ih =>
        have hkeep : (targets (line :: dropJumps rest)).Sublist (targets (line :: rest)) := by
          cases line with
          | label m => exact ih
          | jump kind m => exact ih.cons_cons m
          | insn i => exact ih
          | epilogue => exact ih
        unfold dropJumps
        split
        · split
          · exact ih.cons _
          · exact hkeep
        · exact hkeep
  have h := hdrop (redirect (aliases ls) ls)
  rw [targets_redirect] at h
  exact h

-- ================================================================ runs

/-- A run over lines: the lines ahead, if the run has not stopped, how many
conditional jumps were decided, and the instructions and epilogues executed
so far. -/
structure Run (ι : Type) where
  ahead : Option (List (Line ι))
  asked : Nat
  done : List (Line ι)

namespace Run

/-- The lines behind a label, if it is defined. -/
def behind (n : Nat) : List (Line ι) → Option (List (Line ι))
  | [] => none
  | .label m :: rest => if m = n then some rest else behind n rest
  | .jump _ _ :: rest => behind n rest
  | .insn _ :: rest => behind n rest
  | .epilogue :: rest => behind n rest

/-- One step of a run: `outcomes` says which conditional jumps are taken. -/
def step (ls : List (Line ι)) (outcomes : Nat → Bool) (r : Run ι) : Run ι :=
  match r.ahead with
  | none => r
  | some [] => { r with ahead := none }
  | some (.label _ :: rest) => { r with ahead := some rest }
  | some (.insn i :: rest) => { r with ahead := some rest, done := r.done ++ [.insn i] }
  | some (.epilogue :: _) => { r with ahead := none, done := r.done ++ [.epilogue] }
  | some (.jump .jmp n :: _) => { r with ahead := behind n ls }
  | some (.jump _ n :: rest) =>
    let ahead := if outcomes r.asked then behind n ls else some rest
    { r with ahead, asked := r.asked + 1 }

/-- The run after so many steps. -/
def after (ls : List (Line ι)) (outcomes : Nat → Bool) : Nat → Run ι → Run ι
  | 0, r => r
  | n + 1, r => after ls outcomes n (step ls outcomes r)

/-- A run at the first line. -/
def start (ls : List (Line ι)) : Run ι := ⟨some ls, 0, []⟩

/-- Whether two runs have executed the same lines, have seen as many
conditional jumps decided, and have both stopped or both not. -/
structure Same (r r' : Run ι) : Prop where
  done : r.done = r'.done
  asked : r.asked = r'.asked
  stopped : r.ahead = none ↔ r'.ahead = none

/-- Whether two lists of lines do the same from their first lines on,
whatever the conditional jumps do: as far as a run over the one comes, a run
over the other comes too. -/
def Alike (ls ls' : List (Line ι)) : Prop :=
  ∀ outcomes : Nat → Bool,
    (∀ n, ∃ n', Same (after ls outcomes n (start ls)) (after ls' outcomes n' (start ls')))
    ∧ ∀ n', ∃ n, Same (after ls outcomes n (start ls)) (after ls' outcomes n' (start ls'))

/-- Steps in a row are steps. -/
theorem after_add (outcomes : Nat → Bool) (m n : Nat) (r : Run ι) :
    after ls outcomes (m + n) r = after ls outcomes n (after ls outcomes m r) := by
  induction m generalizing r with
  | zero => rw [Nat.zero_add, after]
  | succ m ih => rw [Nat.succ_add, after, ih, after]

/-- There is nothing behind a label that is not defined. -/
theorem behind_none_iff {n : Nat} : behind n ls = none ↔ n ∉ labels ls := by
  induction ls with
  | nil => exact ⟨fun _ => nofun, fun _ => rfl⟩
  | cons line rest ih =>
      cases line with
      | label m =>
          rw [behind, labels_label, List.mem_cons]
          by_cases hm : m = n
          · subst hm
            rw [if_pos rfl]
            exact ⟨nofun, fun h => absurd (Or.inl rfl) h⟩
          · rw [if_neg hm, ih]
            exact ⟨fun h hin => h (hin.resolve_left (Ne.symm hm)), fun h hin => h (Or.inr hin)⟩
      | jump kind m => exact ih
      | insn i => exact ih
      | epilogue => exact ih

/-- What stands behind a label in the lines is what is behind it. -/
theorem behind_suffix {n : Nat} {dest : List (Line ι)} (nodup : (labels ls).Nodup)
    (h : .label n :: dest <:+ ls) : behind n ls = some dest := by
  induction ls with
  | nil => cases List.suffix_nil.1 h
  | cons line rest ih =>
      rcases List.suffix_cons_iff.1 h with heq | hrest
      · cases heq
        rw [behind, if_pos rfl]
      · cases line with
        | label m =>
            obtain ⟨hm, hnodup⟩ := List.nodup_cons.1 nodup
            have hn : n ∈ labels rest :=
              (hrest.sublist.filterMap defines?).subset (List.mem_cons_self (a := n))
            have hne : m ≠ n := fun heq => hm (heq ▸ hn)
            rw [behind, if_neg hne]
            exact ih hnodup hrest
        | jump kind m => exact ih nodup hrest
        | insn i => exact ih nodup hrest
        | epilogue => exact ih nodup hrest

/-- What is behind a label stands behind it in the lines. -/
theorem suffix_behind {n : Nat} {dest : List (Line ι)} (h : behind n ls = some dest) :
    .label n :: dest <:+ ls := by
  induction ls with
  | nil => cases h
  | cons line rest ih =>
      have hin : behind n rest = some dest → .label n :: dest <:+ line :: rest :=
        fun h => (ih h).trans (List.suffix_cons line rest)
      cases line with
      | label m =>
          rw [behind] at h
          split at h
          · rename_i heq
            subst heq
            cases h
            exact List.suffix_refl _
          · exact hin h
      | jump kind m => exact hin h
      | insn i => exact hin h
      | epilogue => exact hin h

-- ======================================================= two runs abreast

/-- Whether a run over consolidated lines stands where the run before stands,
or has passed one label more. -/
inductive Level (links : List (Nat × Nat)) (rest : List (Line ι)) : List (Line ι) → Prop
  | here : Level links rest (merged links rest)
  | past {n : Nat} {p : List (Line ι)} : merged links rest = .label n :: p → Level links rest p

/-- Where a run stands level is told by what is left of the lines ahead. -/
theorem Level.congr {links : List (Nat × Nat)} {rest rest' p : List (Line ι)}
    (h : Level links rest p) (heq : merged links rest' = merged links rest) :
    Level links rest' p := by
  cases h with
  | here =>
      rw [← heq]
      exact .here
  | past hpast => exact .past (heq.trans hpast)

/-- In front of a line that is no label the two stand at the same line. -/
theorem Level.eq {links : List (Nat × Nat)} {rest p : List (Line ι)} (h : Level links rest p)
    (hlabel : ∀ n tail, merged links rest ≠ .label n :: tail) : p = merged links rest := by
  cases h with
  | here => rfl
  | past hpast => exact absurd hpast (hlabel _ _)

/-- Two runs, over lines and over what consolidation makes of them, that have
done the same and stand level, or have both stopped. -/
inductive Abreast (ls : List (Line ι)) : Run ι → Run ι → Prop
  | stopped (asked : Nat) (done : List (Line ι)) :
      Abreast ls ⟨none, asked, done⟩ ⟨none, asked, done⟩
  | running (asked : Nat) (done : List (Line ι)) {rest p : List (Line ι)} (hrest : rest <:+ ls)
      (hlevel : Level (aliases ls) rest p) :
      Abreast ls ⟨some rest, asked, done⟩ ⟨some p, asked, done⟩

/-- Runs that are abreast have done the same. -/
theorem Abreast.same {r r' : Run ι} (h : Abreast ls r r') : Same r r' := by
  cases h with
  | stopped asked done => exact ⟨rfl, rfl, Iff.rfl⟩
  | running asked done hrest hlevel => exact ⟨rfl, rfl, by simp⟩

/-- How far a run is from the end of the list. -/
def distance (r : Run ι) : Nat :=
  match r.ahead with
  | none => 0
  | some rest => rest.length

/-- Whether a step keeps two runs abreast, in which the run over consolidated
lines does the same, or nothing while the other comes closer to the end. -/
def StepsAbreast (ls : List (Line ι)) (outcomes : Nat → Bool) (r r' : Run ι) : Prop :=
  Abreast ls (step ls outcomes r) (step (mergeLabels ls) outcomes r')
    ∨ (Abreast ls (step ls outcomes r) r' ∧ (step ls outcomes r).distance < r.distance)

/-- A step over a label: both pass it, or the one that still has it does. -/
theorem step_label_abreast (outcomes : Nat → Bool) {n asked : Nat} {done tail p : List (Line ι)}
    (hrest : .label n :: tail <:+ ls) (hp : Level (aliases ls) (.label n :: tail) p) :
    StepsAbreast ls outcomes ⟨some (.label n :: tail), asked, done⟩ ⟨some p, asked, done⟩ := by
  have htail : tail <:+ ls := (List.suffix_cons _ tail).trans hrest
  have hlabel := merged_label (aliases ls) n tail
  cases hlookup : (aliases ls).lookup n with
  | some b =>
      rw [hlookup] at hlabel
      refine Or.inr ⟨.running asked done htail (hp.congr hlabel.symm), ?_⟩
      exact Nat.lt_succ_self _
  | none =>
      rw [hlookup] at hlabel
      have hlabel : merged (aliases ls) (.label n :: tail)
          = .label n :: merged (aliases ls) tail := hlabel
      cases hp with
      | here =>
          rw [hlabel]
          exact Or.inl (.running asked done htail .here)
      | past hpast =>
          rw [hlabel] at hpast
          cases hpast
          exact Or.inr ⟨.running asked done htail .here, Nat.lt_succ_self _⟩

section Distinct

variable (nodup : (labels ls).Nodup)

include nodup

/-- A label of what is left over is found in the consolidated lines. -/
theorem behind_merged {n : Nat} {rest p : List (Line ι)} (hrest : rest <:+ ls)
    (h : merged (aliases ls) rest = .label n :: p) : behind n (mergeLabels ls) = some p := by
  apply behind_suffix (nodup_labels_mergeLabels nodup)
  rw [← h]
  exact merged_suffix (aliases ls) hrest

/-- A jump and the jump that became of it arrive level, or both stop. -/
theorem arrive (n asked : Nat) (done : List (Line ι)) :
    Abreast ls ⟨behind n ls, asked, done⟩
      ⟨behind (ending ls n) (mergeLabels ls), asked, done⟩ := by
  cases hdest : behind n ls with
  | none =>
      -- an undefined label has no alias, and nothing comes to define it
      have hn := behind_none_iff.1 hdest
      have hend : ending ls n = n := resolve_of_lookup_none (lookup_aliases_none hn) _
      have hout : n ∉ labels (mergeLabels ls) := by
        rw [labels_mergeLabels]
        exact fun hin => hn (List.mem_filter.1 hin).1
      rw [hend, behind_none_iff.2 hout]
      exact .stopped asked done
  | some dest =>
      have hsuffix := suffix_behind hdest
      obtain ⟨row, tail, hrow, haliased⟩ := exists_row nodup (chain_ending nodup n) hsuffix
      have hlast : merged (aliases ls) (.label (ending ls n) :: tail)
          = .label (ending ls n) :: merged (aliases ls) tail := by
        rw [merged_label, lookup_ending nodup n]
        rfl
      have hmerged : merged (aliases ls) (.label n :: dest)
          = .label (ending ls n) :: merged (aliases ls) tail := by
        rw [hrow, merged_row haliased, hlast]
      rw [behind_merged nodup hsuffix hmerged]
      refine .running asked done ((List.suffix_cons _ _).trans hsuffix) ?_
      cases row with
      | nil =>
          obtain ⟨-, rfl⟩ := List.cons_eq_cons.1 hrow
          exact .here
      | cons m row =>
          obtain ⟨-, rfl⟩ := List.cons_eq_cons.1 hrow
          -- the label itself is gone, and the end of its row is one ahead
          obtain ⟨-, haliased⟩ := List.forall_mem_cons.1 haliased
          refine .past (n := ending ls n) ?_
          exact (merged_row haliased _).trans hlast

/-- A jump in front of the end of its label's chain leads forward. -/
theorem length_behind_lt {kind : Jump} {n : Nat} {dest tail p : List (Line ι)}
    (hdest : behind n ls = some dest) (hjump : .jump kind n :: tail <:+ ls)
    (h : merged (aliases ls) tail = .label (ending ls n) :: p) :
    dest.length < tail.length + 1 := by
  apply Nat.lt_of_not_le
  intro hle
  have hsuffix := suffix_behind hdest
  obtain ⟨row, rest, hrow, -⟩ := exists_row nodup (chain_ending nodup n) hsuffix
  -- otherwise the jump stands behind the row that its label is in
  have hbehind : .jump kind n :: tail <:+ rest := by
    have hin : .jump kind n :: tail <:+ .label n :: dest :=
      (List.suffix_of_suffix_length_le hjump ((List.suffix_cons _ _).trans hsuffix) hle).trans
        (List.suffix_cons _ _)
    rw [hrow] at hin
    rcases List.suffix_cons_iff.1 (suffix_of_row hin) with heq | hrest
    · cases heq
    · exact hrest
  -- and the row's last label would be defined once more behind the jump
  have htail : tail <:+ rest := (List.suffix_cons _ _).trans hbehind
  have hmem : ending ls n ∈ labels rest := by
    have hin : ending ls n ∈ labels (redirect (aliases ls) tail) := by
      rw [← labels_dropJumps]
      show ending ls n ∈ labels (merged (aliases ls) tail)
      rw [h]
      exact List.mem_cons_self
    rw [labels_redirect] at hin
    exact (htail.sublist.filterMap defines?).subset (List.mem_filter.1 hin).1
  have hlast : .label (ending ls n) :: rest <:+ ls := by
    have hend : .label (ending ls n) :: rest <:+ .label n :: dest := by
      rw [hrow]
      exact List.suffix_append _ _
    exact hend.trans hsuffix
  have hnodup : (labels (.label (ending ls n) :: rest)).Nodup :=
    nodup.sublist (hlast.sublist.filterMap defines?)
  exact (List.nodup_cons.1 hnodup).1 hmem

/-- A step over a jump: both take it or both pass it, or it was dropped in
front of its label. -/
theorem step_jump_abreast (outcomes : Nat → Bool) {kind : Jump} {n asked : Nat}
    {done tail p : List (Line ι)} (hrest : .jump kind n :: tail <:+ ls)
    (hp : Level (aliases ls) (.jump kind n :: tail) p) :
    StepsAbreast ls outcomes ⟨some (.jump kind n :: tail), asked, done⟩
      ⟨some p, asked, done⟩ := by
  have htail : tail <:+ ls := (List.suffix_cons _ tail).trans hrest
  have harrive := arrive nodup n
  rcases merged_jump (aliases ls) kind n tail with hline | ⟨rfl, hline, X, hX⟩
  · obtain rfl := hp.eq (by rw [hline]; exact fun _ _ => nofun)
    rw [hline]
    have hdecided : Abreast ls
        ⟨if outcomes asked then behind n ls else some tail, asked + 1, done⟩
        ⟨if outcomes asked then behind (ending ls n) (mergeLabels ls)
          else some (merged (aliases ls) tail), asked + 1, done⟩ := by
      split
      · exact harrive (asked + 1) done
      · exact .running (asked + 1) done htail .here
    cases kind with
    | jmp => exact Or.inl (harrive asked done)
    | je => exact Or.inl hdecided
    | jne => exact Or.inl hdecided
  · -- the jump was dropped in front of its label
    have hfound : behind (ending ls n) (mergeLabels ls) = some X :=
      behind_merged nodup htail hX
    have harrived := harrive asked done
    rw [hfound] at harrived
    cases hp with
    | here =>
        rw [hline, hX]
        exact Or.inl harrived
    | past hpast =>
        rw [hline, hX] at hpast
        cases hpast
        refine Or.inr ⟨harrived, ?_⟩
        show distance ⟨behind n ls, asked, done⟩ < tail.length + 1
        cases hdest : behind n ls with
        | none => exact Nat.succ_pos _
        | some dest => exact length_behind_lt nodup hdest hrest hX

/-- What the run over lines does in one step, the run over consolidated lines
does in one step, or in none while the other comes closer to the end. -/
theorem step_abreast (outcomes : Nat → Bool) {r r' : Run ι} (h : Abreast ls r r') :
    StepsAbreast ls outcomes r r' := by
  cases h with
  | stopped asked done => exact Or.inl (.stopped asked done)
  | @running asked done rest p hrest hp =>
      cases rest with
      | nil =>
          obtain rfl := hp.eq nofun
          exact Or.inl (.stopped asked done)
      | cons line tail =>
          have htail : tail <:+ ls := (List.suffix_cons line tail).trans hrest
          cases line with
          | label n => exact step_label_abreast outcomes hrest hp
          | insn i =>
              have hline := merged_insn (aliases ls) i tail
              obtain rfl := hp.eq (by rw [hline]; exact fun _ _ => nofun)
              rw [hline]
              exact Or.inl (.running asked (done ++ [Line.insn i]) htail .here)
          | epilogue =>
              have hline := merged_epilogue (aliases ls) tail
              obtain rfl := hp.eq (by rw [hline]; exact fun _ _ => nofun)
              rw [hline]
              exact Or.inl (.stopped asked (done ++ [Line.epilogue]))
          | jump kind n => exact step_jump_abreast nodup outcomes hrest hp

/-- As far as the run over lines comes, the run over consolidated lines comes
too. -/
theorem after_abreast (outcomes : Nat → Bool) (n : Nat) {r r' : Run ι} (h : Abreast ls r r') :
    ∃ n', Abreast ls (after ls outcomes n r) (after (mergeLabels ls) outcomes n' r') := by
  induction n generalizing r r' with
  | zero => exact ⟨0, h⟩
  | succ n ih =>
      rcases step_abreast nodup outcomes h with hboth | ⟨hone, -⟩
      · obtain ⟨n', hn'⟩ := ih hboth
        exact ⟨n' + 1, hn'⟩
      · obtain ⟨n', hn'⟩ := ih hone
        exact ⟨n', hn'⟩

/-- The run over lines catches up with a step of the run over consolidated
lines: it comes closer to the end only so often. -/
theorem catch_up (outcomes : Nat → Bool) {r r' : Run ι} (h : Abreast ls r r') :
    ∃ n, Abreast ls (after ls outcomes n r) (step (mergeLabels ls) outcomes r') := by
  induction hk : r.distance using Nat.strongRecOn generalizing r with
  | ind k ih =>
      rcases step_abreast nodup outcomes h with hboth | ⟨hone, hcloser⟩
      · exact ⟨1, hboth⟩
      · rw [hk] at hcloser
        obtain ⟨n, hn⟩ := ih _ hcloser hone rfl
        exact ⟨n + 1, hn⟩

/-- As far as the run over consolidated lines comes, the run over lines comes too. -/
theorem after_abreast_back (outcomes : Nat → Bool) (n' : Nat) {r r' : Run ι}
    (h : Abreast ls r r') :
    ∃ n, Abreast ls (after ls outcomes n r) (after (mergeLabels ls) outcomes n' r') := by
  induction n' generalizing r r' with
  | zero => exact ⟨0, h⟩
  | succ n' ih =>
      obtain ⟨m, hm⟩ := catch_up nodup outcomes h
      obtain ⟨n, hn⟩ := ih hm
      refine ⟨m + n, ?_⟩
      rw [after_add]
      exact hn

/-- Lines do the same before consolidation and after. -/
theorem alike_mergeLabels : Alike ls (mergeLabels ls) := by
  have hstart : Abreast ls (start ls) (start (mergeLabels ls)) :=
    .running 0 [] (List.suffix_refl ls) .here
  intro outcomes
  constructor
  · intro n
    obtain ⟨n', hn'⟩ := after_abreast nodup outcomes n hstart
    exact ⟨n', hn'.same⟩
  · intro n'
    obtain ⟨n, hn⟩ := after_abreast_back nodup outcomes n' hstart
    exact ⟨n, hn.same⟩

end Distinct

end Run

-- ==================================================== consolidated lines

/-- Consolidating lines that define no label twice preserves their behaviour:
the chains of aliases are acyclic and followed to their ends, no label comes
to be defined twice, what the kept jumps go to is defined if it was, and the
lines do the same. -/
theorem mergeLabels_preserves (nodup : (labels ls).Nodup) :
    WellFounded (fun m n => (aliases ls).lookup n = some m)
      ∧ (∀ n, Chain (aliases ls) n (ending ls n))
      ∧ (labels (mergeLabels ls)).Nodup
      ∧ (targets (mergeLabels ls)).Sublist ((targets ls).map (ending ls))
      ∧ (∀ n ∈ labels ls, ending ls n ∈ labels (mergeLabels ls))
      ∧ Run.Alike ls (mergeLabels ls) := by
  have hacyclic : WellFounded (fun m n => (aliases ls).lookup n = some m) :=
    ⟨fun n => (chain_ending nodup n).acc⟩
  exact ⟨hacyclic, chain_ending nodup, nodup_labels_mergeLabels nodup,
    targets_mergeLabels_sublist ls, fun _ => ending_mem nodup, Run.alike_mergeLabels nodup⟩

/-- A loop whose head and exit stand in rows of labels, with a jump that lands
on the next line once its label is consolidated. -/
def rowedLoop : List (Line String) :=
  [.label 0, .label 1, .insn "cmp eax, 3", .jump .je 4, .insn "inc eax", .jump .jmp 2, .label 3,
    .label 2, .jump .jmp 0, .label 4, .label 5, .epilogue]

/-- What becomes of the lines of `rowedLoop`. -/
theorem rowedLoop_preserved :
    mergeLabels rowedLoop
        = [.label 1, .insn "cmp eax, 3", .jump .je 5, .insn "inc eax", .label 2, .jump .jmp 1,
          .label 5, .epilogue]
      ∧ (labels rowedLoop).Nodup ∧ Run.Alike rowedLoop (mergeLabels rowedLoop) :=
  have nodup : (labels rowedLoop).Nodup := by decide
  ⟨by decide, nodup, (mergeLabels_preserves nodup).2.2.2.2.2⟩

end MiniC.Asm.Line
