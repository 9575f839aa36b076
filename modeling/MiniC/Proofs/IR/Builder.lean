/-
What building a function block by block guarantees.

# Names

A name that is handed out is new (`unique_fresh`): the candidates of a base are the
base itself and the base with a number behind it, which are all different
(`candidate_inj`), so one of the first candidates is free, if there are more of them
than names that are taken.

# Blocks

Blocks only grow at their end, and only the last block gets instructions, so the
instructions that a finished function has behind a stage of its construction are well
defined: that is `Ahead`, a relation between the blocks of that stage, the finished
ones, and what comes behind. An instruction behind a terminator opens a block of its
own, which control never reaches; elsewhere the block is `Live`, and then every step of
the builder is the plain one (`emit_live`, `jumpTo_live`).

# Labels

Every label is handed out before its block is opened, and no block is opened twice
(`Tidy`), so a jump finds the one block of its label (`goto_of_mem`).

Consumed by the proof that lowering preserves meaning.
-/
import MiniC.IR.Builder
import MiniC.Proofs.IR.Exec

namespace MiniC.IR

-- ================================================================= names

namespace Names

theorem repr_inj {j k : Nat} (h : Nat.repr j = Nat.repr k) : j = k := by
  have hdigits : Nat.toDigits 10 j = Nat.toDigits 10 k := by
    rw [← Nat.toList_repr, ← Nat.toList_repr, h]
  rw [← Nat.ofDigitChars_ten_toDigits (n := j), hdigits, Nat.ofDigitChars_ten_toDigits]

/-- A base is none of its candidates with a number. -/
theorem append_repr_ne (base : String) (k : Nat) : base ≠ base ++ Nat.repr k := by
  intro h
  have hlist := congrArg String.toList h
  rw [String.toList_append, Nat.toList_repr] at hlist
  exact Nat.toDigits_ne_nil (List.self_eq_append_right.1 hlist)

/-- The names of a base are all different. -/
theorem candidate_inj {base : String} {j k : Nat} (h : candidate base j = candidate base k) :
    j = k := by
  unfold candidate at h
  split at h
  · split at h
    · omega
    · exact absurd h (append_repr_ne base k)
  · split at h
    · exact absurd h.symm (append_repr_ne base j)
    · have hlist := congrArg String.toList h
      rw [String.toList_append, String.toList_append] at hlist
      exact repr_inj (String.toList_inj.1 (List.append_cancel_left hlist))

/-- A search that ends at a name that is taken has met no other. -/
theorem taken_of_firstFree {taken : List String} {base : String} : ∀ (fuel k : Nat),
    candidate base (firstFree taken base fuel k) ∈ taken →
    ∀ i < fuel, candidate base (k + i) ∈ taken
  | 0, _, _, _, hi => absurd hi (Nat.not_lt_zero _)
  | fuel + 1, k, h, i, hi => by
      unfold firstFree at h
      split at h
      · rename_i hk
        cases i with
        | zero => exact List.contains_iff_mem.1 hk
        | succ i =>
            have hrest := taken_of_firstFree fuel (k + 1) h i (Nat.lt_of_succ_lt_succ hi)
            rwa [Nat.add_right_comm] at hrest
      · rename_i hk
        exact absurd (List.contains_iff_mem.2 h) hk

/-- A name that is handed out was not taken before. -/
theorem unique_fresh (n : Names) (base : String) : (n.unique base).1 ∉ n.taken := by
  intro h
  have hall := taken_of_firstFree (n.taken.length + 1) (n.counter base) h
  have hnodup : ((List.range (n.taken.length + 1)).map
      fun i => candidate base (n.counter base + i)).Nodup := by
    refine List.Pairwise.map _ ?_ List.nodup_range
    intro i j hne heq
    exact hne (Nat.add_left_cancel (candidate_inj heq))
  have hsubset : ((List.range (n.taken.length + 1)).map
      fun i => candidate base (n.counter base + i)) ⊆ n.taken := by
    intro name hname
    obtain ⟨i, hi, rfl⟩ := List.mem_map.1 hname
    exact hall i (List.mem_range.1 hi)
  have hlength := hnodup.length_le_of_subset hsubset
  rw [List.length_map, List.length_range] at hlength
  omega

end Names

-- ============================================================ what comes

/-- `Ahead blocks whole rest`: `whole` goes on from `blocks`, and behind the
end of their last block come the instructions `rest`. -/
def Ahead (blocks whole : List Block) (rest : List Instr) : Prop :=
  ∃ front label body later,
    blocks = front ++ [⟨label, body⟩] ∧ whole = front ++ ⟨label, body ++ rest⟩ :: later

/-- A function that was started has a last block. -/
theorem blocks_concat {blocks : List Block} (h : blocks ≠ []) :
    ∃ front label body, blocks = front ++ [⟨label, body⟩] := by
  rcases List.eq_nil_or_concat blocks with hnil | ⟨front, block, hconcat⟩
  · exact absurd hnil h
  · exact ⟨front, block.label, block.body, by rw [hconcat, List.concat_eq_append]⟩

/-- An instruction is added to the last block. -/
theorem addToLast_concat (instr : Instr) (label : String) (body : List Instr) :
    ∀ front : List Block, Builder.addToLast instr (front ++ [⟨label, body⟩])
      = front ++ [⟨label, body ++ [instr]⟩]
  | [] => rfl
  | [block] => rfl
  | block :: next :: front => by
      show block :: Builder.addToLast instr (next :: front ++ [⟨label, body⟩]) = _
      rw [addToLast_concat instr label body (next :: front)]
      rfl

namespace Ahead

variable {blocks whole further : List Block} {rest rest' : List Instr}

theorem refl (h : blocks ≠ []) : Ahead blocks blocks [] := by
  obtain ⟨front, label, body, rfl⟩ := blocks_concat h
  exact ⟨front, label, body, [], rfl, by rw [List.append_nil]⟩

theorem whole_ne_nil (h : Ahead blocks whole rest) : whole ≠ [] := by
  obtain ⟨front, label, body, later, -, rfl⟩ := h
  exact List.append_ne_nil_of_right_ne_nil _ (List.cons_ne_nil _ _)

/-- What comes is determined by the stage and the whole. -/
theorem functional (h : Ahead blocks whole rest) (h' : Ahead blocks whole rest') :
    rest = rest' := by
  obtain ⟨front, label, body, later, rfl, rfl⟩ := h
  obtain ⟨front', label', body', later', hblocks, hwhole⟩ := h'
  obtain ⟨rfl, hlast⟩ := List.append_inj' hblocks rfl
  cases hlast
  have hbody := List.head_eq_of_cons_eq (List.append_cancel_left hwhole)
  injection hbody with _ hbody
  exact List.append_cancel_left hbody

/-- What comes behind a stage comes behind those before it. -/
theorem trans (h : Ahead blocks whole rest) (h' : Ahead whole further rest') :
    ∃ rest'', Ahead blocks further rest'' := by
  obtain ⟨front, label, body, later, rfl, rfl⟩ := h
  obtain ⟨front', label', body', later', hwhole, rfl⟩ := h'
  rcases List.eq_nil_or_concat later with rfl | ⟨between, block, rfl⟩
  · obtain ⟨rfl, hlast⟩ := List.append_inj' hwhole rfl
    cases hlast
    exact ⟨rest ++ rest', front, label, body, later', rfl, by rw [List.append_assoc]⟩
  · rw [List.concat_eq_append, ← List.cons_append, ← List.append_assoc] at hwhole
    obtain ⟨rfl, -⟩ := List.append_inj' hwhole rfl
    exact ⟨rest, front, label, body, _, rfl, by rw [List.append_assoc, List.cons_append]⟩

/-- In front of an instruction that was added comes the instruction, then
what comes behind it. -/
theorem of_addToLast {instr : Instr} (hne : blocks ≠ [])
    (h : Ahead (Builder.addToLast instr blocks) whole rest) :
    Ahead blocks whole (instr :: rest) := by
  obtain ⟨front, label, body, rfl⟩ := blocks_concat hne
  rw [addToLast_concat] at h
  obtain ⟨front', label', body', later, hblocks, rfl⟩ := h
  obtain ⟨rfl, hlast⟩ := List.append_inj' hblocks rfl
  cases hlast
  exact ⟨front, label, body, later, rfl, by rw [List.append_assoc]; rfl⟩

/-- In front of a block that was opened nothing more comes in the block
before; what comes in the new one is in the whole. -/
theorem of_append {label : String} (hne : blocks ≠ [])
    (h : Ahead (blocks ++ [⟨label, []⟩]) whole rest) :
    Ahead blocks whole [] ∧ ⟨label, rest⟩ ∈ whole := by
  obtain ⟨front, label', body, rfl⟩ := blocks_concat hne
  obtain ⟨front', label'', body', later, hblocks, rfl⟩ := h
  obtain ⟨rfl, hlast⟩ := List.append_inj' hblocks rfl
  cases hlast
  refine ⟨⟨front, label', body, ⟨label, rest⟩ :: later, rfl, ?_⟩, ?_⟩
  · rw [List.append_nil, List.append_assoc]
    rfl
  · exact List.mem_append_right _ List.mem_cons_self

end Ahead

/-- A jump finds the block of its label, if no other block has it. -/
theorem goto_of_mem {fn : Function} (hnodup : (fn.blocks.map (·.label)).Nodup) {label : String}
    {body : List Instr} (h : ⟨label, body⟩ ∈ fn.blocks) : fn.goto label = .ok body := by
  have hfind : ∀ {blocks : List Block}, (blocks.map (·.label)).Nodup →
      ⟨label, body⟩ ∈ blocks →
      blocks.find? (fun block => block.label == label) = some ⟨label, body⟩ := by
    intro blocks hnodup hmem
    induction blocks with
    | nil => cases hmem
    | cons block rest ih =>
        rw [List.map_cons, List.nodup_cons] at hnodup
        rcases List.mem_cons.1 hmem with rfl | hmem
        · rw [List.find?_cons, beq_self_eq_true]
        · have hne : (block.label == label) = false := by
            refine beq_false_of_ne fun heq => hnodup.1 ?_
            rw [heq]
            exact List.mem_map.2 ⟨_, hmem, rfl⟩
          rw [List.find?_cons, hne]
          exact ih hnodup.2 hmem
  unfold Function.goto
  rw [hfind hnodup h]

-- ================================================================ growth

/-- Whether an instruction that is added now is reached from those before
it. -/
structure Live (b : Builder) : Prop where
  started : b.function.blocks ≠ []
  running : b.terminated = false

/-- The labels of a function's blocks. -/
def labels (b : Builder) : List String := b.function.blocks.map (·.label)

/-- Whether all labels are different and handed out, those included whose
blocks are yet to be opened. -/
structure Tidy (b : Builder) (pending : List String) : Prop where
  nodup : (labels b ++ pending).Nodup
  taken : ∀ label ∈ labels b ++ pending, label ∈ b.names.taken

/-- How a builder goes on from another: the blocks it had are still there,
the last perhaps longer, and nothing is handed out twice. -/
structure Grows (b b' : Builder) : Prop where
  ahead : ∃ rest, Ahead b.function.blocks b'.function.blocks rest
  returnType : b'.function.returnType = b.function.returnType
  params : b'.function.params = b.function.params
  temps : b.nextTemp ≤ b'.nextTemp
  names : b.names.taken ⊆ b'.names.taken

variable {b b' b'' : Builder} {pending : List String}

theorem Grows.refl (h : b.function.blocks ≠ []) : Grows b b :=
  ⟨⟨[], .refl h⟩, rfl, rfl, Nat.le_refl _, List.Subset.refl _⟩

/-- What grows twice grows. -/
theorem Grows.trans (h : Grows b b') (h' : Grows b' b'') : Grows b b'' := by
  obtain ⟨rest, hahead⟩ := h.ahead
  obtain ⟨rest', hahead'⟩ := h'.ahead
  exact ⟨hahead.trans hahead', h'.returnType.trans h.returnType, h'.params.trans h.params,
    Nat.le_trans h.temps h'.temps, List.Subset.trans h.names h'.names⟩

theorem Grows.started (h : Grows b b') : b'.function.blocks ≠ [] := by
  obtain ⟨rest, hahead⟩ := h.ahead
  exact hahead.whole_ne_nil

/-- What a stage grows to has the finished function ahead, and so has the stage. -/
theorem Grows.to_function (h : Grows b b') {fn : Function} {rest : List Instr}
    (hfn : Ahead b'.function.blocks fn.blocks rest) :
    ∃ rest', Ahead b.function.blocks fn.blocks rest' := by
  obtain ⟨rest', hahead⟩ := h.ahead
  exact hahead.trans hfn

/-- The order of the blocks to be opened does not matter. -/
theorem Tidy.perm {pending' : List String} (h : Tidy b pending) (hperm : pending.Perm pending') :
    Tidy b pending' := by
  have hall := hperm.append_left (labels b)
  exact ⟨hall.nodup_iff.1 h.nodup, fun label hlabel => h.taken label (hall.mem_iff.2 hlabel)⟩

/-- A block that was to be opened may also stay closed. -/
theorem Tidy.tail {label : String} (h : Tidy b (label :: pending)) : Tidy b pending := by
  have hsub : (labels b ++ pending).Sublist (labels b ++ label :: pending) :=
    (List.sublist_cons_self label pending).append_left (labels b)
  exact ⟨h.nodup.sublist hsub, fun l hl => h.taken l (hsub.subset hl)⟩

-- ======================================================= building steps

theorem grows_unique (h : b.function.blocks ≠ []) (base : String) :
    Grows b (b.unique base).2 :=
  ⟨⟨[], .refl h⟩, rfl, rfl, Nat.le_refl _, List.subset_cons_self _ _⟩

/-- A name that is handed out can be the label of a new block. -/
theorem tidy_unique (h : Tidy b pending) (base : String) :
    Tidy (b.unique base).2 ((b.unique base).1 :: pending) := by
  have hfresh : (b.unique base).1 ∉ b.names.taken := b.names.unique_fresh base
  refine ⟨?_, ?_⟩
  · show (labels b ++ (b.unique base).1 :: pending).Nodup
    rw [List.perm_middle.nodup_iff, List.nodup_cons]
    exact ⟨fun hmem => hfresh (h.taken _ hmem), h.nodup⟩
  · intro label hlabel
    show label ∈ (b.unique base).1 :: b.names.taken
    rcases List.mem_cons.1 (List.perm_middle.mem_iff.1 hlabel) with rfl | hold
    · exact List.mem_cons_self
    · exact List.mem_cons_of_mem _ (h.taken label hold)

theorem grows_freshTemp (h : b.function.blocks ≠ []) : Grows b b.freshTemp.2 :=
  ⟨⟨[], .refl h⟩, rfl, rfl, Nat.le_succ _, List.Subset.refl _⟩

/-- A block that is opened comes behind the others. -/
theorem grows_append (h : b.function.blocks ≠ []) (label : String) :
    Grows b (b.append label) := by
  refine ⟨⟨[], ?_⟩, rfl, rfl, Nat.le_refl _, List.Subset.refl _⟩
  obtain ⟨front, first, body, hblocks⟩ := blocks_concat h
  refine ⟨front, first, body, [⟨label, []⟩], hblocks, ?_⟩
  show b.function.blocks ++ [⟨label, []⟩] = _
  rw [hblocks, List.append_nil, List.append_assoc]
  rfl

/-- A block is opened that was to be opened. -/
theorem tidy_append {label : String} (h : Tidy b (label :: pending)) :
    Tidy (b.append label) pending := by
  have hlabels : labels (b.append label) ++ pending = labels b ++ label :: pending := by
    show (b.function.blocks ++ [Block.mk label []]).map (·.label) ++ pending = _
    rw [List.map_append, List.append_assoc]
    rfl
  exact ⟨hlabels ▸ h.nodup, fun l hl => h.taken l (hlabels ▸ hl)⟩

/-- A block that was opened last is live. -/
theorem live_append (b : Builder) (label : String) : Live (b.append label) := by
  refine ⟨List.append_ne_nil_of_right_ne_nil _ (List.cons_ne_nil _ _), ?_⟩
  show ((b.function.blocks ++ [Block.mk label []]).getLast?).any Block.terminated = false
  rw [List.getLast?_concat]
  rfl

/-- The builder with an instruction added to its last block. -/
def added (b : Builder) (instr : Instr) : Builder :=
  { b with function := { b.function with blocks := Builder.addToLast instr b.function.blocks } }

theorem push_started (h : b.function.blocks ≠ []) (instr : Instr) :
    b.push instr = added b instr := by
  unfold Builder.push added
  rw [if_neg (by rwa [List.isEmpty_iff])]

/-- In a live block an instruction is added as it is. -/
theorem emit_live (h : Live b) (instr : Instr) : b.emit instr = added b instr := by
  unfold Builder.emit
  rw [h.running, if_neg Bool.false_ne_true, push_started h.started]

/-- Behind a terminator an instruction stands in a block of its own. -/
theorem emit_dead (h : b.terminated = true) (instr : Instr) :
    b.emit instr
      = added ((b.unique "unreachable").2.append (b.unique "unreachable").1) instr := by
  unfold Builder.emit
  rw [h, if_pos rfl]
  exact push_started (live_append _ _).started instr

/-- An instruction comes behind the others. -/
theorem grows_added (h : b.function.blocks ≠ []) (instr : Instr) : Grows b (added b instr) := by
  refine ⟨⟨[instr], ?_⟩, rfl, rfl, Nat.le_refl _, List.Subset.refl _⟩
  obtain ⟨front, label, body, hblocks⟩ := blocks_concat h
  refine ⟨front, label, body, [], hblocks, ?_⟩
  show Builder.addToLast instr b.function.blocks = _
  rw [hblocks, addToLast_concat]

theorem labels_added (b : Builder) (instr : Instr) : labels (added b instr) = labels b := by
  show (Builder.addToLast instr b.function.blocks).map (·.label) = b.function.blocks.map (·.label)
  by_cases h : b.function.blocks = []
  · rw [h]
    rfl
  · obtain ⟨front, label, body, hblocks⟩ := blocks_concat h
    rw [hblocks, addToLast_concat, List.map_append, List.map_append]
    rfl

/-- An instruction opens no block. -/
theorem tidy_added (h : Tidy b pending) (instr : Instr) : Tidy (added b instr) pending := by
  have hlabels := labels_added b instr
  refine ⟨?_, ?_⟩
  · rw [hlabels]
    exact h.nodup
  · rw [hlabels]
    exact h.taken

/-- A block has ended if its last instruction is a terminator. -/
theorem terminated_added (h : b.function.blocks ≠ []) (instr : Instr) :
    (added b instr).terminated = instr.isTerminator := by
  obtain ⟨front, label, body, hblocks⟩ := blocks_concat h
  show ((Builder.addToLast instr b.function.blocks).getLast?).any Block.terminated = _
  rw [hblocks, addToLast_concat, List.getLast?_concat]
  show ((body ++ [instr]).getLast?).any Instr.isTerminator = _
  rw [List.getLast?_concat]
  rfl

/-- Whichever block an instruction goes to. -/
theorem grows_emit (h : b.function.blocks ≠ []) (instr : Instr) : Grows b (b.emit instr) := by
  cases hend : b.terminated with
  | false =>
      rw [emit_live ⟨h, hend⟩]
      exact grows_added h instr
  | true =>
      rw [emit_dead hend]
      have hunique := grows_unique h "unreachable"
      have happend := grows_append hunique.started (b.unique "unreachable").1
      exact (hunique.trans happend).trans (grows_added happend.started instr)

/-- An instruction keeps labels in order, whether its block is live or not. -/
theorem tidy_emit (h : b.function.blocks ≠ []) (ht : Tidy b pending) (instr : Instr) :
    Tidy (b.emit instr) pending := by
  cases hend : b.terminated with
  | false =>
      rw [emit_live ⟨h, hend⟩]
      exact tidy_added ht instr
  | true =>
      rw [emit_dead hend]
      exact tidy_added (tidy_append (tidy_unique ht "unreachable")) instr

theorem terminated_emit (h : b.function.blocks ≠ []) (instr : Instr) :
    (b.emit instr).terminated = instr.isTerminator := by
  cases hend : b.terminated with
  | false =>
      rw [emit_live ⟨h, hend⟩]
      exact terminated_added h instr
  | true =>
      rw [emit_dead hend]
      exact terminated_added (live_append _ _).started instr

section Collected

variable {α : Type} (f : Instr → Option α)

/-- What is found in the instructions of blocks, in their order. -/
def collected (blocks : List Block) : List α :=
  blocks.flatMap fun block => block.body.filterMap f

/-- A block that is opened has nothing to collect. -/
theorem collected_append (b : Builder) (label : String) :
    collected f (b.append label).function.blocks = collected f b.function.blocks := by
  show collected f (b.function.blocks ++ [Block.mk label []]) = _
  simp [collected]

theorem collected_added (h : b.function.blocks ≠ []) (instr : Instr) :
    collected f (added b instr).function.blocks
      = collected f b.function.blocks ++ (f instr).toList := by
  obtain ⟨front, label, body, hblocks⟩ := blocks_concat h
  show collected f (Builder.addToLast instr b.function.blocks) = _
  rw [hblocks, addToLast_concat]
  cases hfound : f instr <;> simp [collected, hfound]

/-- What is collected of a function is collected of one instruction more. -/
theorem collected_emit (h : b.function.blocks ≠ []) (instr : Instr) :
    collected f (b.emit instr).function.blocks
      = collected f b.function.blocks ++ (f instr).toList := by
  cases hend : b.terminated with
  | false =>
      rw [emit_live ⟨h, hend⟩]
      exact collected_added f h instr
  | true =>
      rw [emit_dead hend, collected_added f (live_append _ _).started, collected_append]
      rfl

end Collected

/-- In a live block a jump is added as it is. -/
theorem jumpTo_live (h : Live b) (label : String) : b.jumpTo label = added b (.jump label) := by
  unfold Builder.jumpTo
  rw [h.running, if_neg Bool.false_ne_true, emit_live h]

theorem grows_jumpTo (h : b.function.blocks ≠ []) (label : String) :
    Grows b (b.jumpTo label) := by
  unfold Builder.jumpTo
  split
  · exact .refl h
  · exact grows_emit h _

/-- A jump keeps labels in order. -/
theorem tidy_jumpTo (h : b.function.blocks ≠ []) (ht : Tidy b pending) (label : String) :
    Tidy (b.jumpTo label) pending := by
  unfold Builder.jumpTo
  split
  · exact ht
  · exact tidy_emit h ht _

end MiniC.IR
