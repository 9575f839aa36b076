/-
The invariant under which lowering builds a control-flow graph (`Orderly`),
kept through code that control reaches and code that it does not, and what
the lowering of an expression does to it.

# Temporaries

Temporaries are used in the block that defines them, so an expression must
not change blocks between two operands. It does not: a block of its own is
opened only for code behind a terminator, and what defines a temporary is
none (`Drawn`, and its stability in `Runs`). They are numbered in the order in which
they are defined (`Numbered`), since each definition takes the next number.

# Slots

The slots that a label comes with are those of the names in sight when it is handed
out. The code behind the label can name no others, and all of them are reserved at
every jump to it, since a jump leaves only scopes that were opened since
(`Ordered`). A slot is at hand (`AtHand`) if it is a global's, if its name is in sight,
or if it was just reserved in the block under construction, as that of a variable is
before its name comes into sight.

# Expressions

A step of an expression `Runs` if it only adds and keeps what is orderly, drawn and at
hand; its answer is then known where it ends. Two operands are lowered one after the
other and then brought to one type, so what is known of the first has to be known
behind the second: `Known.runs` says so, and with it each kind of expression delivers a
value that is known (`expr_delivers`).

Consumed by the proof that lowered functions are control-flow graphs.
-/
import MiniC.Proofs.IR.Graph
import MiniC.Proofs.Lowering.Growth

namespace MiniC

namespace Lowering

open IR Steps

-- ====================================================== what is at hand

/-- Whether an instruction stands in the block that is open. -/
def Drawn (b : Builder) (instr : Instr) : Prop :=
  b.terminated = false ∧ ∃ block, b.current? = some block ∧ instr ∈ block.body

/-- Whether the next instruction can read a value. -/
def Known (s : State) : Value → Prop
  | .constant _ _ => True
  | .temp ty index => ∃ definition, Drawn s.builder (.define index definition) ∧ definition.ty = ty
  | .argument ty name => (name, ty) ∈ s.builder.function.params

/-- Whether the next instruction can use a slot. -/
def AtHand (globals : List (String × Slot)) (s : State) (slot : Slot) : Prop :=
  (slot.isGlobal = true ∧ slot ∈ globals.map (·.2))
    ∨ (slot.isGlobal = false ∧ (slot ∈ s.slots ∨ Drawn s.builder (.alloca slot)))

/-- Whether an instruction can be the next one, given labels with the slots
that they come with. -/
structure Usable (globals : List (String × Slot)) (promised : List (String × List Slot))
    (s : State) (instr : Instr) : Prop where
  values : ∀ value ∈ instr.values, Known s value
  slots : ∀ slot ∈ instr.slots, AtHand globals s slot
  targets : ∀ target ∈ instr.targets, (target, s.slots) ∈ promised

/-- Whether the function under construction is in order, the given labels
come with the given slots, and all storage in sight is reserved where the
next instruction stands. -/
def Ordered (globals : List (String × Slot)) (promised : List (String × List Slot))
    (pending : List String) (s : State) : Prop :=
  ∃ entry, Formed (globals.map (·.2)) entry pending s.builder
    ∧ (∀ p ∈ promised, entry p.1 = p.2 ∧ p.1 ∈ labels s.builder ++ pending)
    ∧ ∀ slot ∈ s.slots, ∀ block, s.builder.current? = some block →
      Reserved entry block.label block.body slot

/-- Whether temporaries are numbered in the order of their definitions. -/
def Numbered (b : Builder) : Prop := definitions b.function.blocks = List.range b.nextTemp

/-- The invariant of lowering. -/
structure Orderly (globals : List (String × Slot)) (promised : List (String × List Slot))
    (pending : List String) (s : State) : Prop where
  ordered : Ordered globals promised pending s
  numbered : Numbered s.builder

variable {globals : List (String × Slot)} {promised promised' : List (String × List Slot)}
  {pending pending' : List String} {s t u : State} {instr : Instr}

/-- The slots in sight are those of the scopes. -/
theorem slots_congr (h : t.scopes = s.scopes) : t.slots = s.slots := by
  unfold State.slots
  rw [h]

theorem Ordered.started (h : Ordered globals promised pending s) : s.Started := by
  obtain ⟨entry, hformed, -, -⟩ := h
  exact hformed.started

theorem current_exists (h : s.Started) : ∃ block, s.builder.current? = some block := by
  obtain ⟨front, label, body, hblocks⟩ := blocks_concat h
  refine ⟨⟨label, body⟩, ?_⟩
  unfold Builder.current?
  rw [hblocks, List.getLast?_concat]

/-- Labels may be forgotten. -/
theorem Ordered.weaken (h : Ordered globals promised pending s) (hsub : promised' ⊆ promised) :
    Ordered globals promised' pending s := by
  obtain ⟨entry, hformed, hpromised, hsight⟩ := h
  exact ⟨entry, hformed, fun p hp => hpromised p (hsub hp), hsight⟩

/-- The order of the blocks to be opened does not matter. -/
theorem Ordered.perm (h : Ordered globals promised pending s) (hperm : pending.Perm pending') :
    Ordered globals promised pending' s := by
  obtain ⟨entry, hformed, hpromised, hsight⟩ := h
  have hall := hperm.append_left (labels s.builder)
  refine ⟨entry, ⟨hformed.tidy.perm hperm, hformed.first, hformed.ended, ?_⟩, ?_, hsight⟩
  · intro block hblock before instr behind hbody
    exact (hformed.placed block hblock before instr behind hbody).mono
      (fun _ hlabel => hall.mem_iff.1 hlabel) rfl fun _ _ => rfl
  · intro p hp
    exact ⟨(hpromised p hp).1, hall.mem_iff.1 (hpromised p hp).2⟩

/-- Names may go out of sight. -/
theorem Ordered.rescoped (h : Ordered globals promised pending s)
    (hbuilder : t.builder = s.builder) (hslots : t.slots ⊆ s.slots) :
    Ordered globals promised pending t := by
  obtain ⟨entry, hformed, hpromised, hsight⟩ := h
  unfold Ordered
  rw [hbuilder]
  exact ⟨entry, hformed, hpromised, fun slot hslot => hsight slot (hslots hslot)⟩

/-- A name comes into sight whose slot was just reserved. -/
theorem Ordered.bind (h : Ordered globals promised pending s) (name : String) {slot : Slot}
    (hdrawn : Drawn s.builder (.alloca slot)) :
    Ordered globals promised pending (s.bind name slot) := by
  obtain ⟨entry, hformed, hpromised, hsight⟩ := h
  have hslots : (s.bind name slot).slots ⊆ slot :: s.slots := by
    unfold State.bind
    split
    · exact List.subset_cons_self _ _
    · rename_i scope outer hscopes
      unfold State.slots
      rw [hscopes]
      exact List.Subset.refl _
  refine ⟨entry, ?_⟩
  rw [builder_bind]
  refine ⟨hformed, hpromised, ?_⟩
  intro other hother block hblock
  rcases List.mem_cons.1 (hslots hother) with rfl | hold
  · obtain ⟨-, block', hblock', hmem⟩ := hdrawn
    rw [hblock] at hblock'
    cases hblock'
    exact Or.inr hmem
  · exact hsight other hold block hblock

-- ======================================================== building steps

/-- A name that is handed out can be promised any slots. -/
theorem Ordered.unique (h : Ordered globals promised pending s) (slots : List Slot)
    {base name : String} (hstep : unique base s = .ok (name, t)) :
    Ordered globals ((name, slots) :: promised) (name :: pending) t := by
  obtain ⟨entry, hformed, hpromised, hsight⟩ := h
  obtain ⟨rfl, rfl⟩ := unique_ok.1 hstep
  have hold : ∀ label ∈ labels s.builder ++ pending, (if label = (s.builder.unique base).1
      then slots else entry label) = entry label := by
    intro label hlabel
    refine if_neg fun heq => ?_
    have htaken := hformed.tidy.taken label hlabel
    rw [heq] at htaken
    exact s.builder.names.unique_fresh base htaken
  have hlater : ∀ label ∈ labels s.builder ++ pending,
      label ∈ labels s.builder ++ (s.builder.unique base).1 :: pending := by
    intro label hlabel
    exact List.perm_middle.mem_iff.2 (List.mem_cons_of_mem _ hlabel)
  refine ⟨_, hformed.unique base slots, ?_, ?_⟩
  · intro p hp
    rcases List.mem_cons.1 hp with rfl | hp
    · exact ⟨if_pos rfl, List.mem_append_right _ List.mem_cons_self⟩
    · obtain ⟨hentry, hlabel⟩ := hpromised p hp
      exact ⟨(hold p.1 hlabel).trans hentry, hlater p.1 hlabel⟩
  · intro slot hslot block hblock
    have hmem : block ∈ s.builder.function.blocks := List.mem_of_getLast? hblock
    have hlabel := hold block.label
      (List.mem_append_left _ (List.mem_map.2 ⟨block, hmem, rfl⟩))
    refine (hsight slot hslot block hblock).imp (fun hentry => ?_) id
    show slot ∈ if block.label = _ then _ else _
    rw [hlabel]
    exact hentry

/-- Behind the end of a block one may be opened that comes with the slots in
sight. -/
theorem Ordered.opened {label : String} (h : Ordered globals promised (label :: pending) s)
    (hpromise : (label, s.slots) ∈ promised) (hend : s.builder.terminated = true) :
    Ordered globals promised pending (s.opened label) := by
  obtain ⟨entry, hformed, hpromised, hsight⟩ := h
  have hknown : labels (s.opened label).builder ++ pending
      = labels s.builder ++ label :: pending := by
    show labels (s.builder.append label) ++ pending = _
    rw [labels_append, List.append_assoc]
    rfl
  refine ⟨entry, hformed.append hend, ?_, ?_⟩
  · intro p hp
    rw [hknown]
    exact hpromised p hp
  · intro slot hslot block hblock
    have hblock : (s.builder.function.blocks ++ [Block.mk label []]).getLast? = some block := hblock
    rw [List.getLast?_concat] at hblock
    cases hblock
    refine Or.inl ?_
    rw [(hpromised _ hpromise).1]
    exact hslot

/-- A usable instruction is in order in the block that is open. -/
theorem Usable.placed (husable : Usable globals promised s instr)
    {entry : String → List Slot}
    (hformed : Formed (globals.map (·.2)) entry pending s.builder)
    (hpromised : ∀ p ∈ promised, entry p.1 = p.2 ∧ p.1 ∈ labels s.builder ++ pending)
    (hlive : s.builder.terminated = false) {block : Block}
    (hblock : s.builder.current? = some block)
    (hsight : ∀ slot ∈ s.slots, Reserved entry block.label block.body slot) :
    Placed (globals.map (·.2)) s.builder.function.params entry (labels s.builder ++ pending)
      block.label block.body instr := by
  have hdrawn : ∀ {other : Instr}, Drawn s.builder other → other ∈ block.body := by
    intro other hother
    obtain ⟨-, block', hblock', hmem⟩ := hother
    rw [hblock] at hblock'
    cases hblock'
    exact hmem
  refine ⟨hformed.running hlive hblock, ?_, ?_, ?_, ?_, ?_⟩
  · intro value hvalue
    have hknown := husable.values value hvalue
    cases value with
    | constant ty text => trivial
    | temp ty index =>
        obtain ⟨definition, hother, hty⟩ := hknown
        exact ⟨definition, hdrawn hother, hty⟩
    | argument ty name => exact hknown
  · intro slot hslot hglobal
    rcases husable.slots slot hslot with ⟨-, hmem⟩ | ⟨hlocal, -⟩
    · exact hmem
    · rw [hglobal] at hlocal
      cases hlocal
  · intro slot hslot hlocal
    rcases husable.slots slot hslot with ⟨hglobal, -⟩ | ⟨-, hin | halloca⟩
    · rw [hlocal] at hglobal
      cases hglobal
    · exact hsight slot hin
    · exact Or.inr (hdrawn halloca)
  · intro target htarget
    exact (hpromised _ (husable.targets target htarget)).2
  · intro target htarget slot hslot
    rw [(hpromised _ (husable.targets target htarget)).1] at hslot
    exact hsight slot hslot

/-- The state in which an instruction behind a terminator is added. -/
theorem emitted_dead (h : s.builder.terminated = true) (instr : Instr) :
    ∃ label v, unique "unreachable" s = .ok (label, v)
      ∧ s.emitted instr = (v.opened label).emitted instr := by
  refine ⟨_, _, unique_ok.2 ⟨rfl, rfl⟩, ?_⟩
  have hemit := emit_live (live_append (s.builder.unique "unreachable").2
    (s.builder.unique "unreachable").1) instr
  unfold State.emitted
  rw [emit_dead h, ← hemit]
  rfl

/-- An instruction is added to the block under construction. -/
theorem current_added {b : Builder} {block : Block} (h : b.current? = some block)
    (instr : Instr) :
    (added b instr).current? = some ⟨block.label, block.body ++ [instr]⟩ := by
  obtain ⟨front, hblocks⟩ := List.getLast?_eq_some_iff.1 h
  show (Builder.addToLast instr b.function.blocks).getLast? = _
  rw [hblocks, addToLast_concat, List.getLast?_concat]

/-- A usable instruction may be added to the block that is open. -/
theorem Ordered.emitted_live (h : Ordered globals promised pending s)
    (hlive : s.builder.terminated = false) (husable : Usable globals promised s instr) :
    Ordered globals promised pending (s.emitted instr) := by
  obtain ⟨block, hblock⟩ := current_exists h.started
  obtain ⟨entry, hformed, hpromised, hsight⟩ := h
  have hplaced := husable.placed hformed hpromised hlive hblock
    fun slot hslot => hsight slot hslot block hblock
  have hemit : (s.emitted instr).builder = added s.builder instr :=
    emit_live ⟨hformed.started, hlive⟩ instr
  unfold Ordered
  rw [hemit, labels_added]
  refine ⟨entry, hformed.added hblock hplaced, hpromised, ?_⟩
  intro slot hslot other hother
  rw [current_added hblock] at hother
  cases hother
  exact (hsight slot hslot block hblock).imp id fun hmem => List.mem_append_left _ hmem

/-- An instruction that is usable behind a terminator is so in a block of its
own. -/
theorem Usable.opened (h : Usable globals promised s instr) (hdead : s.builder.terminated = true)
    {base label : String} (hstep : Lowering.unique base s = .ok (label, t)) :
    Usable globals ((label, s.slots) :: promised) (t.opened label) instr := by
  obtain ⟨rfl, rfl⟩ := unique_ok.1 hstep
  have hdrawn : ∀ {other : Instr}, ¬ Drawn s.builder other := by
    intro other hother
    rw [hother.1] at hdead
    cases hdead
  refine ⟨?_, ?_, ?_⟩
  · intro value hvalue
    have hknown := h.values value hvalue
    cases value with
    | constant ty text => trivial
    | temp ty index =>
        obtain ⟨definition, hother, -⟩ := hknown
        exact absurd hother hdrawn
    | argument ty name => exact hknown
  · intro slot hslot
    rcases h.slots slot hslot with hglobal | ⟨hlocal, hin | halloca⟩
    · exact Or.inl hglobal
    · exact Or.inr ⟨hlocal, Or.inl hin⟩
    · exact absurd halloca hdrawn
  · intro target htarget
    exact List.mem_cons_of_mem _ (h.targets target htarget)

/-- Wherever it goes, a usable instruction may be added. -/
theorem Ordered.emitted (h : Ordered globals promised pending s)
    (husable : Usable globals promised s instr) :
    Ordered globals promised pending (s.emitted instr) := by
  cases hend : s.builder.terminated with
  | false => exact h.emitted_live hend husable
  | true =>
      obtain ⟨label, v, hstep, hemitted⟩ := emitted_dead hend instr
      have hv : v.slots = s.slots ∧ v.builder.terminated = s.builder.terminated := by
        obtain ⟨-, rfl⟩ := unique_ok.1 hstep
        exact ⟨rfl, rfl⟩
      have hopened := (h.unique s.slots hstep).opened (by rw [hv.1]; exact List.mem_cons_self)
        (hv.2.trans hend)
      rw [hemitted]
      refine (hopened.emitted_live (live_append _ _).running ?_).weaken (List.subset_cons_self _ _)
      exact husable.opened hend hstep

-- ======================================================== numbered temps

/-- An instruction defines at most one temporary. -/
theorem definitions_emit {b : Builder} (h : b.function.blocks ≠ []) (instr : Instr) :
    definitions (b.emit instr).function.blocks
      = definitions b.function.blocks ++ instr.index?.toList :=
  collected_emit Instr.index? h instr

theorem nextTemp_emit {b : Builder} (h : b.function.blocks ≠ []) (instr : Instr) :
    (b.emit instr).nextTemp = b.nextTemp := by
  cases hend : b.terminated with
  | false =>
      rw [emit_live ⟨h, hend⟩]
      rfl
  | true =>
      rw [emit_dead hend]
      rfl

/-- An instruction that defines nothing keeps the numbers in order. -/
theorem Numbered.emit {b : Builder} (h : b.function.blocks ≠ []) (hb : Numbered b)
    (hindex : instr.index? = none) : Numbered (b.emit instr) := by
  unfold Numbered
  rw [definitions_emit h, nextTemp_emit h, hindex, Option.toList_none, List.append_nil]
  exact hb

/-- An instruction that uses what is at hand keeps order. -/
theorem Orderly.emitted (h : Orderly globals promised pending s)
    (husable : Usable globals promised s instr) (hindex : instr.index? = none) :
    Orderly globals promised pending (s.emitted instr) :=
  ⟨h.ordered.emitted husable, h.numbered.emit h.ordered.started hindex⟩

/-- A definition takes the next number. -/
theorem Orderly.define (h : Orderly globals promised pending s) {definition : Definition}
    (husable : Usable globals promised s (.define s.builder.nextTemp definition)) {value : Value}
    (hstep : Lowering.define definition s = .ok (value, t)) :
    Orderly globals promised pending t := by
  obtain ⟨-, rfl⟩ := define_ok.1 hstep
  let v : State := { s with builder := s.builder.freshTemp.2 }
  obtain ⟨entry, hformed, hpromised, hsight⟩ := h.ordered
  have hv : Ordered globals promised pending v :=
    ⟨entry, ⟨⟨hformed.tidy.nodup, hformed.tidy.taken⟩, hformed.first, hformed.ended,
      hformed.placed⟩, hpromised, hsight⟩
  have husable' : Usable globals promised v (.define s.builder.nextTemp definition) := by
    refine ⟨fun value hvalue => ?_, husable.slots, husable.targets⟩
    have hknown := husable.values value hvalue
    cases value <;> exact hknown
  refine ⟨hv.emitted husable', ?_⟩
  unfold Numbered
  rw [definitions_emit hv.started, nextTemp_emit hv.started]
  show definitions s.builder.function.blocks ++ [s.builder.nextTemp]
    = List.range (s.builder.nextTemp + 1)
  rw [List.range_succ, ← h.numbered]

-- ========================================================== expressions

/-- How a state goes on from another without leaving the block that is
open. -/
structure Runs (globals : List (String × Slot)) (s t : State) : Prop where
  adds : Adds s t
  orderly : ∀ {promised pending}, Orderly globals promised pending s →
    Orderly globals promised pending t
  drawn : ∀ {instr}, Drawn s.builder instr → Drawn t.builder instr

theorem Runs.refl (h : s.Started) : Runs globals s s := ⟨.refl h, id, id⟩

/-- What runs twice runs. -/
theorem Runs.trans (h : Runs globals s t) (h' : Runs globals t u) : Runs globals s u :=
  ⟨h.adds.trans h'.adds, fun hs => h'.orderly (h.orderly hs), fun hs => h'.drawn (h.drawn hs)⟩

theorem Runs.started (h : Runs globals s t) : t.Started := h.adds.grows.started

/-- What is known stays known. -/
theorem Known.runs {value : Value} (hv : Known s value) (h : Runs globals s t) :
    Known t value := by
  cases value with
  | constant ty text => trivial
  | temp ty index =>
      obtain ⟨definition, hdrawn, hty⟩ := hv
      exact ⟨definition, h.drawn hdrawn, hty⟩
  | argument ty name =>
      show (name, ty) ∈ t.builder.function.params
      rw [h.adds.grows.params]
      exact hv

/-- A slot that is at hand stays so. -/
theorem AtHand.runs {slot : Slot} (hslot : AtHand globals s slot) (h : Runs globals s t) :
    AtHand globals t slot := by
  refine hslot.imp id (And.imp id (Or.imp ?_ h.drawn))
  rw [slots_congr h.adds.scopes]
  exact id

/-- What is added to an open block stands in it, with what stood in it
before. -/
theorem drawn_emit (instr : Instr) {b : Builder} (hstarted : b.function.blocks ≠ [])
    (hterm : instr.isTerminator = false) :
    Drawn (b.emit instr) instr ∧ ∀ {other}, Drawn b other → Drawn (b.emit instr) other := by
  have hlive : (b.emit instr).terminated = false := (terminated_emit hstarted instr).trans hterm
  refine ⟨⟨hlive, ?_⟩, ?_⟩
  · cases hend : b.terminated with
    | false =>
        obtain ⟨front, label, body, hblocks⟩ := blocks_concat hstarted
        have hcurrent : b.current? = some ⟨label, body⟩ := by
          unfold Builder.current?
          rw [hblocks, List.getLast?_concat]
        rw [emit_live ⟨hstarted, hend⟩]
        exact ⟨_, current_added hcurrent instr, List.mem_append_right _ (List.mem_singleton_self _)⟩
    | true =>
        rw [emit_dead hend]
        have hcurrent : ((b.unique "unreachable").2.append (b.unique "unreachable").1).current?
            = some ⟨(b.unique "unreachable").1, []⟩ := List.getLast?_concat ..
        exact ⟨_, current_added hcurrent instr, List.mem_singleton_self _⟩
  · intro other hother
    obtain ⟨hopen, block, hblock, hmem⟩ := hother
    refine ⟨hlive, ?_⟩
    rw [emit_live ⟨hstarted, hopen⟩]
    exact ⟨_, current_added hblock instr, List.mem_append_left _ hmem⟩

variable (globals)

/-- A store of a known value to a slot at hand runs. -/
theorem store_emitted_runs (hs : s.Started) {value : Value} {slot : Slot} (hv : Known s value)
    (hslot : AtHand globals s slot) : Runs globals s (s.emitted (.store value slot)) := by
  refine ⟨emit_additive _ _ () _ (emit_ok.2 rfl) hs, fun h => h.emitted ⟨?_, ?_, ?_⟩ rfl,
    (drawn_emit _ hs rfl).2⟩
  · intro other hother
    rw [List.mem_singleton.1 hother]
    exact hv
  · intro other hother
    rw [List.mem_singleton.1 hother]
    exact hslot
  · intro target htarget
    cases htarget

/-- A definition of known operands runs, and its temporary is known. -/
theorem define_runs (hs : s.Started) {definition : Definition} {value : Value}
    (h : define definition s = .ok (value, t))
    (hvalues : ∀ operand ∈ definition.values, Known s operand)
    (hslots : ∀ slot ∈ (Instr.define s.builder.nextTemp definition).slots,
      AtHand globals s slot) :
    Runs globals s t ∧ Known t value := by
  obtain ⟨rfl, ht⟩ := define_ok.1 h
  have husable : ∀ promised,
      Usable globals promised s (.define s.builder.nextTemp definition) := by
    intro promised
    refine ⟨hvalues, hslots, fun target htarget => ?_⟩
    cases htarget
  have hdrawn := drawn_emit (.define s.builder.nextTemp definition)
    (b := s.builder.freshTemp.2) hs rfl
  refine ⟨⟨define_additive definition s _ t h hs, fun hs' => hs'.define (husable _) h, ?_⟩, ?_⟩
  · intro instr hinstr
    rw [ht]
    exact hdrawn.2 hinstr
  · rw [ht]
    exact ⟨definition, hdrawn.1, rfl⟩

/-- A slot that is reserved is drawn in the block under construction. -/
theorem alloca_runs (hs : s.Started) {base : String} {ty : IR.Ty} {slot : Slot}
    (h : alloca base ty s = .ok (slot, t)) :
    Runs globals s t ∧ Drawn t.builder (.alloca slot) ∧ slot.isGlobal = false := by
  have hadds := alloca_additive base ty s slot t h hs
  unfold alloca at h
  simp only [bind_ok, emit_ok, pure_ok] at h
  obtain ⟨name, v, hunique, _, _, rfl, rfl, rfl⟩ := h
  have hv : v.Started ∧ ∀ {instr}, Drawn s.builder instr → Drawn v.builder instr := by
    obtain ⟨-, rfl⟩ := unique_ok.1 hunique
    exact ⟨hs, id⟩
  have hdrawn := drawn_emit (.alloca ⟨name, false, ty⟩) hv.1 rfl
  refine ⟨⟨hadds, ?_, fun hinstr => hdrawn.2 (hv.2 hinstr)⟩, hdrawn.1, rfl⟩
  intro promised pending ho
  -- the name of a slot is none of a block
  have hplain : Ordered globals promised pending v := by
    obtain ⟨entry, hformed, hpromised, hsight⟩ := ho.ordered
    obtain ⟨-, rfl⟩ := unique_ok.1 hunique
    exact ⟨entry, ⟨(tidy_unique hformed.tidy base).tail, hformed.first, hformed.ended,
      hformed.placed⟩, hpromised, hsight⟩
  have hnumbered : Numbered v.builder := by
    obtain ⟨-, rfl⟩ := unique_ok.1 hunique
    exact ho.numbered
  refine Orderly.emitted ⟨hplain, hnumbered⟩ ⟨?_, ?_, ?_⟩ rfl <;>
    (intro other hother; cases hother)

theorem recast_runs (hs : s.Started) {value result : Value} {ty : IR.Ty} (hv : Known s value)
    (h : recast value ty s = .ok (result, t)) : Runs globals s t ∧ Known t result := by
  unfold recast at h
  split at h
  · exact (fail_ok.1 h).elim
  · split at h
    · refine define_runs globals hs h ?_ fun slot hslot => by cases hslot
      exact List.forall_mem_cons.2 ⟨hv, List.forall_mem_singleton.2 trivial⟩
    · exact define_runs globals hs h (List.forall_mem_singleton.2 hv)
        fun slot hslot => by cases hslot

/-- A known value is known when it is converted. -/
theorem convert_runs (hs : s.Started) {value result : Value} {ty : IR.Ty} (hv : Known s value)
    (h : convert value ty s = .ok (result, t)) : Runs globals s t ∧ Known t result := by
  rw [convert_eq] at h
  split at h
  · obtain ⟨rfl, rfl⟩ := pure_ok.1 h
    exact ⟨.refl hs, hv⟩
  · cases value with
    | constant source text =>
        obtain ⟨hretype, rfl⟩ := lift_ok.1 h
        refine ⟨.refl hs, ?_⟩
        unfold retype at hretype
        dsimp only at hretype
        split at hretype
        · cases hretype
          trivial
        · split at hretype <;> split at hretype <;> cases hretype <;> trivial
    | temp source index => exact recast_runs globals hs hv h
    | argument source name => exact recast_runs globals hs hv h

theorem store_runs (hs : s.Started) {value result : Value} {slot : Slot} (hv : Known s value)
    (hslot : AtHand globals s slot) (h : store value slot s = .ok (result, t)) :
    Runs globals s t ∧ Known t result := by
  unfold store at h
  simp only [bind_ok, emit_ok, pure_ok] at h
  obtain ⟨converted, v, hconvert, _, _, rfl, rfl, rfl⟩ := h
  obtain ⟨hrun, hknown⟩ := convert_runs globals hs hv hconvert
  have hstore := store_emitted_runs globals hrun.started hknown (hslot.runs hrun)
  exact ⟨hrun.trans hstore, hknown.runs hstore⟩

/-- Known operands are known when they have one type. -/
theorem meet_runs (hs : s.Started) {lhs rhs : Value} {ty : IR.Ty} {l r : Value}
    (hl : Known s lhs) (hr : Known s rhs) (h : meet lhs rhs s = .ok ((ty, l, r), t)) :
    Runs globals s t ∧ Known t l ∧ Known t r := by
  unfold meet at h
  split at h
  · exact (fail_ok.1 h).elim
  · split at h
    · exact (fail_ok.1 h).elim
    · simp only [bind_ok, pure_ok] at h
      obtain ⟨l', v, hleft, r', w, hright, hpair, rfl⟩ := h
      cases hpair
      obtain ⟨hrun, hl'⟩ := convert_runs globals hs hl hleft
      obtain ⟨hrun', hr'⟩ := convert_runs globals hrun.started (hr.runs hrun) hright
      exact ⟨hrun.trans hrun', hl'.runs hrun', hr'⟩

/-- Two values that meet and are combined by a definition. -/
theorem combine_runs (hs : s.Started) (build : IR.Ty → Value → Value → Definition)
    (hvalues : ∀ ty l r, (build ty l r).values = [l, r])
    (hslots : ∀ n ty l r, (Instr.define n (build ty l r)).slots = []) {lhs rhs result : Value}
    (hl : Known s lhs) (hr : Known s rhs)
    (h : (meet lhs rhs >>= fun (ty, l, r) => define (build ty l r)) s = .ok (result, t)) :
    Runs globals s t ∧ Known t result := by
  obtain ⟨⟨ty, l, r⟩, v, hmeet, hdefine⟩ := bind_ok.1 h
  obtain ⟨hrun, hl', hr'⟩ := meet_runs globals hs hl hr hmeet
  obtain ⟨hrun', hresult⟩ := define_runs globals hrun.started hdefine
    (by
      rw [hvalues]
      exact List.forall_mem_cons.2 ⟨hl', List.forall_mem_singleton.2 hr'⟩)
    (by
      rw [hslots]
      exact nofun)
  exact ⟨hrun.trans hrun', hresult⟩

/-- Arithmetic on known operands is known. -/
theorem arith_runs (hs : s.Started) {op : Arith} {lhs rhs result : Value} (hl : Known s lhs)
    (hr : Known s rhs) (h : arith op lhs rhs s = .ok (result, t)) :
    Runs globals s t ∧ Known t result :=
  combine_runs globals hs (.arith op) (fun _ _ _ => rfl) (fun _ _ _ _ => rfl) hl hr h

theorem compare_runs (hs : s.Started) {op : Comparison} {lhs rhs result : Value}
    (hl : Known s lhs) (hr : Known s rhs) (h : compare op lhs rhs s = .ok (result, t)) :
    Runs globals s t ∧ Known t result :=
  combine_runs globals hs (fun _ => .compare op) (fun _ _ _ => rfl) (fun _ _ _ _ => rfl) hl hr h

/-- The storage of a name is at hand. -/
theorem storage_atHand (hglobals : ∀ b ∈ globals, b.2.isGlobal = true) (hlaid : Laid s)
    {name : String} {slot : Slot} (h : storage globals name s = .ok (slot, t)) :
    AtHand globals s slot ∧ t = s := by
  obtain ⟨hfound, rfl⟩ := storage_ok.1 h
  refine ⟨?_, rfl⟩
  cases hscopes : t.scopes.findSome? fun scope => scope.lookup name with
  | some found =>
      rw [hscopes] at hfound
      cases hfound
      have hin := mem_slots_of_find hscopes
      exact Or.inr ⟨hlaid.isLocal _ hin, Or.inl hin⟩
  | none =>
      rw [hscopes] at hfound
      have hmem := mem_of_lookup (hfound : globals.lookup name = some slot)
      exact Or.inl ⟨hglobals _ hmem, List.mem_map.2 ⟨_, hmem, rfl⟩⟩

theorem load_runs (hs : s.Started) {slot : Slot} (hslot : AtHand globals s slot) {value : Value}
    (h : load slot s = .ok (value, t)) : Runs globals s t ∧ Known t value :=
  define_runs globals hs h (fun operand hoperand => by cases hoperand)
    (List.forall_mem_singleton.2 hslot)

/-- A step of a slot at hand is known. -/
theorem step_runs (hs : s.Started) {op : Arith} {fixity : Fixity} {slot : Slot}
    (hslot : AtHand globals s slot) {result : Value}
    (h : step op fixity slot s = .ok (result, t)) : Runs globals s t ∧ Known t result := by
  unfold step at h
  simp only [bind_ok] at h
  obtain ⟨old, u, hload, new, v, harith, stored, w, hstore, h⟩ := h
  obtain ⟨hrun, hold⟩ := load_runs globals hs hslot hload
  obtain ⟨hrun', hnew⟩ := arith_runs globals hrun.started hold
    (show Known u (.constant old.ty "1") from trivial) harith
  obtain ⟨hrun'', hstored⟩ := store_runs globals hrun'.started hnew
    ((hslot.runs hrun).runs hrun') hstore
  have hall := (hrun.trans hrun').trans hrun''
  cases fixity with
  | before =>
      obtain ⟨rfl, rfl⟩ := pure_ok.1 h
      exact ⟨hall, hstored⟩
  | after =>
      obtain ⟨rfl, rfl⟩ := pure_ok.1 h
      exact ⟨hall, hold.runs (hrun'.trans hrun'')⟩

/-- Whether an expression is lowered to a value that can be read, in the
block that is open. -/
def Delivers (e : MiniC.Expr) : Prop :=
  ∀ ⦃s value t⦄, s.Started → Laid s → expr globals e s = .ok (value, t) →
    Runs globals s t ∧ Known t value

/-- The right operand is lowered, or it is the left one. -/
theorem operand_runs {rhs : MiniC.Expr} (hrhs : Delivers globals rhs) (hs : s.Started)
    (hlaid : Laid s) {operandsMatch : Bool} {left result : Value} (hleft : Known s left)
    {next : Value → Lower Value}
    (h : (if operandsMatch then pure left >>= next else expr globals rhs >>= next) s
      = .ok (result, t)) :
    ∃ right u, Runs globals s u ∧ Known u right ∧ next right u = .ok (result, t) := by
  cases operandsMatch with
  | true => exact ⟨left, s, .refl hs, hleft, h⟩
  | false =>
      obtain ⟨right, u, hright, hnext⟩ := bind_ok.1 h
      obtain ⟨hrun, hknown⟩ := hrhs hs hlaid hright
      exact ⟨right, u, hrun, hknown, hnext⟩

/-- What is assigned to is at hand. -/
theorem target_atHand (hglobals : ∀ b ∈ globals, b.2.isGlobal = true) (hlaid : Laid s)
    {e : MiniC.Expr} {slot : Slot} (h : target globals e s = .ok (slot, t)) :
    AtHand globals s slot ∧ t = s := by
  cases e with
  | ident i => exact storage_atHand globals hglobals hlaid h
  | _ => exact (fail_ok.1 h).elim

theorem stepTarget_atHand (hglobals : ∀ b ∈ globals, b.2.isGlobal = true) (hlaid : Laid s)
    {e : MiniC.Expr} {slot : Slot} (h : stepTarget globals e s = .ok (slot, t)) :
    AtHand globals s slot ∧ t = s := by
  cases e with
  | ident i => exact storage_atHand globals hglobals hlaid h
  | _ => exact (fail_ok.1 h).elim

theorem literal_known {lit : NumberLiteral} {value : Value} (h : literal lit = .ok value) :
    Known s value := by
  unfold literal at h
  split at h
  · cases h
    trivial
  · cases h

/-- An operation delivers what its operands do. -/
theorem binary_delivers (hglobals : ∀ b ∈ globals, b.2.isGlobal = true) {op : BinaryOp}
    {lhs rhs : MiniC.Expr} (hlhs : Delivers globals lhs) (hrhs : Delivers globals rhs)
    (operandsMatch : Bool) (pos : Position) :
    Delivers globals (.binary op lhs rhs false operandsMatch pos) := by
  intro s value t hs hlaid h
  unfold expr at h
  rw [if_neg Bool.false_ne_true] at h
  cases op with
  | assign =>
      simp only [bind_ok] at h
      obtain ⟨slot, _, htarget, right, u, hright, hstore⟩ := h
      obtain ⟨hslot, rfl⟩ := target_atHand globals hglobals hlaid htarget
      obtain ⟨hrun, hknown⟩ := hrhs hs hlaid hright
      obtain ⟨hrun', hresult⟩ := store_runs globals hrun.started hknown (hslot.runs hrun) hstore
      exact ⟨hrun.trans hrun', hresult⟩
  | compound op =>
      obtain ⟨slot, _, htarget, hloaded⟩ := bind_ok.1 h
      obtain ⟨hslot, rfl⟩ := target_atHand globals hglobals hlaid htarget
      obtain ⟨current, u, hload, hrest⟩ := bind_ok.1 hloaded
      obtain ⟨hrun, hcurrent⟩ := load_runs globals hs hslot hload
      obtain ⟨right, v, hrun₁, hknown, hresult⟩ := operand_runs globals hrhs hrun.started
        (hrun.adds.laid hlaid) hcurrent hrest
      obtain ⟨result, w, harith, hstore⟩ := bind_ok.1 hresult
      obtain ⟨hrun₂, hresult⟩ := arith_runs globals hrun₁.started (hcurrent.runs hrun₁) hknown
        harith
      have hall := (hrun.trans hrun₁).trans hrun₂
      obtain ⟨hrun₃, hstored⟩ := store_runs globals hrun₂.started hresult (hslot.runs hall) hstore
      exact ⟨hall.trans hrun₃, hstored⟩
  | arith op =>
      obtain ⟨left, u, hleft, h⟩ := bind_ok.1 h
      obtain ⟨hrun, hknown⟩ := hlhs hs hlaid hleft
      obtain ⟨right, v, hrun₁, hknown₁, harith⟩ := operand_runs globals hrhs hrun.started
        (hrun.adds.laid hlaid) hknown h
      obtain ⟨hrun₂, hresult⟩ := arith_runs globals hrun₁.started (hknown.runs hrun₁) hknown₁
        harith
      exact ⟨(hrun.trans hrun₁).trans hrun₂, hresult⟩
  | compare op =>
      obtain ⟨left, u, hleft, h⟩ := bind_ok.1 h
      obtain ⟨hrun, hknown⟩ := hlhs hs hlaid hleft
      obtain ⟨right, v, hrun₁, hknown₁, hcompare⟩ := operand_runs globals hrhs hrun.started
        (hrun.adds.laid hlaid) hknown h
      obtain ⟨hrun₂, hresult⟩ := compare_runs globals hrun₁.started (hknown.runs hrun₁) hknown₁
        hcompare
      exact ⟨(hrun.trans hrun₁).trans hrun₂, hresult⟩

/-- A sign or a step delivers what its operand does. -/
theorem unary_delivers (hglobals : ∀ b ∈ globals, b.2.isGlobal = true) {op : UnaryOp}
    {operand : MiniC.Expr} (hoperand : Delivers globals operand) (fixity : Fixity)
    (pos : Position) : Delivers globals (.unary op fixity operand pos) := by
  intro s value t hs hlaid h
  unfold expr at h
  have hsigned : ∀ {op : Arith}, (do
      let value ← expr globals operand
      arith op (.constant value.ty "0") value : Lower Value) s = .ok (value, t) →
      Runs globals s t ∧ Known t value := by
    intro op h
    obtain ⟨inner, u, hinner, harith⟩ := bind_ok.1 h
    obtain ⟨hrun, hknown⟩ := hoperand hs hlaid hinner
    obtain ⟨hrun', hresult⟩ := arith_runs globals hrun.started
      (show Known u (.constant inner.ty "0") from trivial) hknown harith
    exact ⟨hrun.trans hrun', hresult⟩
  have hstepped : ∀ {op : Arith}, (do
      let slot ← stepTarget globals operand
      step op fixity slot : Lower Value) s = .ok (value, t) → Runs globals s t ∧ Known t value := by
    intro op h
    obtain ⟨slot, _, htarget, hstep⟩ := bind_ok.1 h
    obtain ⟨hslot, rfl⟩ := stepTarget_atHand globals hglobals hlaid htarget
    exact step_runs globals hs hslot hstep
  cases op with
  | plus => exact hsigned h
  | minus => exact hsigned h
  | not =>
      obtain ⟨inner, u, hinner, hdefine⟩ := bind_ok.1 h
      obtain ⟨hrun, hknown⟩ := hoperand hs hlaid hinner
      obtain ⟨hrun', hresult⟩ := define_runs globals hrun.started hdefine
        (List.forall_mem_cons.2 ⟨hknown, List.forall_mem_singleton.2 trivial⟩)
        fun slot hslot => by cases hslot
      exact ⟨hrun.trans hrun', hresult⟩
  | incr => exact hstepped h
  | decr => exact hstepped h

/-- Every expression is lowered to a value that can be read. -/
theorem expr_delivers (hglobals : ∀ b ∈ globals, b.2.isGlobal = true) (e : MiniC.Expr) :
    Delivers globals e := by
  induction e with
  | number lit =>
      intro s value t hs _ h
      obtain ⟨hliteral, rfl⟩ := lift_ok.1 h
      exact ⟨.refl hs, literal_known hliteral⟩
  | ident i =>
      intro s value t hs hlaid h
      obtain ⟨slot, _, hstorage, hload⟩ := bind_ok.1 h
      obtain ⟨hslot, rfl⟩ := storage_atHand globals hglobals hlaid hstorage
      exact load_runs globals hs hslot hload
  | string _ =>
      intro s value t _ _ h
      exact (fail_ok.1 h).elim
  | member _ _ _ _ =>
      intro s value t _ _ h
      exact (fail_ok.1 h).elim
  | binary op lhs rhs constant operandsMatch pos ihl ihr =>
      cases constant with
      | true =>
          intro s value t hs _ h
          unfold expr at h
          rw [if_pos rfl] at h
          simp only [bind_ok, lift_ok] at h
          obtain ⟨lit, _, ⟨-, rfl⟩, hliteral, rfl⟩ := h
          exact ⟨.refl hs, literal_known hliteral⟩
      | false => exact binary_delivers globals hglobals ihl ihr operandsMatch pos
  | unary op fixity operand pos ih => exact unary_delivers globals hglobals ih fixity pos

/-- A condition is known when it is lowered. -/
theorem condition_runs (hglobals : ∀ b ∈ globals, b.2.isGlobal = true) {e : MiniC.Expr}
    (hs : s.Started) (hlaid : Laid s) {value : Value}
    (h : condition globals e s = .ok (value, t)) : Runs globals s t ∧ Known t value := by
  obtain ⟨inner, u, hinner, hconvert⟩ := bind_ok.1 h
  obtain ⟨hrun, hknown⟩ := expr_delivers globals hglobals e hs hlaid hinner
  obtain ⟨hrun', hresult⟩ := convert_runs globals hrun.started hknown hconvert
  exact ⟨hrun.trans hrun', hresult⟩

end Lowering

end MiniC
