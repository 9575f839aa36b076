/-
The control-flow graph of a function, and what building it block by block
keeps up (`Formed`).

# Paths

Control goes from a block to the blocks that its last instruction names; a
`Path` is what it executes on the way from the first block to the start of
another. A function is `Connected` if every block ends in one place and the
labels it names are those of one block each, and `Dominated` if operands are
there where they are used, on every path.

# Slots on all paths

A slot is reserved by an instruction that has to be executed before the slot
is used, so a use is in order only if every path to it reserves the slot.
Paths are not known while a function is under construction, since jumps back
are added last. So each label comes with the slots that are reserved
wherever control enters its block, and a jump has to have reserved all of
them (`Placed`). By induction on a path these slots are reserved on it
(`Formed.reserved`). The first block comes with none; a block that nothing
leads to may come with any.

# Temporaries

A temporary is used in the block that defines it only, behind its definition, so
for temporaries the instructions before in the block decide.

# Building

Each step of the builder keeps `Formed`: a name is handed out, a block is opened
behind one that has come to its end, an instruction is added to one that has
not. Labels may be named before their blocks are there; they are pending, and
none is left in the end (`Formed.connected`, `Formed.dominated`).
Consumed by the proof that lowering builds such graphs.
-/
import Mathlib.Data.List.Nodup
import MiniC.Proofs.IR.Builder

namespace MiniC.IR

-- ============================================================== operands

/-- The values that a definition reads. -/
def Definition.values : Definition → List Value
  | .load _ => []
  | .arith _ _ lhs rhs => [lhs, rhs]
  | .compare _ lhs rhs => [lhs, rhs]
  | .cast _ value _ => [value]

namespace Instr

/-- The values that an instruction reads. -/
def values : Instr → List Value
  | .alloca _ => []
  | .define _ definition => definition.values
  | .store value _ => [value]
  | .ret value => value.toList
  | .jump _ => []
  | .branch condition _ _ => [condition]

/-- The slots that an instruction loads from or stores to. -/
def slots : Instr → List Slot
  | .define _ (.load slot) => [slot]
  | .store _ slot => [slot]
  | _ => []

/-- The labels that an instruction names. -/
def targets : Instr → List String
  | .jump label => [label]
  | .branch _ onTrue onFalse => [onTrue, onFalse]
  | _ => []

/-- The temporary that an instruction defines. -/
def index? : Instr → Option Nat
  | .define index _ => some index
  | _ => none

end Instr

/-- The temporaries that blocks define, in the order of their
definitions. -/
def definitions (blocks : List Block) : List Nat :=
  blocks.flatMap fun block => block.body.filterMap Instr.index?

-- ================================================================= paths

/-- `Path fn done block`: control can go from the first block of a function
to the start of a block, and executes `done` on the way. -/
inductive Path (fn : Function) : List Instr → Block → Prop
  | entry {block : Block} {rest : List Block} : fn.blocks = block :: rest → Path fn [] block
  | step {done : List Instr} {block next : Block} {last : Instr} :
      Path fn done block → block.body.getLast? = some last → next ∈ fn.blocks →
      next.label ∈ last.targets → Path fn (done ++ block.body) next

/-- Whether a function is a control-flow graph: control leaves every block
at its end and nowhere before, and for a label that is named there is one
block. -/
structure Function.Connected (fn : Function) : Prop where
  started : fn.blocks ≠ []
  complete : ∀ block ∈ fn.blocks, ∃ front last, block.body = front ++ [last]
    ∧ last.isTerminator = true ∧ ∀ instr ∈ front, instr.isTerminator = false
  labels : (fn.blocks.map (·.label)).Nodup
  targets : ∀ block ∈ fn.blocks, ∀ instr ∈ block.body, ∀ target ∈ instr.targets,
    (fn.blocks.map (·.label)).count target = 1

/-- Whether operands are there where they are used, given the names and
types of globals: temporaries by a definition before in the same block,
arguments as parameters, and storage as a global or because it is reserved
on every path. -/
structure Function.Dominated (globals : List (String × Option Ty)) (fn : Function) : Prop where
  temps : ∀ block ∈ fn.blocks, ∀ before instr behind, block.body = before ++ instr :: behind →
    ∀ ty index, .temp ty index ∈ instr.values →
    ∃ definition, .define index definition ∈ before ∧ definition.ty = ty
  arguments : ∀ block ∈ fn.blocks, ∀ instr ∈ block.body, ∀ ty name,
    .argument ty name ∈ instr.values → (name, ty) ∈ fn.params
  locals : ∀ block ∈ fn.blocks, ∀ before instr behind, block.body = before ++ instr :: behind →
    ∀ slot ∈ instr.slots, slot.isGlobal = false →
    ∀ done, Path fn done block → .alloca slot ∈ done ++ before
  globals : ∀ block ∈ fn.blocks, ∀ instr ∈ block.body, ∀ slot ∈ instr.slots,
    slot.isGlobal = true → (slot.name, some slot.ty) ∈ globals
  numbered : definitions fn.blocks = List.range (definitions fn.blocks).length

-- ========================================================= in order

/-- Whether a slot is reserved behind the given instructions of a block, if
those slots are reserved that its label comes with. -/
def Reserved (entry : String → List Slot) (label : String) (before : List Instr) (slot : Slot) :
    Prop :=
  slot ∈ entry label ∨ .alloca slot ∈ before

/-- Whether a value can be read behind the given instructions of a block. -/
def Value.Readable (params : List (String × Ty)) (before : List Instr) : Value → Prop
  | .constant _ _ => True
  | .temp ty index => ∃ definition, .define index definition ∈ before ∧ definition.ty = ty
  | .argument ty name => (name, ty) ∈ params

/-- Whether an instruction is in order behind those before it in a block. -/
structure Placed (globals : List Slot) (params : List (String × Ty)) (entry : String → List Slot)
    (known : List String) (label : String) (before : List Instr) (instr : Instr) : Prop where
  running : ∀ other ∈ before, other.isTerminator = false
  values : ∀ value ∈ instr.values, value.Readable params before
  globals : ∀ slot ∈ instr.slots, slot.isGlobal = true → slot ∈ globals
  locals : ∀ slot ∈ instr.slots, slot.isGlobal = false → Reserved entry label before slot
  targets : ∀ target ∈ instr.targets, target ∈ known
  handed : ∀ target ∈ instr.targets, ∀ slot ∈ entry target, Reserved entry label before slot

/-- Whether the blocks of a function under construction are in order: all but
the last have come to their end, and so is every instruction where it
stands. Labels may be named before their blocks are opened. -/
structure Formed (globals : List Slot) (entry : String → List Slot) (pending : List String)
    (b : Builder) : Prop where
  tidy : Tidy b pending
  first : ∃ block rest, b.function.blocks = block :: rest ∧ entry block.label = []
  ended : ∀ block ∈ b.function.blocks.dropLast, block.terminated = true
  placed : ∀ block ∈ b.function.blocks, ∀ before instr behind,
    block.body = before ++ instr :: behind →
    Placed globals b.function.params entry (labels b ++ pending) block.label before instr

variable {globals : List Slot} {params : List (String × Ty)} {entry entry' : String → List Slot}
  {known known' pending : List String} {label : String} {before : List Instr} {instr : Instr}
  {b : Builder}

-- ========================================================== placing once

/-- More labels may be known, and those known may come with the same slots
in another table. -/
theorem Placed.mono (h : Placed globals params entry known label before instr)
    (hknown : known ⊆ known') (hlabel : entry' label = entry label)
    (hentry : ∀ target ∈ known, entry' target = entry target) :
    Placed globals params entry' known' label before instr := by
  have hreserved : ∀ slot, Reserved entry label before slot →
      Reserved entry' label before slot := by
    intro slot hslot
    unfold Reserved
    rw [hlabel]
    exact hslot
  refine ⟨h.running, h.values, h.globals, ?_, fun target ht => hknown (h.targets target ht), ?_⟩
  · intro slot hslot hlocal
    exact hreserved slot (h.locals slot hslot hlocal)
  · intro target htarget slot hslot
    rw [hentry target (h.targets target htarget)] at hslot
    exact hreserved slot (h.handed target htarget slot hslot)

/-- There is a block from the start on. -/
theorem Formed.started (h : Formed globals entry pending b) : b.function.blocks ≠ [] := by
  obtain ⟨block, rest, hblocks, -⟩ := h.first
  rw [hblocks]
  exact List.cons_ne_nil _ _

/-- Nothing in an open block ends it. -/
theorem Formed.running (h : Formed globals entry pending b) (hlive : b.terminated = false)
    {block : Block} (hcurrent : b.current? = some block) :
    ∀ other ∈ block.body, other.isTerminator = false := by
  have hmem : block ∈ b.function.blocks := List.mem_of_getLast? hcurrent
  unfold Builder.terminated at hlive
  rw [hcurrent] at hlive
  rcases List.eq_nil_or_concat block.body with hnil | ⟨front, last, hbody⟩
  · rw [hnil]
    intro other hother
    cases hother
  · have hlast : last.isTerminator = false := by
      have hend : block.terminated = false := hlive
      unfold Block.terminated at hend
      rw [hbody, List.concat_eq_append, List.getLast?_concat] at hend
      exact hend
    have hplaced := h.placed block hmem front last [] (by rw [hbody, List.concat_eq_append])
    intro other hother
    rw [hbody, List.concat_eq_append, List.mem_append, List.mem_singleton] at hother
    rcases hother with hother | rfl
    · exact hplaced.running other hother
    · exact hlast

-- ======================================================== building steps

/-- A name that is handed out may come with any slots. -/
theorem Formed.unique (h : Formed globals entry pending b) (base : String) (slots : List Slot) :
    Formed globals (fun label => if label = (b.unique base).1 then slots else entry label)
      ((b.unique base).1 :: pending) (b.unique base).2 := by
  have hfresh : ∀ label ∈ labels b ++ pending, label ≠ (b.unique base).1 := by
    intro label hlabel heq
    have htaken := h.tidy.taken label hlabel
    rw [heq] at htaken
    exact b.names.unique_fresh base htaken
  have hold : ∀ label ∈ labels b ++ pending,
      (if label = (b.unique base).1 then slots else entry label) = entry label :=
    fun label hlabel => if_neg (hfresh label hlabel)
  have hmem : ∀ block ∈ b.function.blocks, block.label ∈ labels b ++ pending := by
    intro block hblock
    exact List.mem_append_left _ (List.mem_map.2 ⟨block, hblock, rfl⟩)
  obtain ⟨block, rest, hblocks, hentry⟩ := h.first
  refine ⟨tidy_unique h.tidy base, ⟨block, rest, hblocks, ?_⟩, h.ended, ?_⟩
  · rw [hold block.label (hmem block (by rw [hblocks]; exact List.mem_cons_self))]
    exact hentry
  · intro block hblock before instr behind hbody
    refine (h.placed block hblock before instr behind hbody).mono ?_
      (hold _ (hmem block hblock)) hold
    exact List.append_subset.2 ⟨List.subset_append_left _ _,
      fun label hlabel => List.mem_append_right _ (List.mem_cons_of_mem _ hlabel)⟩

/-- A block that is opened has its label behind the others. -/
theorem labels_append (b : Builder) (label : String) :
    labels (b.append label) = labels b ++ [label] := by
  show (b.function.blocks ++ [Block.mk label []]).map (·.label) = _
  rw [List.map_append]
  rfl

/-- A block may be opened behind one that has come to its end. -/
theorem Formed.append (h : Formed globals entry (label :: pending) b)
    (hend : b.terminated = true) : Formed globals entry pending (b.append label) := by
  have hknown : labels (b.append label) ++ pending = labels b ++ label :: pending := by
    rw [labels_append, List.append_assoc]
    rfl
  obtain ⟨first, rest, hblocks, hentry⟩ := h.first
  refine ⟨tidy_append h.tidy, ⟨first, rest ++ [⟨label, []⟩], ?_, hentry⟩, ?_, ?_⟩
  · show b.function.blocks ++ [⟨label, []⟩] = _
    rw [hblocks]
    rfl
  · intro block hblock
    have hblock : block ∈ (b.function.blocks ++ [Block.mk label []]).dropLast := hblock
    rw [List.dropLast_concat] at hblock
    obtain ⟨front, last, body, hlast⟩ := blocks_concat h.started
    rw [hlast, List.mem_append, List.mem_singleton] at hblock
    rcases hblock with hblock | rfl
    · refine h.ended block ?_
      rw [hlast, List.dropLast_concat]
      exact hblock
    · unfold Builder.terminated Builder.current? at hend
      rw [hlast, List.getLast?_concat] at hend
      exact hend
  · intro block hblock before instr behind hbody
    rw [hknown]
    rcases List.mem_append.1 hblock with hblock | hblock
    · exact h.placed block hblock before instr behind hbody
    · rw [List.mem_singleton.1 hblock] at hbody
      exact absurd hbody.symm (List.append_ne_nil_of_right_ne_nil _ (List.cons_ne_nil _ _))

/-- Instructions of a body with one more behind it. -/
theorem concat_split {body before behind : List Instr} {last instr : Instr}
    (h : body ++ [last] = before ++ instr :: behind) :
    (before = body ∧ instr = last) ∨ ∃ rest, body = before ++ instr :: rest := by
  rcases List.eq_nil_or_concat behind with rfl | ⟨rest, other, rfl⟩
  · obtain ⟨rfl, hlast⟩ := List.append_inj' h rfl
    cases hlast
    exact Or.inl ⟨rfl, rfl⟩
  · rw [List.concat_eq_append, ← List.cons_append, ← List.append_assoc] at h
    exact Or.inr ⟨rest, (List.append_inj' h rfl).1⟩

/-- An instruction that is in order may be added. -/
theorem Formed.added (h : Formed globals entry pending b) {block : Block}
    (hcurrent : b.current? = some block)
    (hplaced : Placed globals b.function.params entry (labels b ++ pending) block.label
      block.body instr) :
    Formed globals entry pending (added b instr) := by
  obtain ⟨front, hblocks⟩ := List.getLast?_eq_some_iff.1 hcurrent
  obtain ⟨label, body⟩ := block
  have hnew : (IR.added b instr).function.blocks = front ++ [⟨label, body ++ [instr]⟩] := by
    show Builder.addToLast instr b.function.blocks = _
    rw [hblocks, addToLast_concat]
  have hknown : labels (IR.added b instr) ++ pending = labels b ++ pending := by
    rw [labels_added]
  refine ⟨tidy_added h.tidy instr, ?_, ?_, ?_⟩
  · obtain ⟨first, rest, hfirst, hentry⟩ := h.first
    rw [hnew]
    cases front with
    | nil =>
        rw [hblocks] at hfirst
        cases hfirst
        exact ⟨⟨label, body ++ [instr]⟩, [], rfl, hentry⟩
    | cons head front =>
        rw [hblocks] at hfirst
        cases hfirst
        exact ⟨first, front ++ [⟨label, body ++ [instr]⟩], rfl, hentry⟩
  · intro other hother
    refine h.ended other ?_
    rw [hnew, List.dropLast_concat] at hother
    rw [hblocks, List.dropLast_concat]
    exact hother
  · intro other hother before next behind hbody
    rw [hknown]
    rw [hnew, List.mem_append, List.mem_singleton] at hother
    rcases hother with hother | rfl
    · refine h.placed other ?_ before next behind hbody
      rw [hblocks]
      exact List.mem_append_left _ hother
    · rcases concat_split hbody with ⟨rfl, rfl⟩ | ⟨rest, hold⟩
      · exact hplaced
      · refine h.placed ⟨label, body⟩ ?_ before next rest hold
        rw [hblocks]
        exact List.mem_append_right _ (List.mem_singleton_self _)

-- ============================================================ whole runs

/-- On every path to a block those slots are reserved that its label comes
with. -/
theorem Formed.reserved (h : Formed globals entry [] b) {done : List Instr} {block : Block}
    (hpath : Path b.function done block) :
    block ∈ b.function.blocks ∧ ∀ slot ∈ entry block.label, .alloca slot ∈ done := by
  induction hpath with
  | @entry block rest hblocks =>
      obtain ⟨first, others, hfirst, hentry⟩ := h.first
      rw [hblocks] at hfirst
      cases hfirst
      rw [hblocks, hentry]
      exact ⟨List.mem_cons_self, fun slot hslot => absurd hslot List.not_mem_nil⟩
  | @step done block next last _ hlast hnext htarget ih =>
      obtain ⟨hblock, hdone⟩ := ih
      refine ⟨hnext, fun slot hslot => ?_⟩
      obtain ⟨before, hbody⟩ := List.getLast?_eq_some_iff.1 hlast
      have hplaced := h.placed block hblock before last [] hbody
      rcases hplaced.handed next.label htarget slot hslot with hentry | halloca
      · exact List.mem_append_left _ (hdone slot hentry)
      · rw [hbody]
        exact List.mem_append_right _ (List.mem_append_left _ halloca)

/-- What is built in order and has come to its end is a control-flow
graph. -/
theorem Formed.connected (h : Formed globals entry [] b) (hend : b.terminated = true) :
    b.function.Connected := by
  have hterminated : ∀ block ∈ b.function.blocks, block.terminated = true := by
    intro block hblock
    obtain ⟨front, label, body, hblocks⟩ := blocks_concat h.started
    rw [hblocks, List.mem_append, List.mem_singleton] at hblock
    rcases hblock with hblock | rfl
    · refine h.ended block ?_
      rw [hblocks, List.dropLast_concat]
      exact hblock
    · unfold Builder.terminated Builder.current? at hend
      rw [hblocks, List.getLast?_concat] at hend
      exact hend
  have hnodup : (labels b).Nodup := by
    have htidy := h.tidy.nodup
    rwa [List.append_nil] at htidy
  refine ⟨h.started, ?_, hnodup, ?_⟩
  · intro block hblock
    have hlast := hterminated block hblock
    unfold Block.terminated at hlast
    rcases List.eq_nil_or_concat block.body with hnil | ⟨front, last, hbody⟩
    · rw [hnil] at hlast
      cases hlast
    · rw [List.concat_eq_append] at hbody
      rw [hbody, List.getLast?_concat] at hlast
      exact ⟨front, last, hbody, hlast, (h.placed block hblock front last [] hbody).running⟩
  · intro block hblock instr hinstr target htarget
    obtain ⟨before, behind, hbody⟩ := List.append_of_mem hinstr
    have hmem := (h.placed block hblock before instr behind hbody).targets target htarget
    rw [List.append_nil] at hmem
    exact List.count_eq_one_of_mem hnodup hmem

/-- In what is built in order, with its temporaries numbered as they are
defined, operands are there where they are used. -/
theorem Formed.dominated (h : Formed globals entry [] b) {n : Nat}
    (hnumbered : definitions b.function.blocks = List.range n)
    {names : List (String × Option Ty)}
    (hglobals : ∀ slot ∈ globals, (slot.name, some slot.ty) ∈ names) :
    b.function.Dominated names := by
  refine ⟨?_, ?_, ?_, ?_, ?_⟩
  · intro block hblock before instr behind hbody ty index hvalue
    exact (h.placed block hblock before instr behind hbody).values _ hvalue
  · intro block hblock instr hinstr ty name hvalue
    obtain ⟨before, behind, hbody⟩ := List.append_of_mem hinstr
    exact (h.placed block hblock before instr behind hbody).values _ hvalue
  · intro block hblock before instr behind hbody slot hslot hlocal done hpath
    have hplaced := h.placed block hblock before instr behind hbody
    rcases hplaced.locals slot hslot hlocal with hentry | halloca
    · exact List.mem_append_left _ ((h.reserved hpath).2 slot hentry)
    · exact List.mem_append_right _ halloca
  · intro block hblock instr hinstr slot hslot hglobal
    obtain ⟨before, behind, hbody⟩ := List.append_of_mem hinstr
    exact hglobals slot ((h.placed block hblock before instr behind hbody).globals slot hslot
      hglobal)
  · rw [hnumbered, List.length_range]

end MiniC.IR
