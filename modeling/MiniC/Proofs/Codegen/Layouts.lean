/-
What a layout looks like. The result for accepted texts is
`frontend_layouts`.

# Containment

An aggregate contains the aggregates that its members are of, and no chain of
containments goes on for ever: a member is of a type declared before its
aggregate (`Nested.acc`). So the depth to which layouts are followed never runs
out, a layout is made of the layouts of the aggregates in it
(`WellFormed.layout_eq`), and what is said of one is proved by induction on
containment.

# Failing

A layout is missing for two reasons only. A member at some depth is of type
void, or the size of an aggregate at some depth is too large to be rounded
up (`layout_missing`). Both are exact: a layout that is found holds nothing of
type void (`layout_holds`), and where all sizes can be rounded up none is too
large (`layout_measured`).

# Places

A layout that is found has its members in the order of their declaration,
each at the first offset that its alignment allows (`Placed`), and is padded
to the first multiple of its own alignment (`LaidOut`). Alignments are powers of
two, so the largest of them is a multiple of all, and every member keeps its
alignment wherever the aggregate itself is aligned.
-/
import Mathlib.Logic.Relation
import Mathlib.Order.Bounds.Basic
import MiniC.Proofs.Codegen.Extents
import MiniC.Proofs.Parser.Declarations
import MiniC.Proofs.Source.Lawful

namespace MiniC

open Steps

-- ============================================================== rounding

/-- What a value is rounded up to is the least multiple that is not below
it. -/
theorem roundUp_isLeast {value align : Nat} (h : 0 < align) :
    IsLeast {n | align ∣ n ∧ value ≤ n} (roundUp value align) := by
  refine ⟨⟨?_, le_roundUp value align⟩, ?_⟩
  · unfold roundUp
    split
    · obtain rfl : align = 1 := by omega
      exact Nat.one_dvd _
    · exact Nat.dvd_mul_left _ _
  · rintro n ⟨⟨k, rfl⟩, hle⟩
    unfold roundUp
    split
    · exact hle
    · have hbelow : value + align - 1 < align * (k + 1) := by
        rw [Nat.mul_succ]
        omega
      have hquotient : (value + align - 1) / align ≤ k :=
        Nat.le_of_lt_succ (Nat.div_lt_of_lt_mul hbelow)
      rw [Nat.mul_comm align k]
      exact Nat.mul_le_mul_right align hquotient

/-- Of two alignments of the machine both divide the larger one. -/
theorem dvd_max_align {a b : Nat} (ha : a ∈ [1, 2, 4, 8]) (hb : b ∈ [1, 2, 4, 8]) :
    a ∣ max a b ∧ b ∣ max a b := by
  have hall : ∀ a ∈ [1, 2, 4, 8], ∀ b ∈ [1, 2, 4, 8], a ∣ max a b ∧ b ∣ max a b := by decide
  exact hall a ha b hb

/-- An alignment of the machine is a power of two. -/
theorem Extent.Sane.align_pow {e : Extent} (h : e.Sane) : ∃ k, e.align = 2 ^ k := by
  have halign := h.align
  simp only [List.mem_cons, List.not_mem_nil, or_false] at halign
  rcases halign with h | h | h | h
  · exact ⟨0, h⟩
  · exact ⟨1, h⟩
  · exact ⟨2, h⟩
  · exact ⟨3, h⟩

-- =========================================================== containment

namespace Program

/-- Whether an aggregate is the type of a member of another one. -/
def Contains (p : Program) (inner outer : String) : Prop :=
  ∃ decl, p.aggregate? outer = some decl ∧ ∃ m ∈ decl.members, m.ty = .named inner

/-- Whether an aggregate is another one or stands in it at some depth. -/
def Within (p : Program) : String → String → Prop := Relation.ReflTransGen p.Contains

/-- Whether a member of an aggregate, or of an aggregate in it, is of type
void. -/
def HoldsVoid (p : Program) (name : String) : Prop :=
  ∃ inner, p.Within inner name ∧ ∃ decl, p.aggregate? inner = some decl
    ∧ ∃ m ∈ decl.members, m.ty = .void

/-- Whether the size of an aggregate, and of every aggregate in it, can be
rounded up: the exact size is below 2^64, and so is the sum that rounding
forms on the way. -/
def Measurable (p : Program) (name : String) : Prop :=
  ∀ inner, p.Within inner name → ∀ decl, p.aggregate? inner = some decl →
    MiniC.Roundable (Extent.ofDecls p.extent decl.members).size
      (Extent.ofDecls p.extent decl.members).align

variable {p : Program} {name inner : String}

/-- What is in an aggregate that can be measured can be. -/
theorem Measurable.contained (h : p.Measurable name) (hin : p.Contains inner name) :
    p.Measurable inner :=
  fun other hother => h other (hother.tail hin)

/-- What holds an aggregate holds what is in it. -/
theorem HoldsVoid.container (h : p.HoldsVoid inner) (hin : p.Contains inner name) :
    p.HoldsVoid name := by
  obtain ⟨other, hother, hvoid⟩ := h
  exact ⟨other, hother.tail hin, hvoid⟩

/-- Containment does not go on for ever in an aggregate that is nested so
deep and no deeper. -/
theorem Nested.acc {n : Nat} (h : p.Nested n name) : Acc p.Contains name := by
  induction n generalizing name with
  | zero => exact h.elim
  | succ n ih =>
      obtain ⟨decl, hdecl, hmembers⟩ := h
      refine Acc.intro name fun inner hin => ?_
      obtain ⟨found, hfound, m, hm, hty⟩ := hin
      obtain rfl : found = decl := Option.some.inj (hfound.symm.trans hdecl)
      exact ih (hmembers m hm inner hty)

/-- In a well-formed program containment does not go on for ever. -/
theorem WellFormed.acc (h : p.WellFormed) (hname : (p.aggregate? name).isSome = true) :
    Acc p.Contains name :=
  (h.nested hname).acc

/-- An aggregate is found by its name. -/
theorem WellFormed.aggregate?_eq (h : p.WellFormed) {decl : AggregateDecl}
    (hdecl : decl ∈ p.aggregates) : p.aggregate? decl.name = some decl := by
  obtain ⟨found, hfound⟩ := Option.isSome_iff_exists.1 (aggregate?_isSome hdecl)
  obtain ⟨hmem, hname⟩ := mem_aggregates hfound
  rw [hfound, List.inj_on_of_nodup_map h.aggregates_nodup hmem hdecl hname]

/-- The members of an aggregate are of known types and have names of their
own. -/
theorem WellFormed.members (h : p.WellFormed) {decl : AggregateDecl}
    (hdecl : decl ∈ p.aggregates) :
    (∀ m ∈ decl.members, m.ty.Known p) ∧ (decl.members.map (·.name)).Nodup := by
  obtain ⟨before, after, rfl, hafter⟩ := h.declaration (mem_body hdecl)
  refine ⟨fun m hm => ?_, (List.nodup_append.1 hafter.2.names).1⟩
  obtain ⟨scope, hwf⟩ := hafter.2.members m hm
  exact hwf.ty.mono (aggregates_kept h)

end Program

-- ============================================================= equations

namespace Layout

variable {p : Program} {layoutOf layoutOf' : String → Except GenError Layout}

/-- A type measures as the aggregate it names, if any. -/
theorem measure_congr {ty : Ty} (h : ∀ name, ty = .named name → layoutOf name = layoutOf' name) :
    measure layoutOf ty = measure layoutOf' ty := by
  cases ty with
  | named name => exact congrArg (Except.map fun l => (l.size, l.align)) (h name rfl)
  | _ => rfl

/-- Where the types of members measure alike, so do the members. -/
theorem ofMembers_congr {members : List VariableDecl}
    (h : ∀ m ∈ members, measure layoutOf m.ty = measure layoutOf' m.ty) :
    ofMembers layoutOf members = ofMembers layoutOf' members := by
  unfold ofMembers
  refine congrArg (· >>= pad) ?_
  generalize empty = l
  induction members generalizing l with
  | nil => rfl
  | cons m rest ih =>
      rw [List.foldlM_cons, List.foldlM_cons, h m List.mem_cons_self]
      refine bind_congr fun next => ?_
      exact ih (fun d hd => h d (List.mem_cons_of_mem m hd)) next

end Layout

namespace Program

variable {p : Program}

/-- How far layouts are followed does not matter if it is far enough. -/
theorem Nested.layoutWith {n k : Nat} (hle : n ≤ k) {name : String} (h : p.Nested n name) :
    p.layoutWith k name = p.layoutWith n name := by
  induction n generalizing k name with
  | zero => exact h.elim
  | succ n ih =>
      obtain ⟨decl, hdecl, hmembers⟩ := h
      cases k with
      | zero => omega
      | succ k =>
          unfold Program.layoutWith
          rw [hdecl]
          refine Layout.ofMembers_congr fun m hm => Layout.measure_congr fun inner hty => ?_
          exact ih (Nat.le_of_succ_le_succ hle) (hmembers m hm inner hty)

/-- Following layouts as deep as there are aggregates is far enough. -/
theorem WellFormed.layoutWith_eq (h : p.WellFormed) {name : String}
    (hname : (p.aggregate? name).isSome = true) {fuel : Nat}
    (hfuel : p.aggregates.length ≤ fuel) : p.layoutWith fuel name = p.layout name :=
  ((h.nested hname).layoutWith hfuel).trans ((h.nested hname).layoutWith (Nat.le_succ _)).symm

/-- The layout of an aggregate is made of the layouts of those in it. -/
theorem WellFormed.layout_eq (h : p.WellFormed) {name : String} {decl : AggregateDecl}
    (hdecl : p.aggregate? name = some decl) :
    p.layout name = Layout.ofMembers p.layout decl.members := by
  show p.layoutWith (p.aggregates.length + 1) name = _
  unfold layoutWith
  rw [hdecl]
  refine Layout.ofMembers_congr fun m hm => Layout.measure_congr fun inner hty => ?_
  have hknown := (h.members (mem_aggregates hdecl).1).1 m hm
  rw [hty] at hknown
  exact h.layoutWith_eq hknown (Nat.le_refl _)

end Program

-- =============================================================== failing

namespace Layout

variable {layoutOf : String → Except GenError Layout}

/-- What a size is missing for is that it does not fit. -/
theorem sized_missing {α : Type} (x : Option α) : Only (· = .unrepresentable) (sized x) := by
  cases x with
  | some a => exact Only.ok a
  | none => exact Only.error rfl

/-- Adding a member fails only for a size that does not fit. -/
theorem add_missing (l : Layout) (name : String) (ty : Ty) (size align : Nat) :
    Only (· = .unrepresentable) (l.add name ty size align) :=
  Only.bind (sized_missing _) fun _ _ => Only.bind (sized_missing _) fun _ _ => Only.ok _

/-- Members have no layout because one of them cannot be measured or because
a size does not fit. -/
theorem ofMembers_missing (members : List VariableDecl) :
    Only (fun e => e = .unrepresentable ∨ ∃ m ∈ members, measure layoutOf m.ty = .error e)
      (ofMembers layoutOf members) := by
  refine Only.bind ?_ fun flat _ e h => ?_
  · generalize empty = l
    induction members generalizing l with
    | nil => exact Only.ok l
    | cons m rest ih =>
        rw [List.foldlM_cons]
        refine Only.bind (Only.bind ?_ fun r _ e h => ?_) fun next _ e h => ?_
        · exact fun e h => Or.inr ⟨m, List.mem_cons_self, h⟩
        · exact Or.inl (add_missing l m.name m.ty r.1 r.2 e h)
        · refine (ih next e h).imp_right fun ⟨d, hd, hty⟩ => ?_
          exact ⟨d, List.mem_cons_of_mem m hd, hty⟩
  · exact Or.inl (Only.bind (sized_missing _) (fun _ _ => Only.ok _) e h)

end Layout

/-- What is explained stays explained if there is less room. -/
theorem GenError.Explained.mono {p : Program} {room room' : Prop} (hroom : room' → room)
    {e : GenError} (h : e.Explained p room) : e.Explained p room' := by
  cases e with
  | unrepresentable => exact fun hroom' => h (hroom hroom')
  | _ => exact h

namespace Program.WellFormed

variable {p : Program} (h : p.WellFormed) {name : String}

include h

/-- Where the aggregates in an aggregate can be rounded up, no size in its
layout is too large. -/
theorem layout_measured (hname : (p.aggregate? name).isSome = true) :
    Layout.Faithful p (p.Measurable name) p.layout p.extent name := by
  induction h.acc hname with
  | intro name _ ih =>
      obtain ⟨decl, hdecl⟩ := Option.isSome_iff_exists.1 hname
      have hinner : ∀ m ∈ decl.members, ∀ inner, m.ty = .named inner →
          Layout.Faithful p (p.Measurable name) p.layout p.extent inner := by
        intro m hm inner hty
        have hin : p.Contains inner name := ⟨decl, hdecl, m, hm, hty⟩
        have hknown := (h.members (mem_aggregates hdecl).1).1 m hm
        rw [hty] at hknown
        have hfaithful := ih inner hin hknown
        exact ⟨hfaithful.exact, fun e he =>
          (hfaithful.fails e he).mono fun hroom => hroom.contained hin⟩
      have hsane : ∀ name, (p.extent name).Sane := p.extentWith_sane _
      obtain ⟨hexact, hfails⟩ := Layout.ofMembers_faithful hsane hinner
        fun hroom => hroom name Relation.ReflTransGen.refl decl hdecl
      constructor
      · intro l hl
        rw [h.layout_eq hdecl] at hl
        rw [h.extent_eq hdecl]
        exact hexact l hl
      · rw [h.layout_eq hdecl]
        exact hfails

/-- An aggregate has no layout because it holds something of type void or
because a size does not fit. -/
theorem layout_missing (hname : (p.aggregate? name).isSome = true) :
    Only (fun e => e = .unrepresentable ∨ e = .notReachable .voidStorage ∧ p.HoldsVoid name)
      (p.layout name) := by
  induction h.acc hname with
  | intro name _ ih =>
      obtain ⟨decl, hdecl⟩ := Option.isSome_iff_exists.1 hname
      rw [h.layout_eq hdecl]
      intro e he
      rcases Layout.ofMembers_missing decl.members e he with hsize | ⟨m, hm, hmeasure⟩
      · exact Or.inl hsize
      · have hknown := (h.members (mem_aggregates hdecl).1).1 m hm
        cases hty : m.ty with
        | void =>
            rw [hty] at hmeasure
            cases hmeasure
            exact Or.inr ⟨rfl, name, Relation.ReflTransGen.refl, decl, hdecl, m, hm, hty⟩
        | named inner =>
            rw [hty] at hmeasure hknown
            have hin : p.Contains inner name := ⟨decl, hdecl, m, hm, hty⟩
            have hinner := Only.map (ih inner hin hknown) e hmeasure
            exact hinner.imp_right fun ⟨he, hvoid⟩ => ⟨he, hvoid.container hin⟩
        | _ =>
            rw [hty] at hmeasure
            cases hmeasure

end Program.WellFormed

-- ================================================================ places

/-- Whether members stand one behind the other from `start` on, each at the
first offset that its alignment allows, and the last one ends at `stop`. The
alignments divide that of the whole. -/
inductive Placed (p : Program) (whole : Nat) : Nat → List Member → Nat → Prop
  | nil {stop : Nat} : Placed p whole stop [] stop
  | cons {start stop size align : Nat} {m : Member} {rest : List Member} :
      p.sizeAlign m.ty = .ok (size, align) → align ∣ whole →
      IsLeast {n | align ∣ n ∧ start ≤ n} m.offset →
      Placed p whole (m.offset + size) rest stop → Placed p whole start (m :: rest) stop

/-- Whether a layout is that of an aggregate. -/
structure AggregateDecl.LaidOut (p : Program) (decl : AggregateDecl) (l : Layout) : Prop where
  /-- The members are those declared, in their order. -/
  order : l.members.map (fun m => (m.name, m.ty)) = decl.members.map fun m => (m.name, m.ty)
  /-- A name is that of one member. -/
  found : ∀ m ∈ l.members, l.member? m.name = some m
  /-- Offsets are as small as they can be, and so is the size. -/
  placed : ∃ stop, Placed p l.align 0 l.members stop ∧ IsLeast {n | l.align ∣ n ∧ stop ≤ n} l.size
  /-- Every member is aligned and lies within the whole. -/
  inside : ∀ m ∈ l.members, ∃ size align, p.sizeAlign m.ty = .ok (size, align)
    ∧ align ∣ m.offset ∧ m.offset + size ≤ l.size ∧ align ∣ l.align
  /-- The alignment is one of a machine. -/
  align : ∃ k, l.align = 2 ^ k

namespace Placed

variable {p : Program} {whole start stop : Nat} {members : List Member}

/-- Members stand behind the place they start from. -/
theorem start_le_stop (h : Placed p whole start members stop) : start ≤ stop := by
  induction h with
  | nil => exact Nat.le_refl _
  | cons _ _ hleast _ ih => exact Nat.le_trans hleast.1.2 (Nat.le_trans (Nat.le_add_right _ _) ih)

/-- A member lies in front of where the members end, at a multiple of its alignment. -/
theorem inside (h : Placed p whole start members stop) {m : Member} (hm : m ∈ members) :
    ∃ size align, p.sizeAlign m.ty = .ok (size, align) ∧ align ∣ m.offset
      ∧ m.offset + size ≤ stop ∧ align ∣ whole := by
  induction h with
  | nil => cases hm
  | cons hty halign hleast hrest ih =>
      rcases List.mem_cons.1 hm with rfl | hm
      · exact ⟨_, _, hty, hleast.1.1, hrest.start_le_stop, halign⟩
      · exact ih hm

end Placed

namespace Program.WellFormed

variable {p : Program} (h : p.WellFormed)

include h

/-- A type that can be measured has an alignment of the machine. -/
theorem sizeAlign_sane {ty : Ty} (hty : ty.Known p) {size align : Nat}
    (hsize : p.sizeAlign ty = .ok (size, align)) : (Extent.mk size align).Sane := by
  have hsane := p.extent_sane ty
  rw [h.sizeAlign_exact False.elim hty hsize] at hsane
  exact hsane

/-- Putting members behind others puts them in places. -/
theorem foldlM_placed (members : List VariableDecl) (hknown : ∀ m ∈ members, m.ty.Known p)
    {l l' : Layout} (hl : l.extent.Sane)
    (hfold : members.foldlM (fun l m => do
      let (size, align) ← Layout.measure p.layout m.ty
      l.add m.name m.ty size align) l = .ok l') :
    l'.extent.Sane ∧ l.align ∣ l'.align ∧ ∃ placed, l'.members = l.members ++ placed
      ∧ placed.map (fun m => (m.name, m.ty)) = members.map (fun m => (m.name, m.ty))
      ∧ Placed p l'.align l.size placed l'.size := by
  induction members generalizing l with
  | nil =>
      cases hfold
      exact ⟨hl, Nat.dvd_refl _, [], (List.append_nil _).symm, rfl, .nil⟩
  | cons m rest ih =>
      rw [List.foldlM_cons] at hfold
      obtain ⟨next, hnext, hfold⟩ := except_bind_ok.1 hfold
      obtain ⟨⟨size, align⟩, hty, hadd⟩ := except_bind_ok.1 hnext
      have hpart : (Extent.mk size align).Sane :=
        h.sizeAlign_sane (hknown m List.mem_cons_self) hty
      obtain ⟨hextent, hmembers⟩ := Layout.add_exact hadd
      have hnextSane : next.extent.Sane := hextent ▸ hl.add hpart
      have hmax := dvd_max_align hl.align hpart.align
      have halign : next.align = max l.align align := congrArg Extent.align hextent
      have hsize : next.size = roundUp l.size align + size := congrArg Extent.size hextent
      rw [show l.extent.align = l.align from rfl, ← halign] at hmax
      obtain ⟨hsane, hdvd, placed, hrest, hnames, hplaced⟩ :=
        ih (fun d hd => hknown d (List.mem_cons_of_mem m hd)) hnextSane hfold
      refine ⟨hsane, Nat.dvd_trans hmax.1 hdvd,
        ⟨m.name, m.ty, roundUp l.size align⟩ :: placed, ?_, ?_, ?_⟩
      · rw [hrest, hmembers, List.append_assoc]
        rfl
      · rw [List.map_cons, List.map_cons, hnames]
      · rw [hsize] at hplaced
        exact .cons hty (Nat.dvd_trans hmax.2 hdvd) (roundUp_isLeast hpart.align_pos) hplaced

/-- A layout that is found is that of the aggregate. -/
theorem laidOut {decl : AggregateDecl} (hdecl : decl ∈ p.aggregates) {l : Layout}
    (hl : p.layout decl.name = .ok l) : decl.LaidOut p l := by
  rw [h.layout_eq (h.aggregate?_eq hdecl)] at hl
  obtain ⟨flat, hflat, hpad⟩ := except_bind_ok.1 hl
  unfold Layout.pad at hpad
  obtain ⟨size, hsize, hpure⟩ := except_bind_ok.1 hpad
  cases hpure
  obtain ⟨hknown, hnodup⟩ := h.members hdecl
  obtain ⟨hsane, -, placed, hmembers, hnames, hplaced⟩ :=
    h.foldlM_placed decl.members hknown (l := Layout.empty) Extent.Sane.empty hflat
  obtain rfl : flat.members = placed := hmembers
  have hleast : IsLeast {n | flat.align ∣ n ∧ flat.size ≤ n} size := by
    rw [alignUp?_exact (Layout.sized_ok hsize)]
    exact roundUp_isLeast hsane.align_pos
  have hnodup' : (flat.members.map (·.name)).Nodup := by
    have hsame := congrArg (List.map Prod.fst) hnames
    rw [List.map_map, List.map_map] at hsame
    exact hsame ▸ hnodup
  constructor
  case order => exact hnames
  case found =>
    intro m hm
    have hsome : (flat.members.find? (·.name == m.name)).isSome = true :=
      List.find?_isSome.2 ⟨m, hm, beq_self_eq_true _⟩
    obtain ⟨other, hother⟩ := Option.isSome_iff_exists.1 hsome
    have hbeq := List.find?_some hother
    have hname : other.name = m.name := eq_of_beq hbeq
    have hsame := List.inj_on_of_nodup_map hnodup' (List.mem_of_find?_eq_some hother) hm hname
    rw [hsame] at hother
    exact hother
  case placed => exact ⟨flat.size, hplaced, hleast⟩
  case inside =>
    intro m hm
    obtain ⟨size', align, hty, hdvd, hle, hwhole⟩ := hplaced.inside hm
    exact ⟨size', align, hty, hdvd, Nat.le_trans hle hleast.1.2, hwhole⟩
  case align => exact hsane.align_pow

/-- Where an aggregate has a layout, the types of its members can be
measured. -/
theorem layout_measures {name : String} {decl : AggregateDecl}
    (hdecl : p.aggregate? name = some decl) {l : Layout} (hl : p.layout name = .ok l)
    {m : VariableDecl} (hm : m ∈ decl.members) : ∃ extent, p.sizeAlign m.ty = .ok extent := by
  obtain ⟨hmem, rfl⟩ := mem_aggregates hdecl
  have hlaid := h.laidOut hmem hl
  have hpair : (m.name, m.ty) ∈ l.members.map fun m => (m.name, m.ty) := by
    rw [hlaid.order]
    exact List.mem_map_of_mem hm
  obtain ⟨placed, hplaced, hsame⟩ := List.mem_map.1 hpair
  obtain ⟨size, align, hty, -⟩ := hlaid.inside placed hplaced
  have hsamety : placed.ty = m.ty := congrArg Prod.snd hsame
  exact ⟨(size, align), hsamety ▸ hty⟩

/-- Where an aggregate has a layout, it holds nothing of type void. -/
theorem layout_holds {name : String} {l : Layout} (hl : p.layout name = .ok l) :
    ¬ p.HoldsVoid name := by
  rintro ⟨inner, hin, decl, hdecl, m, hm, hvoid⟩
  have hinner : ∃ l', p.layout inner = .ok l' := by
    clear hvoid hm m hdecl decl
    induction hin using Relation.ReflTransGen.head_induction_on with
    | refl => exact ⟨l, hl⟩
    | head hstep _ ih =>
        obtain ⟨outer, houter⟩ := ih
        obtain ⟨decl, hdecl, m, hm, hty⟩ := hstep
        obtain ⟨extent, hextent⟩ := h.layout_measures hdecl houter hm
        rw [hty] at hextent
        obtain ⟨l', hl', -⟩ := except_map_ok.1 hextent
        exact ⟨l', hl'⟩
  obtain ⟨l', hl'⟩ := hinner
  obtain ⟨extent, hextent⟩ := h.layout_measures hdecl hl' hm
  rw [hvoid] at hextent
  cases hextent

end Program.WellFormed

-- =============================================================== results

/-- Whether following the layout of an aggregate comes to an end, with a
layout that is that of the aggregate or for a reason to have none. -/
structure AggregateDecl.LaysOut (p : Program) (decl : AggregateDecl) : Prop where
  /-- No chain of aggregates that contain each other goes on for ever. -/
  ends : Acc p.Contains decl.name
  /-- So a layout is made of the layouts of the aggregates in it, -/
  equation : p.layout decl.name = Layout.ofMembers p.layout decl.members
  /-- and it does not matter how deep they are followed. -/
  deep : ∀ fuel, p.aggregates.length ≤ fuel → p.layoutWith fuel decl.name = p.layout decl.name
  /-- There is no layout because of a void member or a size. -/
  fails : ∀ e, p.layout decl.name = .error e →
    e = .notReachable .voidStorage ∧ p.HoldsVoid decl.name
      ∨ e = .unrepresentable ∧ ¬ p.Measurable decl.name
  /-- A void member is a reason. -/
  void : p.HoldsVoid decl.name → ∃ e, p.layout decl.name = .error e
  /-- Without a reason there is a layout. -/
  succeeds : ¬ p.HoldsVoid decl.name → p.Measurable decl.name →
    ∃ l, p.layout decl.name = .ok l ∧ decl.LaidOut p l

/-- The aggregates of an accepted text are laid out soundly. -/
theorem frontend_layouts {source : String} {report report' : Report} {p : Program}
    (h : frontend source report = (.ok p, report')) {decl : AggregateDecl}
    (hdecl : decl ∈ p.aggregates) : decl.LaysOut p := by
  have hwf : p.WellFormed := frontend_wellFormed h
  have hfound := hwf.aggregate?_eq hdecl
  have hsome : (p.aggregate? decl.name).isSome = true := hfound ▸ rfl
  have hfails : ∀ e, p.layout decl.name = .error e →
      e = .notReachable .voidStorage ∧ p.HoldsVoid decl.name
        ∨ e = .unrepresentable ∧ ¬ p.Measurable decl.name := by
    intro e he
    rcases hwf.layout_missing hsome e he with rfl | hvoid
    · exact Or.inr ⟨rfl, (hwf.layout_measured hsome).fails _ he⟩
    · exact Or.inl hvoid
  constructor
  case ends => exact hwf.acc hsome
  case equation => exact hwf.layout_eq hfound
  case deep => exact fun fuel hfuel => hwf.layoutWith_eq hsome hfuel
  case fails => exact hfails
  case void =>
    intro hvoid
    cases hl : p.layout decl.name with
    | error e => exact ⟨e, rfl⟩
    | ok l => exact (hwf.layout_holds hl hvoid).elim
  case succeeds =>
    intro hvoid hroom
    cases hl : p.layout decl.name with
    | ok l => exact ⟨l, rfl, hwf.laidOut hdecl hl⟩
    | error e =>
        rcases hfails e hl with ⟨-, hheld⟩ | ⟨-, hlarge⟩
        · exact (hvoid hheld).elim
        · exact (hlarge hroom).elim

/-- Aggregates with gaps, one of them with an empty one in it, and two that
hold something of type void. -/
def nestedAggregates : String :=
  "struct Nil { }; class Leaf { public: char tag; Nil nil; long value; short tail; }
   struct Tree { bool root; Leaf leaf; Nil end; char mark; };
   struct Gap { int a; void hole; }; struct Chasm { char a; Gap gap; };
   int main() { return 0; }"

/-- The text is accepted; what is found for its aggregates is as said. -/
theorem nestedAggregates_layouts :
    ∃ p report', frontend nestedAggregates (.empty false) = (.ok p, report')
      ∧ (∀ decl ∈ p.aggregates, decl.LaysOut p)
      ∧ p.aggregates.map (·.name) = ["Nil", "Leaf", "Tree", "Gap", "Chasm"]
      ∧ p.layout "Tree" = .ok ⟨40, 8, [⟨"root", .bool, 0⟩, ⟨"leaf", .named "Leaf", 8⟩,
          ⟨"end", .named "Nil", 32⟩, ⟨"mark", .char, 32⟩]⟩
      ∧ p.layout "Chasm" = .error (.notReachable .voidStorage) := by
  have h : ((frontend nestedAggregates (.empty false)).1.toOption).any (fun p =>
      p.aggregates.map (·.name) = ["Nil", "Leaf", "Tree", "Gap", "Chasm"]
        ∧ (p.layout "Tree").toOption = some ⟨40, 8, [⟨"root", .bool, 0⟩,
            ⟨"leaf", .named "Leaf", 8⟩, ⟨"end", .named "Nil", 32⟩, ⟨"mark", .char, 32⟩]⟩
        ∧ cause? (p.layout "Chasm") = some (.notReachable .voidStorage)) = true := by
    set_option maxRecDepth 2000 in
    rw [frontend, tokenize_written (rfl : nestedAggregates = String.ofList _)]
    decide +kernel
  obtain ⟨p, hp, hlayouts⟩ := (Option.any_eq_true _ _).1 h
  obtain ⟨hnames, htree, hchasm⟩ := of_decide_eq_true hlayouts
  obtain ⟨report', hfront⟩ := frontend_of_toOption hp
  exact ⟨p, report', hfront, fun decl hdecl => frontend_layouts hfront hdecl, hnames,
    toOption_some.1 htree, cause?_some.1 hchasm⟩

end MiniC
