/-
The sizes that storage would have if 64 bits were no bound. They are
computed here beside the layouts that code generation works with, which give
up where a sum does not fit. A layout that is found has the exact size and
alignment; one that is missing although its aggregate exists has a member of
type void or a size that does not fit (`layout_faithful`).

# Rounding

Rounding up is where the two part ways. The sum of a size and an alignment
is formed first and then cut down, so that a size which is a multiple of its
alignment already is refused if the sum is 2^64 to the byte, although the
rounded size would fit. `Roundable` leaves out that one case. Everywhere else a sum is
refused exactly where its exact value does not fit.

# Extents

An extent is a size and an alignment, to which the variables of an aggregate or a
frame are added in order, each at the next multiple of its own alignment. Alignments
are 1, 2, 4 or 8, and no size is below its alignment (`Sane`), so that no padding is
lost when a sum is compared with what fits.

# Nesting

What makes an aggregate finite is that its members are of types declared
before it (`Nested`), so the depth to which layouts are followed suffices: it is one
more than there are aggregates, and following further finds the same
(`Nested.extentWith`).

# Layouts

Both computations go through the members in the same order, so they are compared
step by step: as long as a layout is found its extent is the exact one
(`foldlM_exact`), and it is lost only for a reason that is `Explained`
(`foldlM_fails`). The second is stated of the exact extent of all members, since an
earlier sum is never larger than a later one.

Consumed by the proof that code generation fails only as announced.
-/
import Mathlib.Data.List.Basic
import MiniC.Proofs.Codegen.Frames
import MiniC.Proofs.Source.WellFormed

namespace MiniC

open Steps

-- ============================================================== rounding

/-- The least multiple of `align` that is not below `value`, however large. -/
def roundUp (value align : Nat) : Nat :=
  if align ≤ 1 then value else (value + align - 1) / align * align

/-- Whether a size rounded up is below 2^64, and the sum of the size and the
alignment is not 2^64 to the byte. -/
structure Roundable (value align : Nat) : Prop where
  fits : roundUp value align < 2 ^ 64
  sum : align ≤ 1 ∨ value + align ≠ 2 ^ 64

instance (value align : Nat) : Decidable (Roundable value align) :=
  decidable_of_iff (roundUp value align < 2 ^ 64 ∧ (align ≤ 1 ∨ value + align ≠ 2 ^ 64))
    ⟨fun h => ⟨h.1, h.2⟩, fun h => ⟨h.fits, h.sum⟩⟩

/-- Rounding up goes up. -/
theorem le_roundUp (value align : Nat) : value ≤ roundUp value align := by
  unfold roundUp
  split
  · exact Nat.le_refl _
  · have hpos : 0 < align := by omega
    have hlt := Nat.lt_mul_div_succ (value + align - 1) hpos
    rw [Nat.mul_add, Nat.mul_one, Nat.mul_comm] at hlt
    omega

theorem fits64_eq {n : Nat} (h : n < 2 ^ 64) : fits64 n = some n := if_pos h

/-- A value that is rounded up is rounded as it would be without a bound. -/
theorem alignUp?_exact {value align n : Nat} (h : alignUp? value align = some n) :
    n = roundUp value align := by
  unfold alignUp? at h
  unfold roundUp
  split at h
  · rename_i halign
    cases h
    rw [if_pos halign]
  · rename_i halign
    obtain ⟨sum, hsum, rfl⟩ := Option.map_eq_some_iff.1 h
    obtain ⟨rfl, -⟩ := fits64_some hsum
    rw [if_neg halign]

/-- A value is rounded up if its sum with the alignment fits. -/
theorem alignUp?_eq {value align : Nat} (h : align ≤ 1 ∨ value + align < 2 ^ 64) :
    alignUp? value align = some (roundUp value align) := by
  unfold alignUp? roundUp
  split
  · rfl
  · rename_i halign
    rw [fits64_eq (h.resolve_left halign)]
    rfl

/-- Under an alignment that divides 2^64 the sum fits if the rounded size
does, or is 2^64 itself. -/
theorem Roundable.alignUp? {value align : Nat} (h : Roundable value align)
    (halign : align ∈ [1, 2, 4, 8, 16]) : alignUp? value align = some (roundUp value align) := by
  refine alignUp?_eq ?_
  have hfits := h.fits
  unfold roundUp at hfits
  have hsum := h.sum
  simp only [List.mem_cons, List.not_mem_nil, or_false] at halign
  rcases halign with rfl | rfl | rfl | rfl | rfl <;> simp at hfits hsum ⊢ <;> omega

-- =============================================================== extents

/-- A size in bytes and an alignment. -/
structure Extent where
  size : Nat
  align : Nat
deriving DecidableEq, Repr

namespace Extent

/-- The extent of nothing. -/
def empty : Extent := ⟨0, 1⟩

/-- A part behind a whole, at the first offset its alignment allows. -/
def add (whole part : Extent) : Extent :=
  ⟨roundUp whole.size part.align + part.size, max whole.align part.align⟩

/-- The whole padded to its alignment. -/
def padded (e : Extent) : Extent := { e with size := roundUp e.size e.align }

/-- The extent of a type, given those of aggregates. There is no storage of
type void. -/
def ofTy (extentOf : String → Extent) : Ty → Extent
  | .void => empty
  | .named name => extentOf name
  | ty => ⟨ty.size, ty.size⟩

/-- Variables behind a whole, one behind the other, without padding behind
the last. -/
def addAll (extentOf : String → Extent) (whole : Extent) (decls : List VariableDecl) : Extent :=
  decls.foldl (fun e d => e.add (ofTy extentOf d.ty)) whole

/-- The extent of variables that stand one behind the other. -/
def ofDecls (extentOf : String → Extent) (decls : List VariableDecl) : Extent :=
  addAll extentOf empty decls

end Extent

namespace Program

/-- The extent of an aggregate in which aggregates nest at most `fuel`
deep. -/
def extentWith (p : Program) : Nat → String → Extent
  | 0, _ => .empty
  | fuel + 1, name =>
    match p.aggregate? name with
    | none => .empty
    | some decl => (Extent.ofDecls (p.extentWith fuel) decl.members).padded

/-- The extent of an aggregate. -/
def extent (p : Program) (name : String) : Extent := p.extentWith (p.aggregates.length + 1) name

/-- Whether the size of every aggregate can be rounded up. -/
def Roundable (p : Program) : Prop :=
  ∀ decl ∈ p.aggregates, MiniC.Roundable (Extent.ofDecls p.extent decl.members).size
    (Extent.ofDecls p.extent decl.members).align

end Program

namespace Extent

/-- Whether an extent has an alignment of the machine, which its size is not
below. -/
structure Sane (e : Extent) : Prop where
  align : e.align ∈ [1, 2, 4, 8]
  size : e.align ≤ 1 ∨ e.align ≤ e.size

theorem Sane.align_pos {e : Extent} (h : e.Sane) : 0 < e.align := by
  have hall : ∀ a ∈ [1, 2, 4, 8], 0 < a := by decide
  exact hall _ h.align

/-- A variable that is added leaves a sane extent. -/
theorem Sane.add {whole part : Extent} (hw : Sane whole) (hp : Sane part) :
    Sane (whole.add part) where
  align := by
    rcases Nat.le_total whole.align part.align with h | h
    · show max whole.align part.align ∈ _
      rw [Nat.max_eq_right h]
      exact hp.align
    · show max whole.align part.align ∈ _
      rw [Nat.max_eq_left h]
      exact hw.align
  size := by
    show max whole.align part.align ≤ 1
      ∨ max whole.align part.align ≤ roundUp whole.size part.align + part.size
    have hle := le_roundUp whole.size part.align
    have hwhole := hw.size
    have hpart := hp.size
    omega

/-- Padding an extent leaves it sane. -/
theorem Sane.padded {e : Extent} (h : Sane e) : Sane e.padded :=
  ⟨h.align, h.size.imp_right fun hle => Nat.le_trans hle (le_roundUp _ _)⟩

theorem Sane.empty : Sane empty := ⟨by decide, Or.inl (Nat.le_refl 1)⟩

theorem Sane.ofTy {extentOf : String → Extent} (h : ∀ name, Sane (extentOf name)) (ty : Ty) :
    Sane (Extent.ofTy extentOf ty) := by
  cases ty with
  | named name => exact h name
  | void => exact .empty
  | _ => exact ⟨by simp [Extent.ofTy, Ty.size], Or.inr (Nat.le_refl _)⟩

theorem Sane.addAll {extentOf : String → Extent} (h : ∀ name, Sane (extentOf name))
    (decls : List VariableDecl) {e : Extent} (he : Sane e) :
    Sane (Extent.addAll extentOf e decls) := by
  induction decls generalizing e with
  | nil => exact he
  | cons d rest ih => exact ih (he.add (Sane.ofTy h d.ty))

/-- Adding variables makes no extent smaller. -/
theorem size_le_addAll (extentOf : String → Extent) (decls : List VariableDecl) (e : Extent) :
    e.size ≤ (addAll extentOf e decls).size := by
  induction decls generalizing e with
  | nil => exact Nat.le_refl _
  | cons d rest ih =>
      have hstep : e.size ≤ (e.add (Extent.ofTy extentOf d.ty)).size :=
        Nat.le_trans (le_roundUp _ _) (Nat.le_add_right _ _)
      exact Nat.le_trans hstep (ih _)

theorem addAll_append (extentOf : String → Extent) (e : Extent) (decls decls' : List VariableDecl) :
    addAll extentOf e (decls ++ decls') = addAll extentOf (addAll extentOf e decls) decls' :=
  List.foldl_append

end Extent

/-- The extent of an aggregate is sane, to whatever depth it is followed. -/
theorem Program.extentWith_sane (p : Program) (fuel : Nat) (name : String) :
    (p.extentWith fuel name).Sane := by
  induction fuel generalizing name with
  | zero => exact .empty
  | succ fuel ih =>
      unfold extentWith
      split
      · exact .empty
      · exact (Extent.Sane.addAll ih _ .empty).padded

theorem Program.extent_sane (p : Program) (ty : Ty) : (Extent.ofTy p.extent ty).Sane :=
  Extent.Sane.ofTy (p.extentWith_sane _) ty

-- =============================================================== nesting

/-- Whether an aggregate exists and aggregates nest at most so deep in it. -/
def Program.Nested (p : Program) : Nat → String → Prop
  | 0, _ => False
  | n + 1, name => ∃ decl, p.aggregate? name = some decl
    ∧ ∀ m ∈ decl.members, ∀ inner, m.ty = .named inner → p.Nested n inner

namespace Program

/-- What a program nests, a larger one does. -/
theorem Nested.mono {p q : Program} (hp : p.Extends q) {n : Nat} {name : String}
    (h : p.Nested n name) : q.Nested n name := by
  induction n generalizing name with
  | zero => exact h.elim
  | succ n ih =>
      obtain ⟨decl, hdecl, hmembers⟩ := h
      exact ⟨decl, hp name decl hdecl, fun m hm inner hty => ih (hmembers m hm inner hty)⟩

theorem Nested.le {p : Program} {n k : Nat} (hle : n ≤ k) {name : String}
    (h : p.Nested n name) : p.Nested k name := by
  induction n generalizing k name with
  | zero => exact h.elim
  | succ n ih =>
      obtain ⟨decl, hdecl, hmembers⟩ := h
      cases k with
      | zero => omega
      | succ k =>
          exact ⟨decl, hdecl, fun m hm inner hty =>
            ih (Nat.le_of_succ_le_succ hle) (hmembers m hm inner hty)⟩

/-- In an accepted program aggregates nest no deeper than there are
aggregates: members are of types declared before. -/
theorem WellFormed.nested {p : Program} (h : p.WellFormed) {name : String}
    (hname : (p.aggregate? name).isSome = true) : p.Nested p.aggregates.length name := by
  obtain ⟨body⟩ := p
  induction body using List.reverseRecOn generalizing name with
  | nil => cases hname
  | append_singleton front decl ih =>
      have hdecl : decl.WellFormedAfter ⟨front⟩ := h front decl [] rfl
      have hkept : Program.Extends ⟨front⟩ ⟨front ++ [decl]⟩ := hdecl.aggregates_kept
      have hold : ∀ {inner : String}, (Program.aggregate? ⟨front⟩ inner).isSome = true →
          Program.Nested ⟨front ++ [decl]⟩ (Program.aggregates ⟨front⟩).length inner :=
        fun hinner => (ih h.front hinner).mono hkept
      have hall : Program.aggregates ⟨front ++ [decl]⟩
          = Program.aggregates ⟨front⟩ ++ Program.aggregates ⟨[decl]⟩ := List.filterMap_append
      rw [hall, List.length_append]
      cases hfront : Program.aggregate? ⟨front⟩ name with
      | some found =>
          exact (hold (hfront ▸ rfl)).le (Nat.le_add_right _ _)
      | none =>
          -- The name is new, so it is that of the declaration itself.
          obtain ⟨found, hfound⟩ := Option.isSome_iff_exists.1 hname
          obtain ⟨hmem, hnamed⟩ := mem_aggregates hfound
          rw [hall] at hmem
          rcases List.mem_append.1 hmem with hmem | hmem
          · have hsome := aggregate?_isSome hmem
            rw [hnamed, hfront] at hsome
            cases hsome
          · cases decl with
            | aggregate d =>
                obtain rfl : found = d := List.mem_singleton.1 hmem
                refine ⟨found, hfound, fun m hm inner hty => ?_⟩
                obtain ⟨scope, hm⟩ := hdecl.2.members m hm
                have hknown := hm.ty
                rw [hty] at hknown
                exact hold hknown
            | _ => cases hmem

/-- Where the types of variables have one extent, the variables have. -/
theorem ofDecls_congr {f g : String → Extent} {decls : List VariableDecl}
    (h : ∀ d ∈ decls, Extent.ofTy f d.ty = Extent.ofTy g d.ty) :
    Extent.ofDecls f decls = Extent.ofDecls g decls := by
  unfold Extent.ofDecls Extent.addAll
  exact List.foldl_ext _ _ _ fun e d hd => by rw [h d hd]

/-- The extent of a type depends on the aggregate it names only. -/
theorem ofTy_congr {f g : String → Extent} {ty : Ty}
    (h : ∀ name, ty = .named name → f name = g name) : Extent.ofTy f ty = Extent.ofTy g ty := by
  cases ty with
  | named name => exact h name rfl
  | _ => rfl

/-- How far extents are followed does not matter if it is far enough. -/
theorem Nested.extentWith {p : Program} {n k : Nat} (hle : n ≤ k) {name : String}
    (h : p.Nested n name) : p.extentWith k name = p.extentWith n name := by
  induction n generalizing k name with
  | zero => exact h.elim
  | succ n ih =>
      obtain ⟨decl, hdecl, hmembers⟩ := h
      cases k with
      | zero => omega
      | succ k =>
          unfold Program.extentWith
          rw [hdecl]
          refine congrArg Extent.padded (ofDecls_congr fun m hm => ofTy_congr fun inner hty => ?_)
          exact ih (Nat.le_of_succ_le_succ hle) (hmembers m hm inner hty)

/-- The extent of an aggregate is that of its members, padded. -/
theorem WellFormed.extent_eq {p : Program} (h : p.WellFormed) {name : String}
    {decl : AggregateDecl} (hdecl : p.aggregate? name = some decl) :
    p.extent name = (Extent.ofDecls p.extent decl.members).padded := by
  have hnested : p.Nested p.aggregates.length name := h.nested (hdecl ▸ rfl)
  show p.extentWith (p.aggregates.length + 1) name = _
  cases hlength : p.aggregates.length with
  | zero =>
      rw [hlength] at hnested
      exact hnested.elim
  | succ n =>
      rw [hlength] at hnested
      obtain ⟨found, hfound, hmembers⟩ := hnested
      obtain rfl : found = decl := Option.some.inj (hfound.symm.trans hdecl)
      unfold extentWith
      rw [hdecl]
      refine congrArg Extent.padded (ofDecls_congr fun m hm => ofTy_congr fun inner hty => ?_)
      have hinner := hmembers m hm inner hty
      show p.extentWith (n + 1) inner = p.extentWith (p.aggregates.length + 1) inner
      have hfar : n ≤ p.aggregates.length + 1 := by omega
      exact (hinner.extentWith (Nat.le_succ n)).trans (hinner.extentWith hfar).symm

end Program

-- =============================================================== layouts

/-- How code generation may fail for an accepted program: a function is used
like a variable, something is of type void, a literal has no value or no code
is generated for a construct. If there is `room`, every size fits. -/
def GenError.Explained (p : Program) (room : Prop) : GenError → Prop
  | .undeclared name => ∃ f ∈ p.functions, f.name = name
  | .notReachable what => what = .voidStorage ∨ ∃ text, what = .malformedLiteral text
  | .unrepresentable => ¬ room
  | _ => True

namespace Layout

/-- The extent of a layout. -/
def extent (l : Layout) : Extent := ⟨l.size, l.align⟩

variable {p : Program} {room : Prop} {layoutOf : String → Except GenError Layout}
  {extentOf : String → Extent}

/-- Whether the layout of an aggregate has the extent that is asked for, or
is missing for a reason. -/
structure Faithful (p : Program) (room : Prop) (layoutOf : String → Except GenError Layout)
    (extentOf : String → Extent) (name : String) : Prop where
  exact : ∀ l, layoutOf name = .ok l → l.extent = extentOf name
  fails : Only (GenError.Explained p room) (layoutOf name)

/-- A type that is measured has its exact extent. -/
theorem measure_exact {ty : Ty}
    (h : ∀ name, ty = .named name → Faithful p room layoutOf extentOf name)
    {size align : Nat} (hty : measure layoutOf ty = .ok (size, align)) :
    Extent.ofTy extentOf ty = ⟨size, align⟩ := by
  cases ty with
  | void => cases hty
  | named name =>
      unfold measure at hty
      obtain ⟨l, hl, hpair⟩ := except_map_ok.1 hty
      cases hpair
      exact ((h name rfl).exact l hl).symm
  | _ =>
      cases hty
      rfl

/-- A type is not measured for a reason. -/
theorem measure_fails {ty : Ty}
    (h : ∀ name, ty = .named name → Faithful p room layoutOf extentOf name) :
    Only (GenError.Explained p room) (measure layoutOf ty) := by
  cases ty with
  | void => exact Only.error (Or.inl rfl)
  | named name => exact Only.map (h name rfl).fails
  | _ => exact Only.ok _

theorem sized_fails {α : Type} {x : Option α} (h : room → x.isSome = true) :
    Only (GenError.Explained p room) (sized x) := by
  cases x with
  | some a => exact Only.ok a
  | none =>
      refine Only.error fun hroom => ?_
      cases h hroom

/-- A member that is added lies where the exact extent ends, and adds its own. -/
theorem add_exact {l l' : Layout} {name : String} {ty : Ty} {size align : Nat}
    (h : l.add name ty size align = .ok l') :
    l'.extent = l.extent.add ⟨size, align⟩
      ∧ l'.members = l.members ++ [⟨name, ty, roundUp l.size align⟩] := by
  unfold Layout.add at h
  simp only [except_bind_ok] at h
  obtain ⟨offset, hoffset, total, htotal, h⟩ := h
  cases h
  obtain ⟨rfl, -⟩ := fits64_some (sized_ok htotal)
  rw [alignUp?_exact (sized_ok hoffset)]
  exact ⟨rfl, rfl⟩

/-- A member is not added because the exact size does not fit. -/
theorem add_fails {l : Layout} {name : String} {ty : Ty} {part : Extent} (hpart : part.Sane)
    (h : room → (l.extent.add part).size < 2 ^ 64) :
    Only (GenError.Explained p room) (l.add name ty part.size part.align) := by
  have hround : room → alignUp? l.size part.align = some (roundUp l.size part.align) := by
    intro hroom
    have hsize : roundUp l.size part.align + part.size < 2 ^ 64 := h hroom
    have hle := le_roundUp l.size part.align
    refine alignUp?_eq (hpart.size.imp_right fun halign => ?_)
    omega
  refine Only.bind (sized_fails fun hroom => ?_) fun offset hoffset => ?_
  · rw [hround hroom]
    rfl
  · refine Only.bind (sized_fails fun hroom => ?_) fun total _ => Only.ok _
    have hsize : roundUp l.size part.align + part.size < 2 ^ 64 := h hroom
    rw [alignUp?_exact (sized_ok hoffset), fits64_eq hsize]
    rfl

section Members

variable (hsane : ∀ name, (extentOf name).Sane)

/-- Members that were all added make up the exact extent. -/
theorem foldlM_exact (members : List VariableDecl)
    (hmembers : ∀ m ∈ members, ∀ name, m.ty = .named name →
      Faithful p room layoutOf extentOf name)
    {l l' : Layout}
    (h : members.foldlM (fun l m => do
      let (size, align) ← measure layoutOf m.ty
      l.add m.name m.ty size align) l = .ok l') :
    l'.extent = Extent.addAll extentOf l.extent members := by
  induction members generalizing l with
  | nil =>
      cases h
      rfl
  | cons m rest ih =>
      rw [List.foldlM_cons] at h
      obtain ⟨next, hnext, h⟩ := except_bind_ok.1 h
      obtain ⟨⟨size, align⟩, hty, hadd⟩ := except_bind_ok.1 hnext
      have hexact := measure_exact (hmembers m List.mem_cons_self) hty
      rw [ih (fun d hd => hmembers d (List.mem_cons_of_mem m hd)) h, (add_exact hadd).1, ← hexact]
      rfl

include hsane

/-- Members are not all added for a reason. -/
theorem foldlM_fails (members : List VariableDecl)
    (hmembers : ∀ m ∈ members, ∀ name, m.ty = .named name →
      Faithful p room layoutOf extentOf name)
    {l : Layout}
    (h : room → (Extent.addAll extentOf l.extent members).size < 2 ^ 64) :
    Only (GenError.Explained p room) (members.foldlM (fun l m => do
      let (size, align) ← measure layoutOf m.ty
      l.add m.name m.ty size align) l) := by
  induction members generalizing l with
  | nil => exact Only.ok l
  | cons m rest ih =>
      have hty := hmembers m List.mem_cons_self
      rw [List.foldlM_cons]
      refine Only.bind ?_ fun next hnext => ?_
      · refine Only.bind (measure_fails hty) fun found hfound => ?_
        have hexact := measure_exact hty hfound
        have hpart := Extent.Sane.ofTy hsane m.ty
        rw [hexact] at hpart
        refine add_fails hpart fun hroom => ?_
        have hstep := Extent.size_le_addAll extentOf rest (l.extent.add (Extent.ofTy extentOf m.ty))
        rw [← hexact]
        exact Nat.lt_of_le_of_lt hstep (h hroom)
      · obtain ⟨⟨size, align⟩, hfound, hadd⟩ := except_bind_ok.1 hnext
        refine ih (fun d hd => hmembers d (List.mem_cons_of_mem m hd)) fun hroom => ?_
        rw [(add_exact hadd).1, ← measure_exact hty hfound]
        exact h hroom

/-- The layout of members has their extent, padded, or is missing for a
reason. -/
theorem ofMembers_faithful {members : List VariableDecl}
    (hmembers : ∀ m ∈ members, ∀ name, m.ty = .named name →
      Faithful p room layoutOf extentOf name)
    (hroom : room → MiniC.Roundable (Extent.ofDecls extentOf members).size
      (Extent.ofDecls extentOf members).align) :
    (∀ l, ofMembers layoutOf members = .ok l → l.extent = (Extent.ofDecls extentOf members).padded)
      ∧ Only (GenError.Explained p room) (ofMembers layoutOf members) := by
  constructor
  · intro l h
    unfold ofMembers at h
    obtain ⟨flat, hflat, hpad⟩ := except_bind_ok.1 h
    have hwhole : flat.extent = Extent.ofDecls extentOf members :=
      foldlM_exact members hmembers hflat
    unfold pad at hpad
    obtain ⟨size, hsize, hpure⟩ := except_bind_ok.1 hpad
    cases hpure
    rw [← hwhole, alignUp?_exact (sized_ok hsize)]
    rfl
  · refine Only.bind (foldlM_fails hsane members hmembers fun h => ?_) fun flat hflat => ?_
    · exact Nat.lt_of_le_of_lt (le_roundUp _ _) (hroom h).fits
    · have hwhole : flat.extent = Extent.ofDecls extentOf members :=
        foldlM_exact members hmembers hflat
      refine Only.bind (sized_fails fun h => ?_) fun size _ => Only.ok _
      have hround := hroom h
      have halign := (Extent.Sane.addAll hsane members .empty).align
      have halign' : (Extent.ofDecls extentOf members).align ∈ [1, 2, 4, 8, 16] :=
        List.mem_append_left [16] halign
      rw [← hwhole] at hround halign'
      have hsome : alignUp? flat.size flat.align = _ := hround.alignUp? halign'
      rw [hsome]
      rfl

end Members

/-- A layout has the names of the members it is made of. -/
theorem foldlM_names (members : List VariableDecl) {l l' : Layout}
    (h : members.foldlM (fun l m => do
      let (size, align) ← measure layoutOf m.ty
      l.add m.name m.ty size align) l = .ok l') :
    l'.members.map (·.name) = l.members.map (·.name) ++ members.map (·.name) := by
  induction members generalizing l with
  | nil =>
      cases h
      exact (List.append_nil _).symm
  | cons m rest ih =>
      rw [List.foldlM_cons] at h
      obtain ⟨next, hnext, h⟩ := except_bind_ok.1 h
      obtain ⟨⟨size, align⟩, -, hadd⟩ := except_bind_ok.1 hnext
      rw [ih h, (add_exact hadd).2, List.map_append, List.append_assoc]
      rfl

theorem ofMembers_names {members : List VariableDecl} {l : Layout}
    (h : ofMembers layoutOf members = .ok l) :
    l.members.map (·.name) = members.map (·.name) := by
  unfold ofMembers at h
  obtain ⟨flat, hflat, hpad⟩ := except_bind_ok.1 h
  unfold pad at hpad
  obtain ⟨size, -, hpure⟩ := except_bind_ok.1 hpad
  cases hpure
  exact foldlM_names members hflat

end Layout

namespace Program.WellFormed

variable {p : Program} (h : p.WellFormed) {room : Prop} (hroom : room → p.Roundable)

include h hroom

/-- A layout that is followed deeply enough is the exact one, or missing for a
reason. -/
theorem layoutWith_faithful {n fuel : Nat} (hle : n ≤ fuel) {name : String}
    (hnested : p.Nested n name) :
    Layout.Faithful p room (p.layoutWith fuel) p.extent name := by
  induction n generalizing fuel name with
  | zero => exact hnested.elim
  | succ n ih =>
      obtain ⟨decl, hdecl, hmembers⟩ := hnested
      cases fuel with
      | zero => omega
      | succ fuel =>
          obtain ⟨hexact, hfails⟩ := Layout.ofMembers_faithful (p.extentWith_sane _)
            (fun m hm inner hty => ih (Nat.le_of_succ_le_succ hle) (hmembers m hm inner hty))
            (fun hr => hroom hr decl (mem_aggregates hdecl).1)
          constructor
          · intro l hl
            unfold layoutWith at hl
            rw [hdecl] at hl
            rw [h.extent_eq hdecl]
            exact hexact l hl
          · unfold layoutWith
            rw [hdecl]
            exact hfails

/-- The layout of a declared aggregate has its extent, or is missing for a
reason. -/
theorem layout_faithful {name : String} (hname : (p.aggregate? name).isSome = true) :
    Layout.Faithful p room p.layout p.extent name :=
  h.layoutWith_faithful hroom (Nat.le_succ _) (h.nested hname)

/-- The size of a type is the exact one. -/
theorem sizeAlign_exact {ty : Ty} (hty : ty.Known p) {size align : Nat}
    (hsize : p.sizeAlign ty = .ok (size, align)) : Extent.ofTy p.extent ty = ⟨size, align⟩ := by
  have hnamed : ∀ name, ty = .named name → Layout.Faithful p room p.layout p.extent name := by
    rintro name rfl
    exact h.layout_faithful hroom hty
  exact Layout.measure_exact hnamed hsize

/-- A type has no size for a reason. -/
theorem sizeAlign_fails {ty : Ty} (hty : ty.Known p) :
    Only (GenError.Explained p room) (p.sizeAlign ty) := by
  have hnamed : ∀ name, ty = .named name → Layout.Faithful p room p.layout p.extent name := by
    rintro name rfl
    exact h.layout_faithful hroom hty
  exact Layout.measure_fails hnamed

end Program.WellFormed

/-- A layout has the members that its aggregate declares. -/
theorem Program.layout_member? {p : Program} {name field : String} {l : Layout}
    {decl : AggregateDecl} (hl : p.layout name = .ok l) (hdecl : p.aggregate? name = some decl)
    (hfield : (decl.member? field).isSome = true) : (l.member? field).isSome = true := by
  unfold layout layoutWith at hl
  rw [hdecl] at hl
  have hnames := Layout.ofMembers_names hl
  unfold AggregateDecl.member? at hfield
  obtain ⟨m, hm, hname⟩ := List.find?_isSome.1 hfield
  have hmem : field ∈ l.members.map (·.name) := by
    rw [hnames, ← eq_of_beq hname]
    exact List.mem_map_of_mem hm
  obtain ⟨found, hfound, rfl⟩ := List.mem_map.1 hmem
  unfold Layout.member?
  exact List.find?_isSome.2 ⟨found, hfound, beq_self_eq_true _⟩

-- ================================================================ frames

mutual

/-- The variables of a statement that get a slot, in order. What folding
leaves out gets none. -/
def Stmt.laid : Stmt → List VariableDecl
  | .block body => laidAll body
  | .branch arm => arm.laid
  | .loop e body _ =>
    if e.isConstant && e.foldsToZero.toOption == some true then [] else laidAll body
  | .variable decl => [decl]
  | _ => []

/-- The variables of statements in order. -/
def laidAll : List Stmt → List VariableDecl
  | [] => []
  | s :: rest => s.laid ++ laidAll rest

/-- The variables of an if chain from an arm on. -/
def Arm.laid : Arm → List VariableDecl
  | ⟨e, consequent, alternate, _⟩ =>
    if e.isConstant then
      match e.foldsToZero with
      | .ok true => alternate.laid
      | .ok false => laidAll consequent
      | .error _ => []
    else laidAll consequent ++ alternate.laid

/-- The variables of an alternate. -/
def Alternate.laid : Alternate → List VariableDecl
  | .none => []
  | .block body => laidAll body
  | .elseIf arm => arm.laid

end

/-- How far the frame of a function reaches: its parameters come first. -/
def Program.frameDepth (p : Program) (decl : FunctionDecl) : Nat :=
  (Extent.ofDecls p.extent (decl.params ++ laidAll decl.body)).size

/-- Whether 64 bits hold the sizes of a program: those of its aggregates and
those of its frames, which are rounded up to sixteen. -/
structure Program.Representable (p : Program) : Prop where
  aggregates : p.Roundable
  frames : ∀ decl ∈ p.functions, MiniC.Roundable (p.frameDepth decl) 16

instance (p : Program) : Decidable p.Representable :=
  decidable_of_iff
    ((∀ decl ∈ p.aggregates, MiniC.Roundable (Extent.ofDecls p.extent decl.members).size
        (Extent.ofDecls p.extent decl.members).align)
      ∧ ∀ decl ∈ p.functions, MiniC.Roundable (p.frameDepth decl) 16)
    ⟨fun h => ⟨h.1, h.2⟩, fun h => ⟨h.aggregates, h.frames⟩⟩

/-- A slot is handed out behind the others if it fits. -/
theorem Frame.alloc?_fits {f : Frame} {part : Extent} (hpart : part.Sane)
    (h : roundUp f.depth part.align + part.size < 2 ^ 64) :
    (f.alloc? part.size part.align).isSome = true := by
  have hle := le_roundUp f.depth part.align
  have hround : alignUp? f.depth part.align = some (roundUp f.depth part.align) :=
    alignUp?_eq (hpart.size.imp_right fun halign => by omega)
  unfold Frame.alloc?
  rw [hround]
  show ((fits64 (roundUp f.depth part.align + part.size)).bind _).isSome = true
  rw [fits64_eq h]
  rfl

/-- A slot that is found room for begins at the next multiple of its alignment. -/
theorem Frame.alloc?_exact {f g : Frame} {size align offset : Nat}
    (h : f.alloc? size align = some (offset, g)) :
    g = { f with depth := roundUp f.depth align + size } := by
  unfold Frame.alloc? at h
  simp only [Option.bind_eq_bind, Option.bind_eq_some_iff, Option.pure_def, Option.some.injEq,
    Prod.mk.injEq] at h
  obtain ⟨start, hstart, depth, hdepth, -, rfl⟩ := h
  obtain ⟨rfl, -⟩ := fits64_some hdepth
  rw [alignUp?_exact hstart]

end MiniC
