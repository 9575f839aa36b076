/-
The variables and members that code can name, as places in memory.

# Apart

Two of them have no byte in common (`refs_apart`), so that storing to one leaves
the values of all others alone (`view_storePlace`). Two references may be apart because
they name different variables, which have slots or symbols of their own, or because
they name different members of one, which stand one behind the other in its layout; the
variable that a reference names is its `root`. Both rest on what is known of a frame
that is `Sound`, and on the arithmetic of addresses, where a slot never reaches around
the end of the address space.

# Views

The view of a machine through a frame is what the source language sees of its memory:
the type and value of every name. It depends on the base pointer and on memory only
(`view_congr`), and names are resolved by the scopes of the frame only
(`place?_congr` and its like).

# Room

Where the stack pointer lies at or below every slot, what is pushed touches none of
them (`Room.not_below`).

Consumed by the proof that expressions compute their values.
-/
import MiniC.Proofs.Codegen.Frames
import MiniC.Proofs.Machine.Exec

namespace MiniC.Codegen

open Asm Steps Machine Source

-- =============================================================== places

/-- The place and type of a reference. -/
def refPlace (env : Env) (f : Frame) : Ref → Except GenError (Place × Ty)
  | .named name => env.locate f name
  | .member object field =>
    env.locateMember f ⟨object, true, .start⟩ .dot ⟨field, true, .start⟩

variable {env : Env} {f : Frame}

/-- A place that is found is that of a reference. -/
theorem place?_some {e : Expr} {found : Place × Ty} (h : env.place? f e = .ok (some found)) :
    ∃ r, ref? e = some r ∧ refPlace env f r = .ok found := by
  unfold Env.place? at h
  cases e with
  | ident i =>
      obtain ⟨_, hfound, heq⟩ := except_map_ok.1 h
      cases heq
      exact ⟨.named i.name, rfl, hfound⟩
  | member object accessor field pos =>
      obtain ⟨_, hfound, heq⟩ := except_map_ok.1 h
      cases heq
      cases accessor with
      | arrow => cases hfound
      | scope => cases hfound
      | dot => exact ⟨.member object.name field.name, rfl, hfound⟩
  | number _ => cases h
  | string _ => cases h
  | binary _ _ _ _ _ _ => cases h
  | unary _ _ _ _ => cases h

/-- What names find depends on the scopes alone. -/
theorem locate_congr {g : Frame} (h : g.scopes = f.scopes) (name : String) :
    env.locate g name = env.locate f name := by
  unfold Env.locate Frame.lookup?
  rw [h]

theorem locateMember_congr {g : Frame} (h : g.scopes = f.scopes) (object : Ident)
    (accessor : Accessor) (field : Ident) :
    env.locateMember g object accessor field = env.locateMember f object accessor field := by
  unfold Env.locateMember
  rw [locate_congr h]

/-- A place is found in the scopes of a frame, whatever else is in it. -/
theorem place?_congr {g : Frame} (h : g.scopes = f.scopes) (e : Expr) :
    env.place? g e = env.place? f e := by
  cases e with
  | ident i =>
      show some <$> env.locate g i.name = some <$> env.locate f i.name
      rw [locate_congr h]
  | member object accessor field pos =>
      show some <$> env.locateMember g object accessor field = _
      rw [locateMember_congr h]
      rfl
  | number _ => rfl
  | string _ => rfl
  | binary _ _ _ _ _ _ => rfl
  | unary _ _ _ _ => rfl

theorem target_congr {g : Frame} (h : g.scopes = f.scopes) (e : Expr) :
    env.target g e = env.target f e := by
  unfold Env.target
  rw [place?_congr h]

theorem typeOf_congr {g : Frame} (h : g.scopes = f.scopes) (e : Expr) :
    env.typeOf g e = env.typeOf f e := by
  induction e with
  | number _ => rfl
  | string _ => rfl
  | ident i =>
      unfold Env.typeOf
      rw [locate_congr h]
  | member object accessor field pos =>
      unfold Env.typeOf
      rw [locateMember_congr h]
  | binary op lhs rhs constant operandsMatch pos ihl ihr =>
      unfold Env.typeOf
      rw [ihl, ihr]
  | unary op fixity operand pos ih =>
      unfold Env.typeOf
      rw [ih]

-- ============================================================= disjoint

/-- Whether so many bytes at one place have none in common with so many at
another. On the stack a place is given by its distance from above. -/
def PlacesApart : Place → Nat → Place → Nat → Prop
  | .stack a, n, .stack b, k => a + k ≤ b ∨ b + n ≤ a
  | .static s a, n, .static t b, k => s ≠ t ∨ a + n ≤ b ∨ b + k ≤ a
  | _, _, _, _ => True

/-- Whether so many bytes at a place lie below the base pointer, if the place
is on the stack. -/
def PlaceValid : Place → Nat → Prop
  | .stack a, n => n ≤ a ∧ a < 2 ^ 64
  | .static _ _, _ => True

/-- The bytes of a slot are below the base pointer. -/
theorem within_stack {m : Machine} {a n : Nat} {c : Address}
    (h : Machine.Within (m.addressOf (.stack a)) n c) :
    ∃ i, i < n ∧ c = .stack (m.regs .rbp - BitVec.ofNat 64 a + BitVec.ofNat 64 i) := by
  obtain ⟨i, hi, rfl⟩ := h
  exact ⟨i, hi, rfl⟩

/-- Places apart have no address in common. -/
theorem addresses_apart {m : Machine} {p q : Place} {n k : Nat} (hp : PlaceValid p n)
    (hq : PlaceValid q k) (h : PlacesApart p n q k) {c : Address}
    (hc : Machine.Within (m.addressOf p) n c) : ¬ Machine.Within (m.addressOf q) k c := by
  intro hc'
  cases p with
  | stack a =>
      cases q with
      | stack b =>
          obtain ⟨i, hi, rfl⟩ := within_stack hc
          obtain ⟨j, hj, heq⟩ := within_stack hc'
          have hnat := congrArg BitVec.toNat (Address.stack.inj heq)
          simp only [BitVec.toNat_add, BitVec.toNat_sub, BitVec.toNat_ofNat] at hnat
          have hrbp := (m.regs .rbp).isLt
          obtain ⟨hna, ha⟩ := hp
          obtain ⟨hkb, hb⟩ := hq
          have h : a + k ≤ b ∨ b + n ≤ a := h
          omega
      | static t b =>
          obtain ⟨i, hi, rfl⟩ := within_stack hc
          obtain ⟨j, hj, heq⟩ := hc'
          cases heq
  | static s a =>
      obtain ⟨i, hi, rfl⟩ := hc
      obtain ⟨j, hj, heq⟩ := hc'
      cases q with
      | stack b => cases heq
      | static t b =>
          have h : s ≠ t ∨ a + n ≤ b ∨ b + k ≤ a := h
          obtain ⟨hst, hoff⟩ := Address.static.inj heq
          rcases h with hne | hle | hle
          · exact hne hst
          · omega
          · omega

/-- The variable that a reference is or is part of. -/
def root : Ref → String
  | .named name => name
  | .member object _ => object

/-- A whole number that can be referred to lies within its variable. -/
theorem refPlace_root {r : Ref} {place : Place} {ty : Ty}
    (h : refPlace env f r = .ok (place, ty)) (hty : ty.isInteger = true) :
    ∃ base whole offset size align, env.locate f (root r) = .ok (base, whole)
      ∧ Env.shift base offset = .ok place
      ∧ env.program.sizeAlign whole = .ok (size, align) ∧ offset + ty.size ≤ size := by
  cases r with
  | named name =>
      refine ⟨place, ty, 0, ty.size, ty.size, h, ?_, Layout.measure_whole hty, by omega⟩
      cases place with
      | stack a => rfl
      | static s a => rfl
  | member object field =>
      unfold refPlace Env.locateMember at h
      simp only [except_bind_ok] at h
      obtain ⟨⟨base, whole⟩, hbase, h⟩ := h
      cases whole <;> try cases h
      rename_i aggregate
      obtain ⟨layout, hlayout, h⟩ := except_bind_ok.1 h
      cases hm : layout.member? field with
      | none =>
          rw [hm] at h
          cases h
      | some member =>
          rw [hm] at h
          obtain ⟨shifted, hshift, hpure⟩ := except_bind_ok.1 h
          cases hpure
          refine ⟨base, .named aggregate, member.offset, layout.size, layout.align, hbase, hshift,
            ?_, Program.member_inside hlayout hm hty⟩
          show (env.program.layout aggregate).map _ = _
          rw [hlayout]
          rfl

/-- A member stands above the start of its slot, or behind that of its symbol. -/
theorem shift_ok {base place : Place} {offset : Nat} (h : Env.shift base offset = .ok place) :
    (∃ b, base = .stack b ∧ offset ≤ b ∧ place = .stack (b - offset))
      ∨ ∃ s b, base = .static s b ∧ place = .static s (b + offset) := by
  cases base with
  | stack b =>
      have h : (if offset ≤ b then .ok (.stack (b - offset))
          else .error GenError.unrepresentable) = Except.ok place := h
      split at h
      · rename_i hle
        cases h
        exact Or.inl ⟨b, rfl, hle, rfl⟩
      · cases h
  | static s b =>
      cases h
      exact Or.inr ⟨s, b, rfl, rfl⟩

/-- A name has a slot, or is a symbol. -/
theorem locate_ok {name : String} {base : Place} {ty : Ty}
    (h : env.locate f name = .ok (base, ty)) :
    (∃ slot, (name, slot) ∈ f.slots ∧ base = .stack slot.offset ∧ ty = slot.ty)
      ∨ base = .static name 0 := by
  unfold Env.locate at h
  split at h
  · rename_i slot hslot
    cases h
    exact Or.inl ⟨slot, Frame.lookup?_mem hslot, rfl, rfl⟩
  · split at h
    · cases h
      exact Or.inr rfl
    · cases h

/-- A reference to a whole number names a slot that is large enough. -/
theorem refPlace_valid (hf : f.Sound env.program) {r : Ref} {place : Place} {ty : Ty}
    (h : refPlace env f r = .ok (place, ty)) (hty : ty.isInteger = true) :
    PlaceValid place ty.size := by
  obtain ⟨base, whole, offset, size, align, hbase, hshift, hsize, hin⟩ := refPlace_root h hty
  rcases shift_ok hshift with ⟨b, rfl, hle, rfl⟩ | ⟨s, b, rfl, rfl⟩
  · rcases locate_ok hbase with ⟨slot, hmem, hoffset, rfl⟩ | hstatic
    · cases hoffset
      obtain ⟨size', align', hsize', hfit, hdepth⟩ := hf.sized _ hmem
      rw [hsize] at hsize'
      cases hsize'
      have hlt := hf.depth
      have hfit : size ≤ slot.offset := hfit
      have hdepth : slot.offset ≤ f.depth := hdepth
      exact ⟨by omega, by omega⟩
    · cases hstatic
  · trivial

/-- Parts of variables of different names are apart. -/
theorem roots_apart (hf : f.Sound env.program) {x y : String} (hne : x ≠ y)
    {base base' place place' : Place} {whole whole' : Ty}
    {offset offset' size size' align align' n k : Nat}
    (hx : env.locate f x = .ok (base, whole)) (hy : env.locate f y = .ok (base', whole'))
    (hsize : env.program.sizeAlign whole = .ok (size, align))
    (hsize' : env.program.sizeAlign whole' = .ok (size', align'))
    (hshift : Env.shift base offset = .ok place) (hshift' : Env.shift base' offset' = .ok place')
    (hin : offset + n ≤ size) (hin' : offset' + k ≤ size') : PlacesApart place n place' k := by
  rcases shift_ok hshift with ⟨b, rfl, hle, rfl⟩ | ⟨s, b, rfl, rfl⟩
  · rcases shift_ok hshift' with ⟨b', rfl, hle', rfl⟩ | ⟨s', b', rfl, rfl⟩
    · rcases locate_ok hx with ⟨slot, hmem, hoffset, rfl⟩ | hstatic
      · rcases locate_ok hy with ⟨slot', hmem', hoffset', rfl⟩ | hstatic
        · cases hoffset
          cases hoffset'
          obtain ⟨_, _, hs, hfit, -⟩ := hf.sized _ hmem
          obtain ⟨_, _, hs', hfit', -⟩ := hf.sized _ hmem'
          rw [hsize] at hs
          cases hs
          rw [hsize'] at hs'
          cases hs'
          have hfit : size ≤ slot.offset := hfit
          have hfit' : size' ≤ slot'.offset := hfit'
          show slot.offset - offset + k ≤ slot'.offset - offset'
            ∨ slot'.offset - offset' + n ≤ slot.offset - offset
          have hbound : (x, slot) ≠ (y, slot') := fun heq => hne (congrArg Prod.fst heq)
          rcases hf.bindings_apart hmem hmem' hbound with ⟨_, _, hs, hle⟩ | ⟨_, _, hs, hle⟩
          · have hs : env.program.sizeAlign slot.ty = _ := hs
            rw [hsize] at hs
            cases hs
            have hle : slot'.offset + size ≤ slot.offset := hle
            omega
          · have hs : env.program.sizeAlign slot'.ty = _ := hs
            rw [hsize'] at hs
            cases hs
            have hle : slot.offset + size' ≤ slot'.offset := hle
            omega
        · cases hstatic
      · cases hstatic
    · trivial
  · rcases shift_ok hshift' with ⟨b', rfl, hle', rfl⟩ | ⟨s', b', rfl, rfl⟩
    · trivial
    · rcases locate_ok hx with ⟨slot, hmem, hoffset, rfl⟩ | hstatic
      · cases hoffset
      · rcases locate_ok hy with ⟨slot', hmem', hoffset', rfl⟩ | hstatic'
        · cases hoffset'
        · cases hstatic
          cases hstatic'
          exact Or.inl hne

/-- Different members of one variable are apart. -/
theorem members_apart {object fieldA fieldB : String} (hne : fieldA ≠ fieldB)
    {p q : Place} {s t : Ty} (ha : refPlace env f (.member object fieldA) = .ok (p, s))
    (hb : refPlace env f (.member object fieldB) = .ok (q, t)) (hs : s.isInteger = true)
    (ht : t.isInteger = true) : PlacesApart p s.size q t.size := by
  unfold refPlace Env.locateMember at ha hb
  simp only [except_bind_ok] at ha hb
  obtain ⟨⟨base, whole⟩, hbase, ha⟩ := ha
  obtain ⟨⟨base', whole'⟩, hbase', hb⟩ := hb
  have hbase' : env.locate f object = .ok (base', whole') := hbase'
  have hbase : env.locate f object = .ok (base, whole) := hbase
  rw [hbase] at hbase'
  cases hbase'
  cases whole <;> try cases ha
  rename_i aggregate
  obtain ⟨layout, hlayout, ha⟩ := except_bind_ok.1 ha
  obtain ⟨layout', hlayout', hb⟩ := except_bind_ok.1 hb
  rw [hlayout] at hlayout'
  cases hlayout'
  dsimp only at ha hb
  cases hma : layout.member? fieldA with
  | none =>
      rw [hma] at ha
      cases ha
  | some a =>
      cases hmb : layout.member? fieldB with
      | none =>
          rw [hmb] at hb
          cases hb
      | some b =>
          rw [hma] at ha
          rw [hmb] at hb
          obtain ⟨pa, hpa, ha⟩ := except_bind_ok.1 ha
          obtain ⟨pb, hpb, hb⟩ := except_bind_ok.1 hb
          cases ha
          cases hb
          have happart := Program.members_apart hlayout hma hmb hne hs ht
          rcases shift_ok hpa with ⟨base, rfl, hle, rfl⟩ | ⟨name, base, rfl, rfl⟩
          · rcases shift_ok hpb with ⟨_, ⟨⟩, hle', rfl⟩ | ⟨_, _, hno, -⟩
            · show base - a.offset + b.ty.size ≤ base - b.offset
                ∨ base - b.offset + a.ty.size ≤ base - a.offset
              omega
            · cases hno
          · rcases shift_ok hpb with ⟨_, hno, -, -⟩ | ⟨_, _, heq, rfl⟩
            · cases hno
            · cases heq
              show name ≠ name ∨ base + a.offset + a.ty.size ≤ base + b.offset
                ∨ base + b.offset + b.ty.size ≤ base + a.offset
              omega

/-- Two whole numbers that can be referred to are apart, unless they are the
same. -/
theorem refs_apart (hf : f.Sound env.program) {r r' : Ref} (hne : r ≠ r') {p q : Place}
    {s t : Ty} (hr : refPlace env f r = .ok (p, s)) (hr' : refPlace env f r' = .ok (q, t))
    (hs : s.isInteger = true) (ht : t.isInteger = true) : PlacesApart p s.size q t.size := by
  obtain ⟨base, whole, offset, size, align, hbase, hshift, hsize, hin⟩ := refPlace_root hr hs
  obtain ⟨base', whole', offset', size', align', hbase', hshift', hsize', hin'⟩ :=
    refPlace_root hr' ht
  by_cases hroot : root r = root r'
  · -- parts of one variable are members of it
    have hwhole : ∀ {x field : String} {p q : Place} {s t : Ty},
        refPlace env f (.named x) = .ok (p, s) → refPlace env f (.member x field) = .ok (q, t) →
        s.isInteger = true → False := by
      intro x field p q s t hx hfield hs
      have hx : env.locate f x = .ok (p, s) := hx
      unfold refPlace Env.locateMember at hfield
      obtain ⟨⟨base, whole⟩, hbase, hfield⟩ := except_bind_ok.1 hfield
      have hbase : env.locate f x = .ok (base, whole) := hbase
      rw [hx] at hbase
      cases hbase
      cases s <;> first | cases hfield | cases hs
    cases r with
    | named x =>
        cases r' with
        | named y => exact absurd (congrArg Ref.named hroot) hne
        | member object field =>
            have hroot : x = object := hroot
            subst hroot
            exact (hwhole hr hr' hs).elim
    | member object field =>
        cases r' with
        | named y =>
            have hroot : object = y := hroot
            subst hroot
            exact (hwhole hr' hr ht).elim
        | member object' field' =>
            have hroot : object = object' := hroot
            subst hroot
            have hfield : field ≠ field' := fun h => hne (h ▸ rfl)
            exact members_apart hfield hr hr' hs ht
  · exact roots_apart hf hroot hbase hbase' hsize hsize' hshift hshift' hin hin'

-- ================================================================ views

/-- The width of a whole-number type. -/
def wordOf : Ty → Width
  | .bool => .byte
  | .char => .byte
  | .short => .word
  | .int => .dword
  | _ => .qword

theorem widthOf_whole {ty : Ty} (h : ty.isInteger = true) : widthOf ty = .ok (wordOf ty) := by
  cases ty <;> first | rfl | cases h

/-- A whole number has a width of its size. -/
theorem bytes_wordOf {ty : Ty} (h : ty.isInteger = true) : (wordOf ty).bytes = ty.size := by
  cases ty <;> first | rfl | cases h

/-- What the source language sees of a machine: the type and value of every
name that refers to a whole number. -/
abbrev Valuation : Type := Ref → Option Value

/-- The cells of a valuation. -/
def refCells : Cells Valuation where
  cell σ r := (σ r).map fun v => (v.1, some v.2)
  write σ r n := fun q => if q = r then (σ r).map fun v => (v.1, n) else σ q

theorem variables_write (σ : Valuation) (r q : Ref) (n : Int) :
    refCells.write σ r n q = if q = r then (σ r).map fun v => (v.1, n) else σ q := rfl

/-- The view of a machine through a frame. -/
def view (env : Env) (f : Frame) (m : Machine) : Valuation := fun r =>
  match refPlace env f r with
  | .ok (place, ty) => if ty.isInteger then some (ty, m.loadPlace (wordOf ty) place) else none
  | .error _ => none

/-- A reference has the value that is in its place. -/
theorem view_eq {r : Ref} {place : Place} {ty : Ty} (h : refPlace env f r = .ok (place, ty))
    (hty : ty.isInteger = true) (m : Machine) :
    view env f m r = some (ty, m.loadPlace (wordOf ty) place) := by
  unfold view
  rw [h]
  exact if_pos hty

/-- What has a value has a place for it. -/
theorem view_some {m : Machine} {r : Ref} {v : Value} (h : view env f m r = some v) :
    ∃ place, refPlace env f r = .ok (place, v.1) ∧ v.1.isInteger = true
      ∧ v.2 = m.loadPlace (wordOf v.1) place := by
  unfold view at h
  split at h
  · rename_i place ty hplace
    split at h
    · rename_i hty
      cases h
      exact ⟨place, hplace, hty, rfl⟩
    · cases h
  · cases h

/-- The view depends on the bytes of variables alone. -/
theorem view_congr {m m' : Machine} (hrbp : m'.regs .rbp = m.regs .rbp)
    (hmem : ∀ r place ty c, refPlace env f r = .ok (place, ty) → ty.isInteger = true →
      Machine.Within (m.addressOf place) ty.size c → m'.memory c = m.memory c) :
    view env f m' = view env f m := by
  funext r
  unfold view
  split
  · rename_i place ty hplace
    split
    · rename_i hty
      have hload : load m'.memory (m'.addressOf place) (wordOf ty).bytes
          = load m.memory (m.addressOf place) (wordOf ty).bytes := by
        rw [Machine.addressOf_congr hrbp]
        refine load_congr fun c hc => hmem r place ty c hplace hty ?_
        rw [← bytes_wordOf hty]
        exact hc
      unfold Machine.loadPlace
      rw [hload]
    · rfl
  · rfl

/-- Storing to a reference changes its value and no other. -/
theorem view_storePlace (hf : f.Sound env.program) {m : Machine} {r : Ref} {place : Place}
    {ty : Ty} {n : Int} (hr : refPlace env f r = .ok (place, ty)) (hty : ty.isInteger = true)
    (hn : Integer.wrap ty.size n = n) :
    view env f (m.storePlace (wordOf ty) place n) = refCells.write (view env f m) r n := by
  funext q
  rw [variables_write]
  by_cases hq : q = r
  · subst hq
    rw [if_pos rfl, view_eq hr hty, view_eq hr hty, Machine.loadPlace_storePlace,
      bytes_wordOf hty, hn]
    rfl
  · rw [if_neg hq]
    cases hplace : refPlace env f q with
    | error e =>
        unfold view
        rw [hplace]
    | ok found =>
        obtain ⟨place', ty'⟩ := found
        cases hty' : ty'.isInteger with
        | false =>
            unfold view
            rw [hplace]
            simp only [hty', Bool.false_eq_true, if_false]
        | true =>
            rw [view_eq hplace hty', view_eq hplace hty']
            congr 2
            refine Machine.loadPlace_storePlace_apart ?_
            intro a ha
            rw [bytes_wordOf hty'] at ha
            rw [bytes_wordOf hty]
            exact addresses_apart (refPlace_valid hf hplace hty') (refPlace_valid hf hr hty)
              (refs_apart hf hq hplace hr hty' hty) ha

-- ================================================================= room

/-- Whether the stack pointer lies at or below every byte of every slot. -/
def Room (env : Env) (f : Frame) (m : Machine) : Prop :=
  ∀ b ∈ f.slots, ∀ size align, env.program.sizeAlign b.2.ty = .ok (size, align) →
    ∀ i, i < size →
      (m.regs .rsp).toNat
        ≤ (m.regs .rbp - BitVec.ofNat 64 b.2.offset + BitVec.ofNat 64 i).toNat

/-- Whether an address lies on the stack below the stack pointer. -/
def Below (m : Machine) (c : Address) : Prop :=
  ∃ a, c = .stack a ∧ a.toNat < (m.regs .rsp).toNat

/-- A byte of a part is a byte of the whole. -/
theorem part_byte (x : BitVec 64) {whole offset : Nat} (h : offset ≤ whole) (i : Nat) :
    x - BitVec.ofNat 64 (whole - offset) + BitVec.ofNat 64 i
      = x - BitVec.ofNat 64 whole + BitVec.ofNat 64 (offset + i) := by
  have hwhole : BitVec.ofNat 64 whole
      = BitVec.ofNat 64 (whole - offset) + BitVec.ofNat 64 offset := by
    rw [← BitVec.ofNat_add, Nat.sub_add_cancel h]
  rw [hwhole, BitVec.ofNat_add]
  grind

/-- No byte of a variable lies below the stack pointer. -/
theorem Room.not_below {m : Machine} (hroom : Room env f m) {r : Ref}
    {place : Place} {ty : Ty} (hr : refPlace env f r = .ok (place, ty))
    (hty : ty.isInteger = true) {c : Address} (hc : Machine.Within (m.addressOf place) ty.size c) :
    ¬ Below m c := by
  obtain ⟨base, whole, offset, size, align, hbase, hshift, hsize, hin⟩ := refPlace_root hr hty
  rintro ⟨a, rfl, hlt⟩
  rcases shift_ok hshift with ⟨b, rfl, hle, rfl⟩ | ⟨s, b, rfl, rfl⟩
  · rcases locate_ok hbase with ⟨slot, hmem, hoffset, rfl⟩ | hstatic
    · cases hoffset
      obtain ⟨i, hi, heq⟩ := within_stack hc
      have hle' := hroom _ hmem size align hsize (offset + i) (by omega)
      have heq := Address.stack.inj heq
      rw [part_byte _ hle] at heq
      rw [heq] at hlt
      exact absurd hle' (Nat.not_le.2 hlt)
    · cases hstatic
  · obtain ⟨i, hi, heq⟩ := hc
    cases heq

end MiniC.Codegen
