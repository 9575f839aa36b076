/-
Variables in memory. A machine holds a store through a frame if every
variable that has a value has it in its slot, hidden variables among them,
and every global has its value where the global stands (`Holds`).

# Writing

Writing to what a name finds keeps this (`Holds.write`): slots do not overlap,
nor does a slot with a global. So does code that does with the names in sight
what the source does, since it leaves the slots of hidden variables alone
(`Holds.exec`). That is where the simulation of expressions, which knows only
names in sight, is lifted to all variables.

# New variables

A slot that is handed out has no byte of a variable (`fresh_apart`), so storing
in it comes first and the name may follow, or not at all.

# Room

What code needs beside that is room on the stack, which depends on the two
stack registers alone (`Spacious`): a push must not touch a variable, and must
not run out at the bottom of memory.
Consumed by the proof that generated statements follow the source.
-/
import MiniC.Proofs.Codegen.Effects
import MiniC.Proofs.Source.Scopes

namespace MiniC.Codegen

open Asm Steps Machine Machine.Machine Source

-- =============================================================== holding

/-- Whether a slot is of a variable's type and holds its value, if it has
one. -/
structure Bound (m : Machine) (v : Ty × Option Int) (slot : StackSlot) : Prop where
  type : slot.ty = v.1
  holds : ∀ n, v.2 = some n →
    InRange v.1 n ∧ m.loadPlace (wordOf v.1) (.stack slot.offset) = n

/-- Whether a machine holds the variables of a store in the slots of a frame,
and its globals. All of them are whole numbers, so far as names find them. -/
structure Holds (env : Env) (f : Frame) (store : Store) (m : Machine) : Prop where
  whole : ∀ b ∈ f.slots, b.2.ty.isInteger = true
  scopes : ScopesAgree (Bound m) store.scopes f.scopes
  globals : ∀ name ty, env.globals.lookup name = some ty → ty.isInteger = true →
    InRange ty (store.globals name)
      ∧ m.loadPlace (wordOf ty) (.static name 0) = store.globals name

variable {env : Env} {f g : Frame} {store store' : Store} {m m' : Machine}

/-- A name finds a slot for a variable and none for no variable. -/
theorem Holds.find (h : Holds env f store m) (name : String) :
    Option.Rel (Bound m) (store.find? name) (f.lookup? name) :=
  h.scopes.find name

/-- What is held depends on the scopes of a frame alone. -/
theorem Holds.frame (h : Holds env f store m) (hscopes : g.scopes = f.scopes) :
    Holds env g store m := by
  have hslots : g.slots = f.slots := congrArg List.flatten hscopes
  exact ⟨hslots ▸ h.whole, hscopes ▸ h.scopes, h.globals⟩

/-- A scope opens on both sides. -/
theorem Holds.push (h : Holds env f store m) :
    Holds env f.pushScope { store with scopes := [] :: store.scopes } m :=
  ⟨h.whole, h.scopes.push, h.globals⟩

/-- No slot is added by closing a scope. -/
theorem slots_popScope (f : Frame) : f.popScope.slots ⊆ f.slots := by
  show (f.scopes.drop 1).flatten ⊆ f.scopes.flatten
  cases f.scopes with
  | nil => exact List.Subset.refl _
  | cons scope outer => exact List.subset_append_right scope outer.flatten

/-- A scope closes on both sides. -/
theorem Holds.pop (h : Holds env f store m) :
    Holds env f.popScope { store with scopes := store.scopes.drop 1 } m :=
  ⟨fun b hb => h.whole b (slots_popScope f hb), h.scopes.pop, h.globals⟩

/-- What a name finds in the store it finds in memory. -/
theorem Holds.cell (h : Holds env f store m) {name : String} {ty : Ty} {old : Option Int}
    (hcell : (cells env.globals).cell store (.named name) = some (ty, old)) :
    ∃ place, env.locate f name = .ok (place, ty) ∧ ty.isInteger = true
      ∧ ∀ n, old = some n → InRange ty n ∧ m.loadPlace (wordOf ty) place = n := by
  have hcell : ((store.find? name).orElse fun _ => (env.globals.lookup name).bind fun ty =>
      if ty.isInteger then some (ty, some (store.globals name)) else none)
        = some (ty, old) := hcell
  have hfind := h.find name
  unfold Env.locate
  cases hslot : f.lookup? name with
  | some slot =>
      rw [hslot] at hfind
      generalize store.find? name = found at hfind hcell
      cases hfind with
      | some hbound =>
          cases hcell
          obtain ⟨rfl, hholds⟩ := hbound
          exact ⟨_, rfl, h.whole _ (Frame.lookup?_mem hslot), hholds⟩
  | none =>
      rw [hslot] at hfind
      generalize store.find? name = found at hfind hcell
      cases hfind
      obtain ⟨ty', hty', hcell⟩ := Option.bind_eq_some_iff.1 hcell
      split at hcell
      · rename_i hinteger
        cases hcell
        refine ⟨_, by rw [hty'], hinteger, ?_⟩
        rintro n ⟨⟩
        exact h.globals name ty hty' hinteger
      · cases hcell

/-- The names in sight see in memory what they see in the store. -/
theorem Holds.sees (h : Holds env f store m) :
    Sees (cells env.globals) refCells store (view env f m) := by
  intro r ty old hcell
  cases r with
  | member object field => cases hcell
  | named name =>
      obtain ⟨place, hplace, hty, hholds⟩ := h.cell hcell
      exact ⟨_, cell_view (r := .named name) hplace hty m, fun n hn => (hholds n hn).2⟩

/-- Of the truth values in memory those are known that have a value in the
store. -/
theorem Holds.truthful (h : Holds env f store m) :
    Truthful ((cells env.globals).Set store) (view env f m) := by
  rintro r ⟨ty, k, hcell⟩ n hn
  cases r with
  | member object field => cases hcell
  | named name =>
      obtain ⟨place, hplace, hty, hholds⟩ := h.cell hcell
      rw [view_eq (r := .named name) hplace hty] at hn
      cases hn
      obtain ⟨hrange, hload⟩ := hholds k rfl
      rw [hload]
      exact hrange

-- ==================================================== whole expressions

/-- A constant is plain if what it folds to fits. -/
theorem plain_constant {e : Expr} (hconst : e.isConstant = true) (hfits : FoldFits e) :
    Plain env f e := by
  cases e, hconst using constant_cases with
  | number lit => exact hfits lit rfl
  | folded op lhs rhs operandsMatch pos => exact hfits

/-- An expression that can be evaluated over whole numbers is made of
them. -/
theorem plain_of_informed {known set : Ref → Prop} {e : Expr}
    (hfits : ∀ c ∈ constants e, FoldFits c) (h : Informed known set e)
    (hknown : ∀ r, known r → Whole env f r) (hset : ∀ r, set r → Whole env f r) :
    Plain env f e := by
  induction e generalizing set with
  | number lit => exact plain_constant rfl (hfits _ List.mem_cons_self)
  | string lit => exact h.elim
  | ident i => exact hset _ h
  | member object accessor field pos => exact hset _ h
  | binary op lhs rhs constant operandsMatch pos ihl ihr =>
      cases constant with
      | true => exact hfits _ List.mem_cons_self
      | false =>
          obtain ⟨hleft, hright⟩ := List.forall_mem_append.1 hfits
          replace h := h.resolve_left Bool.false_ne_true
          cases op with
          | assign =>
              obtain ⟨⟨r, hr, hk⟩, h⟩ := h
              exact ⟨(plain_ref hr).2 (hknown r hk), ihr hright h hset⟩
          | compound op => exact ⟨ihl hleft h.2.1 hset, ihr hright h.2.2 hset⟩
          | arith op =>
              refine ⟨ihl hleft h.1 hset, ihr hright h.2 fun r hr => ?_⟩
              rcases hr with hr | hr
              · exact hset r hr
              · exact (h.1.stored hr).elim (hknown r) (hset r)
          | compare op =>
              refine ⟨ihl hleft h.1 hset, ihr hright h.2 fun r hr => ?_⟩
              rcases hr with hr | hr
              · exact hset r hr
              · exact (h.1.stored hr).elim (hknown r) (hset r)
  | unary op fixity operand pos ih =>
      cases op with
      | plus => exact ih hfits h hset
      | minus => exact ih hfits h hset
      | not => exact ih hfits h hset
      | incr =>
          obtain ⟨r, hr, hs⟩ := h
          exact (plain_ref (e := operand) hr).2 (hset r hs)
      | decr =>
          obtain ⟨r, hr, hs⟩ := h
          exact (plain_ref (e := operand) hr).2 (hset r hs)

/-- What the store has a cell for is a whole number in memory. -/
theorem Holds.whole_cell (h : Holds env f store m) {r : Ref}
    (hknown : (cells env.globals).Known store r) : Whole env f r := by
  obtain ⟨ty, old, hcell⟩ := hknown
  cases r with
  | member object field => cases hcell
  | named name =>
      obtain ⟨place, hplace, hty, -⟩ := h.cell hcell
      intro place' ty' hplace'
      obtain ⟨-, rfl⟩ := Prod.mk.inj (Except.ok.inj (hplace.symm.trans hplace'))
      exact hty

/-- What the source evaluates is made of whole numbers. -/
theorem Holds.plain (h : Holds env f store m) {e : Expr} {v : Value}
    (hfits : ∀ c ∈ constants e, FoldFits c)
    (heval : Source.eval (cells env.globals) true e store = .ok (v, store')) :
    Plain env f e := by
  obtain ⟨ws, htraced⟩ := eval_traced (cells_lawful env.globals) refCells_lawful e h.sees heval
  exact plain_of_informed hfits htraced.informed (fun _ => h.whole_cell)
    fun _ hset => h.whole_cell hset.known

-- ============================================================= the slots

/-- What lies in the bytes of variables decides what is held. -/
theorem Holds.memory (h : Holds env f store m)
    (hrbp : m'.regs .rbp = m.regs .rbp)
    (hmem : ∀ c, VariableByte env f m c → m'.memory c = m.memory c) : Holds env f store m' := by
  refine ⟨h.whole, h.scopes.congr ?_, fun name ty hname hty => ?_⟩
  · rintro v b hb ⟨htype, hholds⟩
    refine ⟨htype, fun n hn => ?_⟩
    obtain ⟨hrange, hload⟩ := hholds n hn
    have hinteger : v.1.isInteger = true := htype ▸ h.whole b hb
    refine ⟨hrange, (loadPlace_bytes hrbp ?_).trans hload⟩
    rw [bytes_wordOf hinteger]
    rintro c ⟨i, hi, rfl⟩
    refine hmem _ (Or.inl ⟨b, hb, v.1.size, v.1.size, i, ?_, hi, rfl⟩)
    rw [htype]
    exact Layout.measure_whole hinteger
  · obtain ⟨hrange, hload⟩ := h.globals name ty hname hty
    refine ⟨hrange, (loadPlace_bytes hrbp ?_).trans hload⟩
    rintro c ⟨i, -, rfl⟩
    exact hmem _ (Or.inr ⟨name, 0 + i, rfl⟩)

theorem size_pos {ty : Ty} (h : ty.isInteger = true) : 0 < ty.size := by
  cases ty <;> first | decide | cases h

/-- Where a name is found. -/
theorem locate_found {name : String} {base : Place} {ty : Ty}
    (h : env.locate f name = .ok (base, ty)) :
    (∃ slot, f.lookup? name = some slot ∧ base = .stack slot.offset ∧ ty = slot.ty)
      ∨ (f.lookup? name = none ∧ env.globals.lookup name = some ty ∧ base = .static name 0) := by
  unfold Env.locate at h
  split at h
  · rename_i slot hslot
    cases h
    exact Or.inl ⟨slot, hslot, rfl, rfl⟩
  · rename_i hslot
    split at h
    · rename_i ty' hglobal
      cases h
      exact Or.inr ⟨hslot, hglobal, rfl⟩
    · cases h

/-- A global that can be referred to is not hidden. -/
theorem refPlace_static {r : Ref} {s : String} {k : Nat} {ty : Ty}
    (h : refPlace env f r = .ok (.static s k, ty)) (hty : ty.isInteger = true) :
    f.lookup? s = none := by
  obtain ⟨base, whole, offset, size, align, hbase, hshift, -, -⟩ := refPlace_root h hty
  rcases locate_found hbase with ⟨slot, -, rfl, -⟩ | ⟨hnone, -, rfl⟩
  · rcases shift_ok hshift with ⟨b, -, -, hplace⟩ | ⟨_, _, hstatic, -⟩
    · cases hplace
    · cases hstatic
  · rcases shift_ok hshift with ⟨b, hstack, -, -⟩ | ⟨_, _, hstatic, hplace⟩
    · cases hstack
    · cases hstatic
      cases hplace
      exact hnone

section Slots

variable (hwhole : ∀ b ∈ f.slots, b.2.ty.isInteger = true)

include hwhole

/-- A whole number on the stack that can be referred to is a variable. -/
theorem refPlace_stack {r : Ref} {k : Nat} {ty : Ty}
    (h : refPlace env f r = .ok (.stack k, ty)) (hty : ty.isInteger = true) :
    ∃ name slot, f.lookup? name = some slot ∧ k = slot.offset ∧ ty = slot.ty := by
  cases r with
  | named name =>
      rcases locate_found h with ⟨slot, hslot, hplace, rfl⟩ | ⟨-, -, hstatic⟩
      · cases hplace
        exact ⟨name, slot, hslot, rfl, rfl⟩
      · cases hstatic
  | member object field =>
      -- a variable is no aggregate, and a global is not on the stack
      unfold refPlace Env.locateMember at h
      obtain ⟨⟨base, whole⟩, hbase, h⟩ := except_bind_ok.1 h
      rcases locate_found hbase with ⟨slot, hslot, -, rfl⟩ | ⟨-, -, rfl⟩
      · have hinteger := hwhole _ (Frame.lookup?_mem hslot)
        dsimp only at h
        cases hslotTy : slot.ty <;> rw [hslotTy] at h hinteger <;>
          first | cases h | cases hinteger
      · dsimp only at h
        cases whole <;> try cases h
        obtain ⟨layout, -, h⟩ := except_bind_ok.1 h
        split at h
        · obtain ⟨shifted, hshift, hpure⟩ := except_bind_ok.1 h
          cases hshift
          cases hpure
        · cases h

variable (hf : f.Sound env.program)

include hf

/-- A slot has all its bytes below the frame pointer. -/
theorem slot_valid {b : String × StackSlot} (hb : b ∈ f.slots) :
    PlaceValid (.stack b.2.offset) b.2.ty.size := by
  obtain ⟨size, align, hsize, hin, hdepth⟩ := hf.sized b hb
  have hmeasure : env.program.sizeAlign b.2.ty = .ok (b.2.ty.size, b.2.ty.size) :=
    Layout.measure_whole (hwhole b hb)
  rw [hmeasure] at hsize
  cases hsize
  have hlt := hf.depth
  exact ⟨hin, by omega⟩

/-- Two slots have no byte in common. -/
theorem slots_apart {a b : String × StackSlot} (ha : a ∈ f.slots) (hb : b ∈ f.slots)
    (hne : a ≠ b) :
    PlacesApart (.stack a.2.offset) a.2.ty.size (.stack b.2.offset) b.2.ty.size := by
  have hmeasure : ∀ {c : String × StackSlot}, c ∈ f.slots →
      env.program.sizeAlign c.2.ty = .ok (c.2.ty.size, c.2.ty.size) :=
    fun hc => Layout.measure_whole (hwhole _ hc)
  rcases hf.bindings_apart ha hb hne with ⟨size, align, hsize, hle⟩ | ⟨size, align, hsize, hle⟩
  · rw [hmeasure ha] at hsize
    cases hsize
    exact Or.inr hle
  · rw [hmeasure hb] at hsize
    cases hsize
    exact Or.inl hle

/-- No two slots begin at the same place. -/
theorem offsets_nodup : (f.scopes.flatten.map fun b => b.2.offset).Nodup := by
  refine List.pairwise_map.2 (hf.apart.imp_of_mem ?_)
  rintro newer older hnewer - ⟨size, align, hsize, hle⟩ heq
  have hmeasure : env.program.sizeAlign newer.2.ty = .ok (newer.2.ty.size, newer.2.ty.size) :=
    Layout.measure_whole (hwhole newer hnewer)
  rw [hmeasure] at hsize
  cases hsize
  have hpos := size_pos (hwhole newer hnewer)
  omega

end Slots

-- ============================================================== writing

/-- A slot apart from a place is as before behind a store to the place. -/
theorem Bound.apart {v : Ty × Option Int} {slot : StackSlot} (h : Bound m v slot)
    (hv : v.1.isInteger = true) {w : Width} {place : Place} {n : Int}
    (happart : ∀ c, Machine.Within (m.addressOf (.stack slot.offset)) v.1.size c →
      ¬ Machine.Within (m.addressOf place) w.bytes c) :
    Bound (m.storePlace w place n) v slot := by
  refine ⟨h.type, fun k hk => ?_⟩
  obtain ⟨hrange, hload⟩ := h.holds k hk
  refine ⟨hrange, (loadPlace_storePlace_apart ?_).trans hload⟩
  rw [bytes_wordOf hv]
  exact happart

/-- Writing to what a name finds writes to the variable or global. -/
theorem Holds.write (hf : f.Sound env.program) (h : Holds env f store m) {name : String}
    {place : Place} {ty : Ty} (hplace : env.locate f name = .ok (place, ty))
    (hty : ty.isInteger = true) {n : Int} (hn : InRange ty n) :
    Holds env f (store.set name n) (m.storePlace (wordOf ty) place n) := by
  have hfind := h.find name
  have hload : (m.storePlace (wordOf ty) place n).loadPlace (wordOf ty) place = n := by
    rw [loadPlace_storePlace, bytes_wordOf hty, hn.wrap hty]
  unfold Store.set
  rcases locate_found hplace with ⟨slot, hslot, rfl, rfl⟩ | ⟨hslot, hglobal, rfl⟩
  · have hmem := Frame.lookup?_mem hslot
    rw [hslot] at hfind
    generalize hfound : store.find? name = found at hfind
    cases hfind with
    | @some v _ hbound =>
        refine ⟨h.whole, ?_, fun name' ty' hname' hty' => ?_⟩
        · refine ScopesAgree.set h.scopes (offsets_nodup h.whole hf) hfound hslot ?_ ?_
          · rintro ⟨htype, -⟩
            refine ⟨htype, ?_⟩
            rintro k ⟨⟩
            rw [← htype]
            exact ⟨hn, hload⟩
          · intro v' b hb hkey hbound'
            have hinteger : v'.1.isInteger = true := hbound'.type ▸ h.whole b hb
            refine hbound'.apart hinteger fun c => ?_
            rw [bytes_wordOf hty, ← hbound'.type]
            refine addresses_apart (slot_valid h.whole hf hb) (slot_valid h.whole hf hmem)
              (slots_apart h.whole hf hb hmem ?_)
            rintro rfl
            exact hkey rfl
        · obtain ⟨hrange, hload'⟩ := h.globals name' ty' hname' hty'
          refine ⟨hrange, (loadPlace_storePlace_apart ?_).trans hload'⟩
          rintro c ⟨i, -, rfl⟩ ⟨j, -, heq⟩
          exact absurd heq nofun
  · rw [hslot] at hfind
    generalize hfound : store.find? name = found at hfind
    cases hfind
    refine ⟨h.whole, h.scopes.congr ?_, fun name' ty' hname' hty' => ?_⟩
    · intro v b hb hbound
      have hinteger : v.1.isInteger = true := hbound.type ▸ h.whole b hb
      refine hbound.apart hinteger ?_
      rintro c ⟨i, -, rfl⟩ ⟨j, -, heq⟩
      exact absurd heq nofun
    · show InRange ty' (if name' = name then n else store.globals name') ∧ _
        = if name' = name then n else store.globals name'
      by_cases hname : name' = name
      · subst hname
        rw [hglobal] at hname'
        cases hname'
        rw [if_pos rfl]
        exact ⟨hn, hload⟩
      · rw [if_neg hname]
        obtain ⟨hrange, hload'⟩ := h.globals name' ty' hname' hty'
        refine ⟨hrange, (loadPlace_storePlace_apart ?_).trans hload'⟩
        rintro c ⟨i, -, rfl⟩ ⟨j, -, heq⟩
        exact hname (Address.static.inj heq).1

/-- Writes in order. -/
theorem Holds.writes (hf : f.Sound env.program) (h : Holds env f store m) {ws : Writes}
    (hranges : ∀ w ∈ ws, ∃ ty old,
      (cells env.globals).cell store w.1 = some (ty, old) ∧ InRange ty w.2) :
    ∃ m', Holds env f ((cells env.globals).writes store ws) m'
      ∧ m'.regs .rbp = m.regs .rbp ∧ view env f m' = refCells.writes (view env f m) ws
      ∧ ∀ c, (∀ r, ¬ ByteOf env f m r c) → m'.memory c = m.memory c := by
  induction ws generalizing store m with
  | nil => exact ⟨m, h, rfl, rfl, fun _ _ => rfl⟩
  | cons w ws ih =>
      obtain ⟨r, n⟩ := w
      obtain ⟨ty, old, hcell, hn⟩ := hranges (r, n) List.mem_cons_self
      cases r with
      | member object field => cases hcell
      | named name =>
          obtain ⟨place, hplace, hty, -⟩ := h.cell hcell
          have hranges' : ∀ w ∈ ws, ∃ ty old, (cells env.globals).cell
              ((cells env.globals).write store (.named name) n) w.1 = some (ty, old)
                ∧ InRange ty w.2 := by
            intro w hw
            obtain ⟨ty', old', hcell', hn'⟩ := hranges w (List.mem_cons_of_mem _ hw)
            have htype := (cells_lawful env.globals).type_writes [(.named name, n)] store w.1
            rw [hcell'] at htype
            obtain ⟨⟨_, old''⟩, hcell'', heq⟩ := Option.map_eq_some_iff.1 htype
            cases heq
            exact ⟨_, old'', hcell'', hn'⟩
          obtain ⟨m', hholds, hrbp, hview, hmem⟩ := ih (h.write hf hplace hty hn) hranges'
          refine ⟨m', hholds, hrbp, ?_, fun c hc => ?_⟩
          · rw [hview, view_storePlace hf (r := .named name) hplace hty (hn.wrap hty)]
            rfl
          · refine (hmem c fun r hbyte => hc r (hbyte.congr rfl)).trans (store_outside ?_)
            intro hin
            rw [bytes_wordOf hty] at hin
            exact hc (.named name) ⟨place, ty, hplace, hty, hin⟩

/-- What is held is known from the view and from the bytes that no name
finds. -/
theorem Holds.congr (hf : f.Sound env.program) (h : Holds env f store m)
    (hrbp : m'.regs .rbp = m.regs .rbp) (hview : view env f m' = view env f m)
    (hmem : ∀ c, VariableByte env f m c → (∀ r, ¬ ByteOf env f m r c) →
      m'.memory c = m.memory c) : Holds env f store m' := by
  refine ⟨h.whole, h.scopes.congr ?_, fun name ty hname hty => ?_⟩
  · rintro v b hb ⟨htype, hholds⟩
    refine ⟨htype, fun n hn => ?_⟩
    obtain ⟨hrange, hload⟩ := hholds n hn
    refine ⟨hrange, Eq.trans ?_ hload⟩
    have hinteger := h.whole b hb
    have hsame : m'.loadPlace (wordOf b.2.ty) (.stack b.2.offset)
        = m.loadPlace (wordOf b.2.ty) (.stack b.2.offset) := by
      by_cases hseen : f.lookup? b.1 = some b.2
      · have hplace : refPlace env f (.named b.1) = .ok (.stack b.2.offset, b.2.ty) := by
          show env.locate f b.1 = _
          unfold Env.locate
          rw [hseen]
        have hb' := congrFun hview (.named b.1)
        rw [view_eq hplace hinteger, view_eq hplace hinteger] at hb'
        exact congrArg Prod.snd (Option.some.inj hb')
      · refine loadPlace_bytes hrbp fun c hc => hmem c ?_ fun r hr => ?_
        · rw [bytes_wordOf hinteger] at hc
          obtain ⟨i, hi, rfl⟩ := hc
          exact Or.inl ⟨b, hb, _, _, i, Layout.measure_whole hinteger, hi, rfl⟩
        · -- a byte of a slot that names find is no byte of a hidden one
          rw [bytes_wordOf hinteger] at hc
          obtain ⟨place, ty, hplace, hty, hin⟩ := hr
          cases place with
          | static name offset =>
              obtain ⟨i, -, rfl⟩ := hc
              obtain ⟨j, -, heq⟩ := hin
              exact absurd heq nofun
          | stack k =>
              obtain ⟨name, slot, hslot, rfl, rfl⟩ := refPlace_stack h.whole hplace hty
              have hmem' := Frame.lookup?_mem hslot
              refine addresses_apart (slot_valid h.whole hf hb) (slot_valid h.whole hf hmem')
                (slots_apart h.whole hf hb hmem' ?_) hc hin
              rintro rfl
              exact hseen hslot
    rwa [htype] at hsame
  · obtain ⟨hrange, hload⟩ := h.globals name ty hname hty
    refine ⟨hrange, Eq.trans ?_ hload⟩
    cases hslot : f.lookup? name with
    | none =>
        have hplace : refPlace env f (.named name) = .ok (.static name 0, ty) := by
          show env.locate f name = _
          unfold Env.locate
          rw [hslot]
          dsimp only
          rw [hname]
        have hb := congrFun hview (.named name)
        rw [view_eq hplace hty, view_eq hplace hty] at hb
        exact congrArg Prod.snd (Option.some.inj hb)
    | some slot =>
        refine loadPlace_bytes hrbp fun c hc => hmem c ?_ fun r hr => ?_
        · obtain ⟨i, -, rfl⟩ := hc
          exact Or.inr ⟨name, _, rfl⟩
        · obtain ⟨place, ty', hplace, hty', hin⟩ := hr
          obtain ⟨i, -, rfl⟩ := hc
          obtain ⟨j, -, heq⟩ := hin
          cases place with
          | stack k => exact absurd heq nofun
          | static s k =>
              have hseen := refPlace_static hplace hty'
              rw [← (Address.static.inj heq).1, hslot] at hseen
              cases hseen

/-- What room for pushes makes sure of: none of them touches a variable. -/
theorem Ready.not_below {k : Nat} (h : Ready env f k m) {c : Address}
    (hc : VariableByte env f m c) : k ≠ 0 → ¬ Below m c :=
  fun hk => hc.not_below (h hk).1

/-- Where the source evaluates an expression, code that does the same with the
names in sight runs to its end, with the variables as the source leaves
them. -/
theorem Holds.exec (hf : f.Sound env.program) (h : Holds env f store m) {α : Type} {e : Expr}
    {code : Code} {v : Value} {g : Value → α} {Q : α → Machine → Prop}
    (heval : Source.eval (cells env.globals) true e store = .ok (v, store'))
    (hready : Ready env f (pushes code) m)
    (hcode : ∀ set m, Reads set e → Truthful set (view env f m) → Ready env f (pushes code) m →
      Simulates env f (assigned e) code m (g <$> Source.eval refCells true e) Q) :
    ∃ m', Machine.Machine.exec code m = .ok m' ∧ Holds env f store' m'
      ∧ m'.regs .rsp = m.regs .rsp ∧ m'.regs .rbp = m.regs .rbp ∧ Q (g v) m' := by
  obtain ⟨ws, htraced⟩ := eval_traced (cells_lawful env.globals) refCells_lawful e h.sees heval
  have hsource : (g <$> Source.eval refCells true e) (view env f m)
      = .ok (g v, refCells.writes (view env f m) ws) :=
    map_ok.2 ⟨v, htraced.follows, rfl⟩
  have hsim := hcode _ m htraced.informed.reads h.truthful hready
  unfold Simulates at hsim
  split at hsim
  · rename_i m' hexec
    obtain ⟨a, ha, hkept, hq⟩ := hsim
    rw [hsource] at ha
    obtain ⟨rfl, hview⟩ := Prod.mk.inj (Except.ok.inj ha)
    obtain ⟨m₁, hholds, hrbp, hview₁, hmem⟩ := h.writes hf htraced.ranges
    refine ⟨m', hexec, ?_, hkept.rsp, hkept.rbp, hq⟩
    rw [htraced.state]
    refine hholds.congr hf (hkept.rbp.trans hrbp.symm) (hview.symm.trans hview₁.symm) ?_
    intro c hvar hbytes
    have hbytes' : ∀ r, ¬ ByteOf env f m r c := fun r hbyte => hbytes r (hbyte.congr hrbp)
    have hvar' : VariableByte env f m c := by
      unfold VariableByte at hvar ⊢
      rwa [hrbp] at hvar
    rw [hmem c hbytes', hkept.memory c (hready.not_below hvar') fun r _ => hbytes' r]
  · obtain ⟨-, hdivide⟩ := hsim
    rw [hsource] at hdivide
    cases hdivide

-- ========================================================= new variables

/-- A slot that is handed out has no byte of a variable. -/
theorem fresh_apart (hf : f.Sound env.program)
    {size align offset : Nat} (halloc : f.alloc? size align = some (offset, g)) {c : Address}
    (hc : VariableByte env f m c) : ¬ Machine.Within (m.addressOf (.stack offset)) size c := by
  obtain ⟨-, -, hroom, hlt⟩ := Frame.alloc?_some halloc
  intro hin
  rcases hc with ⟨b, hb, size', align', i, hsize', hi, rfl⟩ | ⟨name, offset', rfl⟩
  · obtain ⟨_, _, hsize, hfits, hdepth⟩ := hf.sized b hb
    rw [hsize'] at hsize
    cases hsize
    refine addresses_apart (p := .stack offset) (q := .stack b.2.offset) (k := size')
      ⟨by omega, hlt⟩ ⟨hfits, by omega⟩ (Or.inr (by omega)) hin ⟨i, hi, rfl⟩
  · obtain ⟨i, -, heq⟩ := hin
    exact absurd heq nofun

/-- Storing in a slot that is handed out leaves what is held. -/
theorem Holds.fresh (hf : f.Sound env.program) (h : Holds env f store m) {w : Width} {n : Int}
    {align offset : Nat} (halloc : f.alloc? w.bytes align = some (offset, g))
    (hstored : Stored w (.stack offset) n m m') : Holds env f store m' := by
  refine h.memory hstored.rbp fun c hc => ?_
  rw [hstored.memory]
  exact store_outside (fresh_apart hf halloc hc)

/-- A variable comes into sight with what is in its slot. -/
theorem Holds.bind (h : Holds env f store m) {ty : Ty} {name : String} {value : Option Int}
    {offset : Nat} (hty : ty.isInteger = true)
    (hvalue : ∀ n, value = some n → InRange ty n ∧ m.loadPlace (wordOf ty) (.stack offset) = n) :
    Holds env (f.bind name ⟨offset, ty⟩) (store.bind name ty value) m := by
  obtain ⟨scopes, globals⟩ := store
  obtain ⟨slots, depth, pushed, everPushed, nextLabel⟩ := f
  obtain ⟨hwhole, hscopes, hglobals⟩ := h
  cases hscopes with
  | nil => exact ⟨hwhole, .nil, hglobals⟩
  | cons hscope houter =>
      refine ⟨?_, .cons (hscope.bind name ⟨rfl, hvalue⟩) houter, hglobals⟩
      intro b hb
      rcases List.mem_cons.1 hb with rfl | hb
      · exact hty
      · exact hwhole b hb

-- ================================================================= room

/-- Whether so many pushes have room below a frame of so many bytes. -/
def Spacious (depth pushes : Nat) (m : Machine) : Prop :=
  pushes ≠ 0 → (m.regs .rsp).toNat + depth ≤ (m.regs .rbp).toNat
    ∧ 8 * pushes ≤ (m.regs .rsp).toNat

theorem Spacious.congr {depth k : Nat} (h : Spacious depth k m)
    (hrsp : m'.regs .rsp = m.regs .rsp) (hrbp : m'.regs .rbp = m.regs .rbp) :
    Spacious depth k m' := by
  unfold Spacious
  rw [hrsp, hrbp]
  exact h

/-- Then a frame that is no deeper has room for no more pushes. -/
theorem Spacious.ready {depth j k : Nat} (h : Spacious depth k m) (hf : f.Sound env.program)
    (hdepth : f.depth ≤ depth) (hle : j ≤ k) : Ready env f j m := by
  intro hj
  obtain ⟨hframe, hpushes⟩ := h (by omega)
  refine ⟨fun b hb size align hsize i hi => ?_, by omega⟩
  obtain ⟨_, _, hsize', hfits, hin⟩ := hf.sized b hb
  rw [hsize] at hsize'
  cases hsize'
  have hlt := (m.regs .rbp).isLt
  rw [BitVec.toNat_add, BitVec.toNat_sub, BitVec.toNat_ofNat, BitVec.toNat_ofNat]
  omega

end MiniC.Codegen
