/-
Variables of the source and the slots they are lowered to.

# Agreement

Scope by scope a name in sight of the source has a slot in sight of lowering, of
the type that represents its own, and the slot holds the variable's value, if it
has one; a global has the slot of its own name. That is `Agrees`. A variable
that is shadowed is part of it, in its scope further out, and keeps its slot,
since slots have names of their own.

# Reading and storing

A name is looked up in the same order on both sides, so it stands for a variable
and its slot or for a global and the slot of its name (`storage_cases`). What
the source reads the slot holds (`load_variable`), and storing into the slot is
storing into the variable (`put_variable`), because no other name in sight has
the slot. Scopes open and close on both sides together (`Agrees.push`,
`Agrees.pop`).
Consumed by the proofs that expressions and statements are lowered with their
meaning.
-/
import Mathlib.Data.List.Nodup
import MiniC.Proofs.Lowering.Growth
import MiniC.Proofs.Lowering.Values
import MiniC.Proofs.Source.Scopes

namespace MiniC.Lowering

open IR Source Steps

-- ============================================================= agreement

/-- Whether a slot holds a variable; without a value it is empty. -/
structure Bound (m : Memory) (v : MiniC.Ty × Option Int) (slot : Slot) : Prop where
  represents : Represents v.1 slot.ty
  inRange : ∀ n, v.2 = some n → InRange v.1 n
  holds : m.locals slot.name = v.2

/-- Whether names of globals stand for slots of the same names. -/
def GlobalSlots (types : List (String × MiniC.Ty)) (globals : List (String × Slot)) : Prop :=
  ∀ name slot, globals.lookup name = some slot →
    slot.name = name ∧ slot.isGlobal = true
      ∧ ∃ ty, types.lookup name = some ty ∧ IR.Ty.ofSource? ty = some slot.ty

/-- Whether the store of the source is held by the memory of a run. -/
structure Agrees (types : List (String × MiniC.Ty)) (scopes : List (List (String × Slot)))
    (store : Store) (m : Memory) : Prop where
  scopes : ScopesAgree (Bound m) store.scopes scopes
  globals : m.globals = store.globals
  inRange : ∀ name ty, types.lookup name = some ty → ty.isInteger = true →
    InRange ty (store.globals name)

variable {types : List (String × MiniC.Ty)} {globals : List (String × Slot)} {s : State}
  {store : Store} {m m' : Memory}

/-- What holds a variable does so as long as the slot is unchanged. -/
theorem Bound.congr {v : MiniC.Ty × Option Int} {slot : Slot} (h : Bound m v slot)
    (hsame : m'.locals slot.name = m.locals slot.name) : Bound m' v slot :=
  ⟨h.represents, h.inRange, hsame.trans h.holds⟩

/-- Only the slots in sight matter. -/
theorem Agrees.congr (h : Agrees types s.scopes store m)
    (hlocals : ∀ slot ∈ s.slots, m'.locals slot.name = m.locals slot.name)
    (hglobals : m'.globals = m.globals) : Agrees types s.scopes store m' := by
  refine ⟨ScopesAgree.congr h.scopes fun v b hb hbound => ?_, hglobals.trans h.globals,
    h.inRange⟩
  exact hbound.congr (hlocals b.2 (List.mem_map_of_mem hb))

/-- What is held stays held where no variable is changed. -/
theorem Agrees.same (h : Agrees types s.scopes store m) (hsame : SameVariables m m') :
    Agrees types s.scopes store m' :=
  h.congr (fun slot _ => by rw [hsame.locals]) hsame.globals

-- ================================================================= names

/-- What a name stands for on both sides: a variable with its slot, or a
global with the slot of its name. -/
theorem storage_cases (hagrees : Agrees types s.scopes store m)
    (hglobals : GlobalSlots types globals) {name : String} {slot : Slot} {ty : MiniC.Ty}
    {value : Option Int} (hslot : ((s.scopes.findSome? fun scope => scope.lookup name).orElse
      fun _ => globals.lookup name) = some slot)
    (hcell : (cells types).cell store (.named name) = some (ty, value)) :
    (store.find? name = some (ty, value)
        ∧ (s.scopes.findSome? fun scope => scope.lookup name) = some slot
        ∧ Bound m (ty, value) slot)
      ∨ (store.find? name = none ∧ types.lookup name = some ty ∧ Represents ty slot.ty
        ∧ slot.isGlobal = true ∧ slot.name = name ∧ value = some (store.globals name)) := by
  have hrel : Option.Rel (Bound m) (store.find? name) _ := ScopesAgree.find hagrees.scopes name
  have hcell : ((store.find? name).orElse fun _ => (types.lookup name).bind fun ty =>
      if ty.isInteger then some (ty, some (store.globals name)) else none)
        = some (ty, value) := hcell
  generalize store.find? name = found at hrel hcell ⊢
  generalize (s.scopes.findSome? fun scope => scope.lookup name) = slot? at hrel hslot ⊢
  cases hrel with
  | some hbound =>
      cases hcell
      cases hslot
      exact Or.inl ⟨rfl, rfl, hbound⟩
  | none =>
      obtain ⟨hname, hglobal, ty', hty', hrepr⟩ := hglobals name slot hslot
      have hcell : (types.lookup name).bind (fun ty =>
        if ty.isInteger then some (ty, some (store.globals name)) else none)
          = some (ty, value) := hcell
      rw [hty'] at hcell
      have hcell : (if ty'.isInteger then some (ty', some (store.globals name)) else none)
          = some (ty, value) := hcell
      split at hcell
      · rename_i hwhole
        cases hcell
        exact Or.inr ⟨rfl, hty', .of_ofSource? hwhole hrepr, hglobal, hname, rfl⟩
      · cases hcell

/-- A slot holds what the source reads from the variable. -/
theorem load_variable (hlaid : Laid s) (hagrees : Agrees types s.scopes store m)
    (hglobals : GlobalSlots types globals) {name : String} {slot : Slot} {ty : MiniC.Ty}
    {value : Option Int} (hslot : ((s.scopes.findSome? fun scope => scope.lookup name).orElse
      fun _ => globals.lookup name) = some slot)
    (hcell : (cells types).cell store (.named name) = some (ty, value)) :
    Represents ty slot.ty ∧ (∀ n, value = some n → InRange ty n)
      ∧ m.load slot = Memory.found value := by
  unfold Memory.load
  rcases storage_cases hagrees hglobals hslot hcell with
    ⟨-, hfind, hbound⟩ | ⟨-, hty, hrepr, hglobal, hname, rfl⟩
  · refine ⟨hbound.represents, hbound.inRange, ?_⟩
    rw [hlaid.isLocal slot (mem_slots_of_find hfind), if_neg Bool.false_ne_true, hbound.holds]
  · refine ⟨hrepr, ?_, ?_⟩
    · intro n hn
      cases hn
      exact hagrees.inRange name ty hty hrepr.whole
    · rw [if_pos hglobal, hname, hagrees.globals]
      rfl

-- ============================================================== changes

/-- Slots in sight have different names. -/
theorem Laid.names_nodup (h : Laid s) : (s.scopes.flatten.map (·.2.name)).Nodup := by
  have hnodup := h.nodup
  unfold State.slots at hnodup
  rwa [List.map_map] at hnodup

/-- Storing into a slot is storing into the variable. -/
theorem put_variable (hlaid : Laid s) (hagrees : Agrees types s.scopes store m)
    (hglobals : GlobalSlots types globals) {name : String} {slot : Slot} {ty : MiniC.Ty}
    {old : Option Int} (hslot : ((s.scopes.findSome? fun scope => scope.lookup name).orElse
      fun _ => globals.lookup name) = some slot)
    (hcell : (cells types).cell store (.named name) = some (ty, old)) :
    Represents ty slot.ty ∧ ∀ n, InRange ty n →
      Agrees types s.scopes ((cells types).write store (.named name) n) (m.put slot n) := by
  rcases storage_cases hagrees hglobals hslot hcell with
    ⟨hvariable, hfind, hbound⟩ | ⟨hvariable, hty, hrepr, hglobal, hname, -⟩
  · refine ⟨hbound.represents, fun n hn => ?_⟩
    have hwrite : (cells types).write store (.named name) n
        = { store with scopes := Store.setScopes name n store.scopes } := by
      show store.set name n = _
      unfold Store.set
      rw [hvariable, Option.isSome_some, if_pos rfl]
    have hput : m.put slot n
        = { m with locals := fun x => if x = slot.name then some n else m.locals x } := by
      unfold Memory.put
      rw [hlaid.isLocal slot (mem_slots_of_find hfind), if_neg Bool.false_ne_true]
    rw [hwrite, hput]
    refine ⟨?_, hagrees.globals, hagrees.inRange⟩
    exact ScopesAgree.set hagrees.scopes hlaid.names_nodup hvariable hfind
      (fun hbound => ⟨hbound.represents, fun k hk => Option.some.inj hk ▸ hn, if_pos rfl⟩)
      fun v b _ hapart hbound => hbound.congr (if_neg hapart)
  · refine ⟨hrepr, fun n hn => ?_⟩
    have hwrite : (cells types).write store (.named name) n
        = { store with globals := fun x => if x = name then n else store.globals x } := by
      show store.set name n = _
      unfold Store.set
      rw [hvariable, Option.isSome_none, if_neg Bool.false_ne_true]
    have hput : m.put slot n
        = { m with globals := fun x => if x = name then n else m.globals x } := by
      unfold Memory.put
      rw [if_pos hglobal, hname]
    rw [hwrite, hput]
    refine ⟨ScopesAgree.congr hagrees.scopes fun v b _ hbound => hbound.congr rfl, ?_, ?_⟩
    · show (fun x => if x = name then n else m.globals x) = _
      rw [hagrees.globals]
    · intro x ty' hty' hwhole
      show InRange ty' (if x = name then n else store.globals x)
      split
      · rename_i hx
        rw [hx, hty] at hty'
        cases hty'
        exact hn
      · exact hagrees.inRange x ty' hty' hwhole

/-- A variable comes into sight on both sides. -/
theorem Agrees.bind (h : Agrees types s.scopes store m) (name : String) {ty : MiniC.Ty}
    {value : Option Int} {slot : Slot} (hbound : Bound m (ty, value) slot) :
    Agrees types (s.bind name slot).scopes (store.bind name ty value) m := by
  have hscopes := h.scopes
  unfold Store.bind State.bind
  generalize hleft : store.scopes = left at hscopes ⊢
  generalize hright : s.scopes = right at hscopes ⊢
  cases hscopes with
  | nil =>
      refine ⟨?_, h.globals, h.inRange⟩
      rw [hleft, hright]
      exact .nil
  | cons hscope houter =>
      exact ⟨.cons (hscope.bind name hbound) houter, h.globals, h.inRange⟩

/-- A scope opens on both sides. -/
theorem Agrees.push {scopes : List (List (String × Slot))} (h : Agrees types scopes store m) :
    Agrees types ([] :: scopes) { store with scopes := [] :: store.scopes } m :=
  ⟨ScopesAgree.push h.scopes, h.globals, h.inRange⟩

/-- A scope closes on both sides. -/
theorem Agrees.pop {scopes : List (List (String × Slot))} (h : Agrees types scopes store m) :
    Agrees types (scopes.drop 1) { store with scopes := store.scopes.drop 1 } m :=
  ⟨ScopesAgree.pop h.scopes, h.globals, h.inRange⟩

end MiniC.Lowering
