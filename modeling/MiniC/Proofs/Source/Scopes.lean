/-
Scopes of variables beside scopes of what stands for them: slots of a stack
frame, or named slots of lowered code.

# Agreement

Scope by scope the same names are bound, and what a name is bound to on one side
is related to what it is bound to on the other (`ScopesAgree`). The relation is
left open: for code generation it says that a slot holds the variable's value in
memory, for lowering that the memory of a run does.

# What keeps it

Finding, binding, opening and closing scopes keep this, and so does a new value
of a variable, if nothing but the slot that the variable's name finds has
changed (`ScopesAgree.set`). For that the name of a shadowed variable has to
find another slot than the one in front of it, which both sides see to in their
own way: offsets differ in one, names in the other.
Consumed by the proofs about both back ends.
-/
import Mathlib.Data.List.Forall2
import Mathlib.Data.List.Nodup
import MiniC.Proofs.Source.Exec
import MiniC.Proofs.Source.Sight

namespace MiniC.Source

-- ================================================================ types

/-- The names and types of a store's variables. -/
def sightOf (store : Store) : Sight := store.scopes.map fun scope => scope.map fun b => (b.1, b.2.1)

/-- A name in sight is that of a variable. -/
theorem find?_sightOf (store : Store) (name : String) :
    (sightOf store).find? name = (store.find? name).map (·.1) :=
  findSome?_view Prod.fst store.scopes name

/-- A new value is of the old type. -/
theorem types_setIn (name : String) (n : Int) (scope : Scope) :
    (Store.setIn name n scope).map (fun b => (b.1, b.2.1)) = scope.map fun b => (b.1, b.2.1) := by
  induction scope with
  | nil => rfl
  | cons b rest ih =>
      unfold Store.setIn
      split
      · rfl
      · rw [List.map_cons, List.map_cons, ih]

/-- An assignment changes no type. -/
theorem sightOf_set (store : Store) (name : String) (n : Int) :
    sightOf (store.set name n) = sightOf store := by
  have hscopes : ∀ scopes : List Scope,
      (Store.setScopes name n scopes).map (fun scope => scope.map fun b => (b.1, b.2.1))
        = scopes.map fun scope => scope.map fun b => (b.1, b.2.1) := by
    intro scopes
    induction scopes with
    | nil => rfl
    | cons scope outer ih =>
        unfold Store.setScopes
        split
        · rw [List.map_cons, List.map_cons, types_setIn]
        · rw [List.map_cons, List.map_cons, ih]
  unfold Store.set
  split
  · exact hscopes store.scopes
  · rfl

/-- A variable that is bound is in sight. -/
theorem sightOf_bind (store : Store) (name : String) (ty : Ty) (value : Option Int) :
    sightOf (store.bind name ty value) = (sightOf store).bind name ty := by
  obtain ⟨scopes, values⟩ := store
  cases scopes <;> rfl

-- ============================================================= agreement

section Agreement

variable {α κ : Type} (B : Ty × Option Int → α → Prop) {B' : Ty × Option Int → α → Prop}

/-- Whether the variables of a scope are related to what the same names
stand for. -/
def ScopeAgrees (scope : Scope) (slots : List (String × α)) : Prop :=
  ∀ name, Option.Rel B (scope.lookup name) (slots.lookup name)

/-- Whether they are in each of several scopes. -/
abbrev ScopesAgree (scopes : List Scope) (slots : List (List (String × α))) : Prop :=
  List.Forall₂ (ScopeAgrees B) scopes slots

variable {B} {scope : Scope} {scopes : List Scope} {inner : List (String × α)}
  {slots : List (List (String × α))}

/-- Only what is bound in the scope matters. -/
theorem ScopeAgrees.congr (h : ScopeAgrees B scope inner)
    (hsame : ∀ v, ∀ b ∈ inner, B v b.2 → B' v b.2) : ScopeAgrees B' scope inner := by
  intro name
  have hname := h name
  generalize scope.lookup name = found at hname ⊢
  cases hslot : inner.lookup name with
  | none =>
      rw [hslot] at hname
      cases hname
      exact .none
  | some slot =>
      rw [hslot] at hname
      cases hname with
      | some hbound => exact .some (hsame _ (name, slot) (mem_of_lookup hslot) hbound)

/-- Only what is bound in the scopes matters. -/
theorem ScopesAgree.congr (h : ScopesAgree B scopes slots)
    (hsame : ∀ v, ∀ b ∈ slots.flatten, B v b.2 → B' v b.2) : ScopesAgree B' scopes slots := by
  induction h with
  | nil => exact .nil
  | cons hscope _ ih =>
      rw [List.flatten_cons] at hsame
      exact .cons (hscope.congr fun v b hb => hsame v b (List.mem_append_left _ hb))
        (ih fun v b hb => hsame v b (List.mem_append_right _ hb))

/-- The innermost scope that binds a name is the same on both sides. -/
theorem ScopesAgree.find (h : ScopesAgree B scopes slots) (name : String) :
    Option.Rel B (scopes.findSome? fun scope => scope.lookup name)
      (slots.findSome? fun scope => scope.lookup name) := by
  induction h with
  | nil => exact .none
  | cons hscope _ ih =>
      rw [List.findSome?_cons, List.findSome?_cons]
      have hname := hscope name
      generalize List.lookup name _ = found at hname ⊢
      generalize List.lookup name _ = slot? at hname ⊢
      cases hname with
      | some hbound => exact .some hbound
      | none => exact ih

-- ============================================================== changes

variable {key : α → κ} {name : String} {slot : α} {n : Int}

/-- A new value of a variable in the scope that binds it. -/
theorem ScopeAgrees.setIn (h : ScopeAgrees B scope inner)
    (hnodup : (inner.map fun b => key b.2).Nodup) (hslot : inner.lookup name = some slot)
    (hnew : ∀ v, scope.lookup name = some v → B v slot → B' (v.1, some n) slot)
    (hother : ∀ v, ∀ b ∈ inner, key b.2 ≠ key slot → B v b.2 → B' v b.2) :
    ScopeAgrees B' (Store.setIn name n scope) inner := by
  intro x
  have hname := h x
  rw [Store.lookup_setIn]
  by_cases hx : x = name
  · subst hx
    rw [if_pos rfl, hslot]
    rw [hslot] at hname
    generalize hfound : scope.lookup x = found at hname
    cases hname with
    | some hbound => exact .some (hnew _ hfound hbound)
  · rw [if_neg hx]
    generalize scope.lookup x = found at hname ⊢
    cases hslot' : inner.lookup x with
    | none =>
        rw [hslot'] at hname
        cases hname
        exact .none
    | some slot' =>
        rw [hslot'] at hname
        cases hname with
        | some hbound =>
            have hmem := mem_of_lookup hslot'
            refine .some (hother _ _ hmem (fun heq => hx ?_) hbound)
            exact congrArg Prod.fst
              (List.inj_on_of_nodup_map hnodup hmem (mem_of_lookup hslot) heq)

/-- A new value of a variable, wherever it is bound. -/
theorem ScopesAgree.set {v : Ty × Option Int} (h : ScopesAgree B scopes slots)
    (hnodup : (slots.flatten.map fun b => key b.2).Nodup)
    (hvariable : (scopes.findSome? fun scope => scope.lookup name) = some v)
    (hslot : (slots.findSome? fun scope => scope.lookup name) = some slot)
    (hnew : B v slot → B' (v.1, some n) slot)
    (hother : ∀ v, ∀ b ∈ slots.flatten, key b.2 ≠ key slot → B v b.2 → B' v b.2) :
    ScopesAgree B' (Store.setScopes name n scopes) slots := by
  induction h with
  | nil => cases hvariable
  | @cons scope inner outer outerSlots hscope houter ih =>
      rw [List.flatten_cons, List.map_append] at hnodup
      obtain ⟨hinner, hrest, hapart⟩ := List.nodup_append.1 hnodup
      rw [List.findSome?_cons] at hvariable hslot
      rw [List.flatten_cons] at hother
      have hname := hscope name
      unfold Store.setScopes
      cases hfound : scope.lookup name with
      | some found =>
          rw [hfound] at hvariable hname
          cases hvariable
          cases hfoundSlot : inner.lookup name with
          | none =>
              rw [hfoundSlot] at hname
              cases hname
          | some foundSlot =>
              rw [hfoundSlot] at hslot
              cases hslot
              rw [Option.isSome_some, if_pos rfl]
              refine .cons (hscope.setIn hinner hfoundSlot ?_
                fun v b hb => hother v b (List.mem_append_left _ hb)) ?_
              · intro v' hv'
                rw [hfound] at hv'
                cases hv'
                exact hnew
              · refine ScopesAgree.congr houter fun v b hb =>
                  hother v b (List.mem_append_right _ hb) ?_
                exact fun heq => hapart _ (List.mem_map_of_mem (mem_of_lookup hfoundSlot)) _
                  (List.mem_map_of_mem hb) heq.symm
      | none =>
          rw [hfound] at hvariable hname
          cases hfoundSlot : inner.lookup name with
          | some foundSlot =>
              rw [hfoundSlot] at hname
              cases hname
          | none =>
              rw [hfoundSlot] at hslot
              rw [Option.isSome_none, if_neg Bool.false_ne_true]
              obtain ⟨bound, hbound, hmem⟩ := List.exists_of_findSome?_eq_some hslot
              refine .cons (hscope.congr fun v b hb => hother v b (List.mem_append_left _ hb) ?_)
                (ih hrest hvariable hslot fun v b hb => hother v b (List.mem_append_right _ hb))
              exact fun heq => hapart _ (List.mem_map_of_mem hb) _ (List.mem_map_of_mem
                (List.mem_flatten.2 ⟨bound, hbound, mem_of_lookup hmem⟩)) heq

/-- A variable comes into sight on both sides. -/
theorem ScopeAgrees.bind {v : Ty × Option Int} (h : ScopeAgrees B scope inner) (name : String)
    (hbound : B v slot) : ScopeAgrees B ((name, v) :: scope) ((name, slot) :: inner) := by
  intro x
  rw [List.lookup_cons, List.lookup_cons]
  split
  · exact .some hbound
  · exact h x

/-- A scope opens on both sides. -/
theorem ScopesAgree.push (h : ScopesAgree B scopes slots) :
    ScopesAgree B ([] :: scopes) ([] :: slots) :=
  .cons (fun _ => .none) h

/-- A scope closes on both sides. -/
theorem ScopesAgree.pop (h : ScopesAgree B scopes slots) :
    ScopesAgree B (scopes.drop 1) (slots.drop 1) :=
  List.forall₂_drop 1 h

end Agreement

end MiniC.Source
