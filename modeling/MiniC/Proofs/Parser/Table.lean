/-
The scope tree as a stack. Of the tree only the open scopes matter: each
with what it binds, innermost first, they are the table's `view`. Opening a scope
puts an empty one in front of the view, closing it takes the first away, and
a binding goes to the first; a name is looked up in the view alone.

A scope is older than those inside it, so that walking from parent to parent ends
at the root and never comes back to the scope it started from. This is what a
`Sound` table has to keep, besides a current scope that is in the tree and
bindings of scopes that are. The walk is bounded by a number of steps, which the
age of a scope makes large enough (`chain_eq`, `chain_le`), and it is not changed
by scopes that are younger than the one it starts from (`chain_congr`): so a scope
that is pushed leaves the view of all others as it was.

The types of the names in view are the table's `sight`, the form in which
statements are judged. Consumed by the proof that names of accepted programs are
in sight.
-/
import MiniC.Proofs.Source.Sight
import MiniC.SymbolTable

namespace MiniC.SymbolTable

-- ================================================================== view

/-- What a scope itself binds, the latest first. -/
def scopeOf (t : SymbolTable) (scope : Nat) : List (String × Binding) :=
  t.bindings.filterMap fun b => if b.1.1 = scope then some (b.1.2, b.2) else none

/-- What the open scopes bind, innermost first. -/
def view (t : SymbolTable) : List (List (String × Binding)) := t.openScopes.map t.scopeOf

/-- The types of the names in sight. -/
def sight (t : SymbolTable) : Sight := t.view.map fun scope => scope.map fun b => (b.1, b.2.ty)

/-- Whether the current scope exists, scopes are older than those inside
them, and bindings are of scopes that exist. -/
structure Sound (t : SymbolTable) : Prop where
  current : t.current < t.parents.size
  older : ∀ scope parent, t.parent? scope = some parent → parent < scope
  known : ∀ b ∈ t.bindings, b.1.1 < t.parents.size

variable {t t' : SymbolTable}

/-- What a scope binds is found among its own bindings. -/
theorem find?_eq (t : SymbolTable) (scope : Nat) (name : String) :
    t.find? scope name = (t.scopeOf scope).lookup name := by
  unfold find? scopeOf
  induction t.bindings with
  | nil => rfl
  | cons b rest ih =>
      obtain ⟨⟨number, x⟩, binding⟩ := b
      rw [List.find?_cons, List.filterMap_cons]
      by_cases hnumber : number = scope
      · subst hnumber
        dsimp only
        rw [if_pos rfl, List.lookup_cons]
        by_cases hx : x = name
        · subst hx
          rw [beq_self_eq_true, beq_self_eq_true]
          rfl
        · have hne : (((number, x) : Nat × String) == (number, name)) = false :=
            beq_false_of_ne fun heq => hx (congrArg Prod.snd heq)
          have hne' : (name == x) = false := beq_false_of_ne fun heq => hx heq.symm
          rw [hne, hne']
          exact ih
      · have hne : (((number, x) : Nat × String) == (scope, name)) = false :=
          beq_false_of_ne fun heq => hnumber (congrArg Prod.fst heq)
        dsimp only
        rw [hne, if_neg hnumber]
        exact ih

/-- A name is looked up in the view. -/
theorem lookup?_eq (t : SymbolTable) (name : String) :
    t.lookup? name = t.view.findSome? fun scope => scope.lookup name := by
  unfold lookup? view
  rw [List.findSome?_map]
  simp only [find?_eq]
  rfl

/-- The type of a name in sight. -/
theorem find?_sight (t : SymbolTable) (name : String) :
    t.sight.find? name = (t.lookup? name).map (·.ty) := by
  rw [lookup?_eq]
  exact findSome?_view (fun b : Binding => b.ty) t.view name

-- ================================================================= chain

/-- As many steps as the number of a scope suffice to reach the root. -/
theorem chain_eq (h : ∀ scope parent, t.parent? scope = some parent → parent < scope) :
    ∀ (fuel scope : Nat), scope < fuel → t.chain fuel scope = t.chain (scope + 1) scope := by
  intro fuel scope
  induction scope using Nat.strongRecOn generalizing fuel with
  | ind scope ih =>
      intro hfuel
      obtain ⟨fuel, rfl⟩ : ∃ k, fuel = k + 1 := ⟨fuel - 1, by omega⟩
      unfold chain
      cases hparent : t.parent? scope with
      | none => rfl
      | some parent =>
          have hlt := h scope parent hparent
          dsimp only
          rw [ih parent hlt fuel (by omega), ih parent hlt scope hlt]

/-- Scopes around a scope are older than it. -/
theorem chain_le (h : ∀ scope parent, t.parent? scope = some parent → parent < scope) :
    ∀ {fuel scope other : Nat}, other ∈ t.chain fuel scope → other ≤ scope := by
  intro fuel
  induction fuel with
  | zero => intro scope other hmem; cases hmem
  | succ fuel ih =>
      intro scope other hmem
      unfold chain at hmem
      rcases List.mem_cons.1 hmem with rfl | hmem
      · exact Nat.le_refl _
      · cases hparent : t.parent? scope with
        | none =>
            rw [hparent] at hmem
            cases hmem
        | some parent =>
            rw [hparent] at hmem
            exact Nat.le_trans (ih hmem) (Nat.le_of_lt (h scope parent hparent))

/-- The walk from a scope depends on the scopes up to it only. -/
theorem chain_congr (h : ∀ scope parent, t.parent? scope = some parent → parent < scope) :
    ∀ {fuel scope : Nat}, (∀ other ≤ scope, t'.parent? other = t.parent? other) →
      t'.chain fuel scope = t.chain fuel scope := by
  intro fuel
  induction fuel with
  | zero => intro scope _; rfl
  | succ fuel ih =>
      intro scope hsame
      unfold chain
      rw [hsame scope (Nat.le_refl _)]
      cases hparent : t.parent? scope with
      | none => rfl
      | some parent =>
          have hlt := h scope parent hparent
          dsimp only
          rw [ih fun other hother => hsame other (by omega)]

/-- The open scopes are the current one and those around its parent. -/
theorem openScopes_eq (h : t.Sound) :
    t.openScopes = t.current :: match t.parent? t.current with
      | some parent => t.chain (parent + 1) parent
      | none => [] := by
  unfold openScopes
  rw [chain]
  cases hparent : t.parent? t.current with
  | none => rfl
  | some parent =>
      dsimp only
      rw [chain_eq h.older _ _ (h.older _ _ hparent)]

-- =============================================================== changes

/-- A table without bindings has its one scope open. -/
theorem empty_sound : empty.Sound := by
  refine ⟨Nat.zero_lt_one, ?_, nofun⟩
  intro scope parent h
  cases scope with
  | zero => cases h
  | succ scope => cases h

theorem parent?_push_old (t : SymbolTable) {scope : Nat} (h : scope < t.parents.size) :
    t.push.parent? scope = t.parent? scope := by
  unfold parent? push
  dsimp only
  rw [Array.getElem?_push_lt h, Array.getElem?_eq_getElem h]

/-- The scope that is opened is inside the current one. -/
theorem parent?_push_new (t : SymbolTable) : t.push.parent? t.parents.size = some t.current := by
  unfold parent? push
  dsimp only
  rw [Array.getElem?_push_size]
  rfl

/-- Opening a scope keeps the table sound. -/
theorem push_sound (h : t.Sound) : t.push.Sound := by
  refine ⟨?_, ?_, ?_⟩
  · show t.parents.size < (t.parents.push _).size
    rw [Array.size_push]
    exact Nat.lt_succ_self _
  · intro scope parent hparent
    rcases Nat.lt_trichotomy scope t.parents.size with hlt | rfl | hgt
    · rw [parent?_push_old t hlt] at hparent
      exact h.older scope parent hparent
    · rw [parent?_push_new] at hparent
      cases hparent
      exact h.current
    · have hnone : t.push.parent? scope = none := by
        unfold parent? push
        dsimp only
        rw [Array.getElem?_eq_none (by rw [Array.size_push]; omega)]
        rfl
      rw [hnone] at hparent
      cases hparent
  · intro b hb
    show b.1.1 < (t.parents.push _).size
    rw [Array.size_push]
    exact Nat.lt_succ_of_lt (h.known b hb)

/-- A scope that is opened is empty and comes first. -/
theorem view_push (h : t.Sound) : t.push.view = [] :: t.view := by
  have hnew : t.push.scopeOf t.parents.size = [] := by
    refine List.filterMap_eq_nil_iff.2 fun b hb => if_neg ?_
    exact Nat.ne_of_lt (h.known b hb)
  have hchain : t.push.chain (t.current + 1) t.current = t.openScopes :=
    chain_congr h.older fun other hother =>
      parent?_push_old t (Nat.lt_of_le_of_lt hother h.current)
  unfold view
  rw [openScopes_eq (push_sound h)]
  show t.push.scopeOf t.parents.size :: List.map t.push.scopeOf _ = _
  rw [hnew, show t.push.current = t.parents.size from rfl, parent?_push_new]
  dsimp only
  rw [hchain]
  rfl

/-- Closing a scope keeps the table sound. -/
theorem pop?_sound (h : t.Sound) (hpop : t.pop? = some t') : t'.Sound := by
  obtain ⟨parent, hparent, rfl⟩ := Option.map_eq_some_iff.1 hpop
  refine ⟨?_, h.older, h.known⟩
  exact Nat.lt_trans (h.older _ _ hparent) h.current

/-- A scope that is closed is gone from the view. -/
theorem view_pop? (h : t.Sound) (hpop : t.pop? = some t') : t'.view = t.view.drop 1 := by
  obtain ⟨parent, hparent, rfl⟩ := Option.map_eq_some_iff.1 hpop
  have hchain : openScopes { t with current := parent } = t.chain (parent + 1) parent :=
    chain_congr h.older fun _ _ => rfl
  unfold view
  rw [hchain, openScopes_eq h, hparent]
  rfl

/-- A binding keeps the table sound. -/
theorem insert_sound (h : t.Sound) {name : String} {b : Binding}
    (hinsert : t.insert name b = .ok t') : t'.Sound := by
  unfold insert at hinsert
  split at hinsert
  · cases hinsert
  · cases hinsert
    exact ⟨h.current, h.older, List.forall_mem_cons.2 ⟨h.current, h.known⟩⟩

/-- A binding goes to the innermost scope, which does not bind the name
yet. -/
theorem view_insert (h : t.Sound) {name : String} {b : Binding}
    (hinsert : t.insert name b = .ok t') :
    ∃ scope outer, t.view = scope :: outer ∧ scope.lookup name = none
      ∧ t'.view = ((name, b) :: scope) :: outer := by
  unfold insert at hinsert
  cases hfind : t.find? t.current name with
  | some earlier =>
      rw [hfind] at hinsert
      cases hinsert
  | none =>
      rw [hfind] at hinsert
      cases hinsert
      rw [find?_eq] at hfind
      have hopen := openScopes_eq h
      generalize hrest : (match t.parent? t.current with
        | some parent => t.chain (parent + 1) parent
        | none => []) = rest at hopen
      refine ⟨t.scopeOf t.current, rest.map t.scopeOf, ?_, hfind, ?_⟩
      · unfold view
        rw [hopen]
        rfl
      · have hold : ∀ scope ∈ rest, scope ≠ t.current := by
          intro scope hscope heq
          subst heq
          cases hparent : t.parent? t.current with
          | none =>
              rw [hparent] at hrest
              rw [← hrest] at hscope
              cases hscope
          | some parent =>
              rw [hparent] at hrest
              rw [← hrest] at hscope
              exact absurd (chain_le h.older hscope)
                (Nat.not_le.2 (h.older _ _ hparent))
        have hchain : openScopes { t with bindings := ((t.current, name), b) :: t.bindings }
            = t.openScopes := chain_congr h.older fun _ _ => rfl
        unfold view
        rw [hchain, hopen, List.map_cons]
        refine List.cons_eq_cons.2 ⟨?_, List.map_congr_left fun scope hscope => ?_⟩
        · unfold scopeOf
          rw [List.filterMap_cons]
          dsimp only
          rw [if_pos rfl]
        · unfold scopeOf
          rw [List.filterMap_cons]
          dsimp only
          rw [if_neg fun heq => hold scope hscope heq.symm]

end MiniC.SymbolTable
