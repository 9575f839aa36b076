/-
The scope tree answers as a stack of maps does (`runOps_mirrored`).

# The two sides

The tree keeps every scope that was ever opened, and every binding under the
number of its scope; a stack forgets a scope with its bindings when it is
closed. Only the open scopes are seen of the tree, and these are the stack
(`SymbolTable.Mirrors`), because a scope gets a number that no other has had, and
those around it have smaller ones.

# Step and run

Each operation is refused on both sides, or answered alike and leaves the two
alike (`Mirrors.perform`). So is a run of any length (`Mirrors.run`), by induction
on its operations, from the empty tree on.

# Closed scopes

That nothing which was declared in a scope is seen behind its end is plain of the
stack, which is then the same as before (`run_scope`), and therefore so of the
tree: two trees that mirror one stack answer whatever is asked of them alike
(`Mirrors.same`).
Consumed by no other module.
-/
import MiniC.Proofs.Parser.Table

namespace MiniC

-- ============================================================ operations

/-- What is asked of a table of declarations. -/
inductive TableOp where
  | push
  | pop
  | insert (name : String) (b : Binding)
  | lookup (name : String)

/-- What it answers. -/
inductive TableAnswer where
  | done
  | inserted
  | clash (earlier : Binding)
  | found (binding : Option Binding)
deriving DecidableEq, Repr

/-- The answers to operations in order, up to the first that is refused, and what
there is behind them if none is. -/
def runOps {σ : Type} (perform : σ → TableOp → Option (TableAnswer × σ)) :
    σ → List TableOp → List TableAnswer × Option σ
  | s, [] => ([], some s)
  | s, op :: ops =>
    match perform s op with
    | none => ([], none)
    | some (answer, s') => (answer :: (runOps perform s' ops).1, (runOps perform s' ops).2)

/-- An operation on the scope tree. Closing the global scope is refused. -/
def SymbolTable.perform (t : SymbolTable) : TableOp → Option (TableAnswer × SymbolTable)
  | .push => some (.done, t.push)
  | .pop => t.pop?.map fun t' => (.done, t')
  | .insert name b =>
    match t.insert name b with
    | .ok t' => some (.inserted, t')
    | .error earlier => some (.clash earlier, t)
  | .lookup name => some (.found (t.lookup? name), t)

/-- A stack of maps from names to what they are bound to: the innermost, and those
around it from the inside out. -/
structure ScopeStack where
  current : String → Option Binding
  outer : List (String → Option Binding)

namespace ScopeStack

/-- The global scope alone, with nothing in it. -/
def global : ScopeStack := ⟨fun _ => none, []⟩

/-- The innermost binding of a name. -/
def lookup (st : ScopeStack) (name : String) : Option Binding :=
  (st.current :: st.outer).findSome? fun map => map name

/-- The stack with one binding more in its innermost map. -/
def bind (st : ScopeStack) (name : String) (b : Binding) : ScopeStack :=
  { st with current := fun other => if other = name then some b else st.current other }

/-- An operation on the stack. The last map is never taken off. -/
def perform (st : ScopeStack) : TableOp → Option (TableAnswer × ScopeStack)
  | .push => some (.done, ⟨fun _ => none, st.current :: st.outer⟩)
  | .pop =>
    match st.outer with
    | [] => none
    | map :: rest => some (.done, ⟨map, rest⟩)
  | .insert name b =>
    match st.current name with
    | some earlier => some (.clash earlier, st)
    | none => some (.inserted, st.bind name b)
  | .lookup name => some (.found (st.lookup name), st)

end ScopeStack

-- ================================================================== runs

section Runs

variable {σ : Type} {perform : σ → TableOp → Option (TableAnswer × σ)} {s s' : σ}

/-- An operation that is answered is followed by the others. -/
theorem runOps_cons {op : TableOp} {answer : TableAnswer} (h : perform s op = some (answer, s'))
    (ops : List TableOp) :
    runOps perform s (op :: ops)
      = (answer :: (runOps perform s' ops).1, (runOps perform s' ops).2) := by
  rw [runOps, h]

/-- An operation that is refused ends the run. -/
theorem runOps_refused {op : TableOp} (h : perform s op = none) (ops : List TableOp) :
    runOps perform s (op :: ops) = ([], none) := by
  rw [runOps, h]

/-- A run that is not refused goes on from where it ends. -/
theorem runOps_append {ops : List TableOp} {answers : List TableAnswer}
    (h : runOps perform s ops = (answers, some s')) (more : List TableOp) :
    runOps perform s (ops ++ more)
      = (answers ++ (runOps perform s' more).1, (runOps perform s' more).2) := by
  induction ops generalizing s answers with
  | nil =>
      cases h
      rfl
  | cons op ops ih =>
      cases hop : perform s op with
      | none =>
          rw [runOps_refused hop] at h
          cases h
      | some step =>
          obtain ⟨answer, u⟩ := step
          rw [runOps_cons hop] at h
          obtain ⟨rfl, hlast⟩ := Prod.mk.inj h
          rw [List.cons_append, runOps_cons hop, ih (Prod.ext rfl hlast)]
          rfl

end Runs

/-- Operations between the opening of a scope and its closing: every scope that is
opened by them is closed by them, and none else is. -/
inductive Balanced : List TableOp → Prop where
  | nil : Balanced []
  | insert {ops : List TableOp} (name : String) (b : Binding) :
    Balanced ops → Balanced (.insert name b :: ops)
  | lookup {ops : List TableOp} (name : String) : Balanced ops → Balanced (.lookup name :: ops)
  | scope {inner ops : List TableOp} :
    Balanced inner → Balanced ops → Balanced (.push :: (inner ++ .pop :: ops))

namespace ScopeStack

/-- A balanced run is never refused and changes the innermost map at most. -/
theorem run_balanced {ops : List TableOp} (h : Balanced ops) (st : ScopeStack) :
    ∃ answers map, runOps perform st ops = (answers, some ⟨map, st.outer⟩) := by
  induction h generalizing st with
  | nil => exact ⟨[], st.current, rfl⟩
  | @insert ops name b _ ih =>
      cases hname : st.current name with
      | some earlier =>
          have hop : st.perform (.insert name b) = some (.clash earlier, st) := by
            simp only [perform, hname]
          obtain ⟨answers, map, hrun⟩ := ih st
          exact ⟨_, map, by rw [runOps_cons hop, hrun]⟩
      | none =>
          have hop : st.perform (.insert name b) = some (.inserted, st.bind name b) := by
            simp only [perform, hname]
          obtain ⟨answers, map, hrun⟩ := ih (st.bind name b)
          exact ⟨_, map, by rw [runOps_cons hop, hrun]; rfl⟩
  | @lookup ops name _ ih =>
      obtain ⟨answers, map, hrun⟩ := ih st
      have hop : st.perform (.lookup name) = some (.found (st.lookup name), st) := rfl
      exact ⟨_, map, by rw [runOps_cons hop, hrun]⟩
  | @scope inner ops _ _ ihinner ihops =>
      -- what is opened is the innermost map, and its closing brings the old one back
      obtain ⟨answers, map, hinner⟩ := ihinner ⟨fun _ => none, st.current :: st.outer⟩
      obtain ⟨answers', map', hops⟩ := ihops st
      have hpush : st.perform .push = some (.done, ⟨fun _ => none, st.current :: st.outer⟩) := rfl
      have hpop : perform ⟨map, st.current :: st.outer⟩ .pop = some (.done, st) := rfl
      refine ⟨.done :: (answers ++ .done :: answers'), map', ?_⟩
      rw [runOps_cons hpush, runOps_append hinner, runOps_cons hpop, hops]

/-- Behind a scope the stack is as it was in front of it. -/
theorem run_scope {inner : List TableOp} (h : Balanced inner) (st : ScopeStack) :
    ∃ answers, runOps perform st (.push :: (inner ++ [.pop])) = (answers, some st) := by
  obtain ⟨answers, map, hinner⟩ := run_balanced h ⟨fun _ => none, st.current :: st.outer⟩
  have hpush : st.perform .push = some (.done, ⟨fun _ => none, st.current :: st.outer⟩) := rfl
  have hpop : perform ⟨map, st.current :: st.outer⟩ .pop = some (.done, st) := rfl
  refine ⟨.done :: (answers ++ [.done]), ?_⟩
  rw [runOps_cons hpush, runOps_append hinner, runOps_cons hpop]
  rfl

end ScopeStack

-- ================================================================ mirrors

/-- What a scope binds names to. -/
def mapOf (scope : List (String × Binding)) (name : String) : Option Binding := scope.lookup name

/-- Whether the open scopes of a tree are the maps of a stack. -/
structure SymbolTable.Mirrors (t : SymbolTable) (st : ScopeStack) : Prop where
  sound : t.Sound
  maps : t.view.map mapOf = st.current :: st.outer

/-- Whether an operation is refused on both sides, or answered alike. -/
inductive AnsweredAlike :
    Option (TableAnswer × SymbolTable) → Option (TableAnswer × ScopeStack) → Prop where
  | refused : AnsweredAlike none none
  | answered {t : SymbolTable} {st : ScopeStack} (answer : TableAnswer) (h : t.Mirrors st) :
    AnsweredAlike (some (answer, t)) (some (answer, st))

namespace SymbolTable

variable {t : SymbolTable} {st : ScopeStack}

/-- The empty tree mirrors the global scope. -/
theorem empty_mirrors : empty.Mirrors .global := ⟨empty_sound, rfl⟩

/-- The innermost map is that of the current scope. -/
theorem Mirrors.find? (h : t.Mirrors st) (name : String) :
    t.find? t.current name = st.current name := by
  have hmaps := h.maps
  unfold view at hmaps
  rw [openScopes_eq h.sound, List.map_cons, List.map_cons] at hmaps
  rw [find?_eq, ← (List.cons.inj hmaps).1]
  rfl

/-- A name is found alike. -/
theorem Mirrors.lookup? (h : t.Mirrors st) (name : String) : t.lookup? name = st.lookup name := by
  unfold ScopeStack.lookup
  rw [lookup?_eq, ← h.maps, List.findSome?_map]
  rfl

/-- There is a map around the innermost one exactly if the current scope has a
parent. -/
theorem Mirrors.outer (h : t.Mirrors st) : t.pop? = none ↔ st.outer = [] := by
  have hmaps := h.maps
  unfold view at hmaps
  rw [openScopes_eq h.sound, List.map_cons, List.map_cons] at hmaps
  unfold pop?
  rw [← (List.cons.inj hmaps).2]
  cases hparent : t.parent? t.current with
  | none => exact ⟨fun _ => rfl, fun _ => rfl⟩
  | some parent => exact ⟨nofun, nofun⟩

/-- A scope opens on both sides. -/
theorem Mirrors.push (h : t.Mirrors st) :
    t.push.Mirrors ⟨fun _ => none, st.current :: st.outer⟩ := by
  refine ⟨push_sound h.sound, ?_⟩
  rw [view_push h.sound, List.map_cons, h.maps]
  rfl

/-- A scope closes on both sides. -/
theorem Mirrors.pop (h : t.Mirrors st) {t' : SymbolTable} (hpop : t.pop? = some t') :
    ∃ map rest, st.outer = map :: rest ∧ t'.Mirrors ⟨map, rest⟩ := by
  cases houter : st.outer with
  | nil =>
      rw [h.outer.2 houter] at hpop
      cases hpop
  | cons map rest =>
      refine ⟨map, rest, rfl, pop?_sound h.sound hpop, ?_⟩
      rw [view_pop? h.sound hpop, List.map_drop, h.maps, houter]
      rfl

/-- A name is bound on both sides. -/
theorem Mirrors.insert (h : t.Mirrors st) {name : String} {b : Binding} {t' : SymbolTable}
    (hinsert : t.insert name b = .ok t') : t'.Mirrors (st.bind name b) := by
  obtain ⟨scope, outer, hview, -, hview'⟩ := view_insert h.sound hinsert
  have hmaps := h.maps
  rw [hview, List.map_cons] at hmaps
  obtain ⟨hcurrent, houter⟩ := List.cons.inj hmaps
  refine ⟨insert_sound h.sound hinsert, ?_⟩
  rw [hview', List.map_cons, houter]
  refine congrArg (· :: st.outer) (funext fun other => ?_)
  unfold ScopeStack.bind mapOf
  dsimp only
  rw [← hcurrent, List.lookup_cons]
  by_cases hother : other = name
  · rw [if_pos hother, hother, beq_self_eq_true]
  · rw [if_neg hother, beq_false_of_ne hother]
    rfl

/-- What is alike answers alike and stays alike. -/
theorem Mirrors.perform (h : t.Mirrors st) (op : TableOp) :
    AnsweredAlike (t.perform op) (st.perform op) := by
  cases op with
  | push => exact .answered .done h.push
  | pop =>
      cases hpop : t.pop? with
      | none =>
          have houter := h.outer.1 hpop
          simp only [SymbolTable.perform, ScopeStack.perform, hpop, houter]
          exact .refused
      | some t' =>
          obtain ⟨map, rest, houter, hmirrors⟩ := h.pop hpop
          simp only [SymbolTable.perform, ScopeStack.perform, hpop, houter]
          exact .answered .done hmirrors
  | insert name b =>
      have hfind := h.find? name
      cases hcurrent : st.current name with
      | some earlier =>
          have hinsert : t.insert name b = .error earlier := by
            unfold SymbolTable.insert
            rw [hfind, hcurrent]
          simp only [SymbolTable.perform, ScopeStack.perform, hinsert, hcurrent]
          exact .answered (.clash earlier) h
      | none =>
          obtain ⟨t', hinsert⟩ : ∃ t', t.insert name b = .ok t' := by
            unfold SymbolTable.insert
            rw [hfind, hcurrent]
            exact ⟨_, rfl⟩
          simp only [SymbolTable.perform, ScopeStack.perform, hinsert, hcurrent]
          exact .answered .inserted (h.insert hinsert)
  | lookup name =>
      simp only [SymbolTable.perform, ScopeStack.perform, h.lookup? name]
      exact .answered _ h

/-- So do the two over a run of any length. -/
theorem Mirrors.run (h : t.Mirrors st) (ops : List TableOp) :
    ∃ (answers : List TableAnswer) (last : Option (SymbolTable × ScopeStack)),
      runOps SymbolTable.perform t ops = (answers, last.map Prod.fst)
      ∧ runOps ScopeStack.perform st ops = (answers, last.map Prod.snd)
      ∧ ∀ behind ∈ last, behind.1.Mirrors behind.2 := by
  induction ops generalizing t st with
  | nil => exact ⟨[], some (t, st), rfl, rfl, fun behind hbehind => by cases hbehind; exact h⟩
  | cons op ops ih =>
      have halike := h.perform op
      generalize htable : t.perform op = step at halike
      generalize hstack : st.perform op = step' at halike
      cases halike with
      | refused =>
          exact ⟨[], none, runOps_refused htable ops, runOps_refused hstack ops, nofun⟩
      | @answered t' st' answer hmirrors =>
          obtain ⟨answers, last, htables, hstacks, hlast⟩ := ih hmirrors
          refine ⟨answer :: answers, last, ?_, ?_, hlast⟩
          · rw [runOps_cons htable, htables]
          · rw [runOps_cons hstack, hstacks]

/-- Tables that mirror one stack answer whatever is asked of them alike. -/
theorem Mirrors.same {t' : SymbolTable} (h : t.Mirrors st) (h' : t'.Mirrors st)
    (ops : List TableOp) :
    (runOps SymbolTable.perform t ops).1 = (runOps SymbolTable.perform t' ops).1 := by
  obtain ⟨answers, last, htable, hstack, -⟩ := h.run ops
  obtain ⟨answers', last', htable', hstack', -⟩ := h'.run ops
  rw [htable, htable']
  exact (Prod.mk.inj (hstack.symm.trans hstack')).1

-- ================================================================= trees

/-- What is so of a tree of scopes where the stack of maps is the given one. -/
structure Ordered (t : SymbolTable) (st : ScopeStack) : Prop where
  /-- Scopes are older than those inside them. -/
  older : ∀ scope parent, t.parent? scope = some parent → parent < scope
  /-- So a walk outwards ends by itself: more steps lead to no more scopes. -/
  ends : ∀ fuel, t.current < fuel → t.chain fuel t.current = t.openScopes
  /-- Closing is refused exactly where no scope but the global one is open. -/
  refused : t.perform .pop = none ↔ st.outer = []
  /-- Nothing that is done in a scope can be told behind it. -/
  closed : ∀ inner, Balanced inner → ∃ answers t',
    runOps perform t (.push :: (inner ++ [.pop])) = (answers, some t')
      ∧ ∀ ops, (runOps perform t' ops).1 = (runOps perform t ops).1

/-- What mirrors a stack is a tree with its scopes in order. -/
theorem Mirrors.ordered (h : t.Mirrors st) : t.Ordered st where
  older := h.sound.older
  ends fuel hfuel := chain_eq h.sound.older fuel t.current hfuel
  refused := by
    rw [← h.outer]
    exact Option.map_eq_none_iff
  closed inner hinner := by
    obtain ⟨answers, hstack⟩ := ScopeStack.run_scope hinner st
    obtain ⟨answers', last, htable, hstack', hlast⟩ := h.run (.push :: (inner ++ [.pop]))
    rw [hstack] at hstack'
    obtain ⟨-, hsame⟩ := Prod.mk.inj hstack'
    obtain ⟨⟨t', st'⟩, rfl, rfl⟩ := Option.map_eq_some_iff.1 hsame.symm
    exact ⟨answers', t', htable, fun ops => Mirrors.same (hlast _ rfl) h ops⟩

end SymbolTable

/-- Operations on the scope tree are answered, or refused, as those on a stack of
maps; and wherever they lead, the tree is as it should be. -/
theorem runOps_mirrored (ops : List TableOp) :
    ∃ (answers : List TableAnswer) (last : Option (SymbolTable × ScopeStack)),
      runOps SymbolTable.perform .empty ops = (answers, last.map Prod.fst)
      ∧ runOps ScopeStack.perform .global ops = (answers, last.map Prod.snd)
      ∧ ∀ t st, last = some (t, st) → t.Ordered st := by
  obtain ⟨answers, last, htable, hstack, hlast⟩ := SymbolTable.empty_mirrors.run ops
  exact ⟨answers, last, htable, hstack, fun t st h => (hlast (t, st) h).ordered⟩

/-- A name is bound again in a scope and, behind its end, in a later one at the
same depth, and the earlier bindings come back. -/
example :
    let x (line : Nat) : Binding := ⟨.int, ⟨line, 1, 0⟩⟩
    (runOps SymbolTable.perform .empty [.insert "x" (x 1), .push, .insert "x" (x 2), .lookup "x",
        .insert "x" (x 3), .pop, .push, .lookup "x", .pop, .pop, .lookup "x"]).1
      = [.inserted, .done, .inserted, .found (some (x 2)), .clash (x 2), .done, .done,
        .found (some (x 1)), .done] := by
  decide

end MiniC
