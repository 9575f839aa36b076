/-
What an evaluation writes, and what it must have read.

# Writes

No part of an expression is evaluated on a condition, so the references that an
evaluation writes to are known before it, in order (`stored`). Running the writes on a
state is what the evaluation does to it, and all that the cells have to promise for
that is to be `Lawful`: a cell that was written has the new value, the others have
theirs, and types stay.

# Reads

What an evaluation reads are values that were there at first or written by then
(`Informed`). This is asked of the expression and not of the run, since the order of
writes is fixed: an operand on the right may rely on what the left one wrote.

# Two kinds of cells

The source keeps variables in scopes, of which some may have no value yet; a machine
keeps a number in every place. Where the source evaluates an expression, evaluation
over any cells that hold what the source's cells hold (`Sees`) gives the same value and
writes the same numbers (`eval_traced`): since nothing without a value is read, it does
not matter what is there instead. Consumed by the proofs about generated code.
-/
import MiniC.Proofs.Source.Exec

namespace MiniC.Source

open Steps

-- ================================================================ cells

section Cells

variable {σ : Type}

/-- Whether a write changes the value of one cell and nothing else. -/
def Cells.Lawful (cells : Cells σ) : Prop :=
  ∀ s r n q, cells.cell (cells.write s r n) q
    = if q = r then (cells.cell s r).map fun v => (v.1, some n) else cells.cell s q

/-- Numbers to be written, in order. -/
abbrev Writes : Type := List (Ref × Int)

/-- The state behind some writes. -/
def Cells.writes (cells : Cells σ) (s : σ) (ws : Writes) : σ :=
  ws.foldl (fun s w => cells.write s w.1 w.2) s

theorem Cells.writes_append (cells : Cells σ) (s : σ) (ws ws' : Writes) :
    cells.writes s (ws ++ ws') = cells.writes (cells.writes s ws) ws' :=
  List.foldl_append

/-- Whether a reference stands for a cell. -/
def Cells.Known (cells : Cells σ) (s : σ) (r : Ref) : Prop :=
  ∃ ty old, cells.cell s r = some (ty, old)

/-- Whether it stands for a cell with a value. -/
def Cells.Set (cells : Cells σ) (s : σ) (r : Ref) : Prop :=
  ∃ ty n, cells.cell s r = some (ty, some n)

variable {cells : Cells σ}

theorem Cells.Set.known {s : σ} {r : Ref} (h : cells.Set s r) : cells.Known s r := by
  obtain ⟨ty, n, h⟩ := h
  exact ⟨ty, some n, h⟩

/-- Writes change no types. -/
theorem Cells.Lawful.type_writes (h : cells.Lawful) (ws : Writes) (s : σ) (r : Ref) :
    (cells.cell (cells.writes s ws) r).map Prod.fst = (cells.cell s r).map Prod.fst := by
  induction ws generalizing s with
  | nil => rfl
  | cons w ws ih =>
      refine (ih (cells.write s w.1 w.2)).trans ?_
      rw [h]
      split
      · rename_i hr
        rw [hr, Option.map_map]
        rfl
      · rfl

/-- What has a value behind writes had one before or was written to. -/
theorem Cells.Lawful.set_writes (h : cells.Lawful) {ws : Writes} {s : σ} {r : Ref}
    (hset : cells.Set (cells.writes s ws) r) : cells.Set s r ∨ r ∈ ws.map Prod.fst := by
  induction ws generalizing s with
  | nil => exact Or.inl hset
  | cons w ws ih =>
      rcases ih (s := cells.write s w.1 w.2) hset with ⟨ty, n, hcell⟩ | hmem
      · rw [h] at hcell
        split at hcell
        · rename_i hr
          exact Or.inr (hr ▸ List.mem_cons_self)
        · exact Or.inl ⟨ty, n, hcell⟩
      · exact Or.inr (List.mem_cons_of_mem _ hmem)

/-- Writing makes no cell up. -/
theorem Cells.Lawful.known_writes (h : cells.Lawful) {ws : Writes} {s : σ} {r : Ref} {ty : Ty}
    {old : Option Int} (hcell : cells.cell (cells.writes s ws) r = some (ty, old)) :
    ∃ old', cells.cell s r = some (ty, old') := by
  have htype := h.type_writes ws s r
  rw [hcell] at htype
  obtain ⟨⟨ty', old'⟩, hold, heq⟩ := Option.map_eq_some_iff.1 htype.symm
  cases heq
  exact ⟨old', hold⟩

end Cells

section Sees

variable {σ τ : Type} {left : Cells σ} {right : Cells τ}

/-- Whether cells on the right have the types of those on the left and the
values that are there. -/
def Sees (left : Cells σ) (right : Cells τ) (s : σ) (t : τ) : Prop :=
  ∀ r ty old, left.cell s r = some (ty, old) →
    ∃ k, right.cell t r = some (ty, some k) ∧ ∀ n, old = some n → k = n

/-- A write to both sides is seen. -/
theorem Sees.write (h : left.Lawful) (h' : right.Lawful) {s : σ} {t : τ}
    (hsees : Sees left right s t) (r : Ref) (n : Int) :
    Sees left right (left.write s r n) (right.write t r n) := by
  intro q ty old hcell
  rw [h] at hcell
  rw [h']
  split at hcell
  · rename_i hq
    obtain ⟨⟨ty', old'⟩, hold, heq⟩ := Option.map_eq_some_iff.1 hcell
    cases heq
    obtain ⟨k, hk, -⟩ := hsees r ty' old' hold
    refine ⟨n, ?_, fun _ hn => Option.some.inj hn⟩
    rw [if_pos hq, hk]
    rfl
  · rename_i hq
    rw [if_neg hq]
    exact hsees q ty old hcell

/-- Writes to both sides are seen. -/
theorem Sees.writes (h : left.Lawful) (h' : right.Lawful) (ws : Writes) {s : σ} {t : τ}
    (hsees : Sees left right s t) : Sees left right (left.writes s ws) (right.writes t ws) := by
  induction ws generalizing s t with
  | nil => exact hsees
  | cons w ws ih => exact ih (hsees.write h h' w.1 w.2)

end Sees

-- ====================================================== what is looked at

/-- The references that an evaluation writes to, in order. -/
def stored : Expr → List Ref
  | .binary op lhs rhs constant _ _ =>
    if constant then []
    else if op.isAssignment then stored rhs ++ (ref? lhs).toList
    else stored lhs ++ stored rhs
  | .unary .incr _ operand _ => (ref? operand).toList
  | .unary .decr _ operand _ => (ref? operand).toList
  | .unary _ _ operand _ => stored operand
  | _ => []

/-- Whether evaluation from left to right assigns to known references and
reads set ones alone: those set at first, and those written to by then. -/
def Informed (known : Ref → Prop) (set : Ref → Prop) : Expr → Prop
  | .number _ => True
  | .string _ => False
  | .ident i => set (.named i.name)
  | .member object _ field _ => set (.member object.name field.name)
  | .binary op lhs rhs constant _ _ =>
    constant = true ∨
      match op with
      | .assign => (∃ r, ref? lhs = some r ∧ known r) ∧ Informed known set rhs
      | .compound _ =>
        (∃ r, ref? lhs = some r ∧ known r) ∧ Informed known set lhs ∧ Informed known set rhs
      | .arith _ | .compare _ =>
        Informed known set lhs ∧ Informed known (fun r => set r ∨ r ∈ stored lhs) rhs
  | .unary op _ operand _ =>
    match op with
    | .incr | .decr => ∃ r, ref? operand = some r ∧ set r
    | _ => Informed known set operand

/-- Who is informed of less is informed of more. -/
theorem Informed.mono {known known' set set' : Ref → Prop} {e : Expr}
    (h : Informed known set e) (hknown : ∀ r, known r → known' r) (hset : ∀ r, set r → set' r) :
    Informed known' set' e := by
  induction e generalizing set set' with
  | number lit => trivial
  | string lit => exact h
  | ident i => exact hset _ h
  | member object accessor field pos => exact hset _ h
  | binary op lhs rhs constant operandsMatch pos ihl ihr =>
      refine h.imp id fun h => ?_
      cases op with
      | assign =>
          obtain ⟨⟨r, hr, hk⟩, hright⟩ := h
          exact ⟨⟨r, hr, hknown r hk⟩, ihr hright hset⟩
      | compound op =>
          obtain ⟨⟨r, hr, hk⟩, hleft, hright⟩ := h
          exact ⟨⟨r, hr, hknown r hk⟩, ihl hleft hset, ihr hright hset⟩
      | arith op => exact ⟨ihl h.1 hset, ihr h.2 fun r hr => hr.imp (hset r) id⟩
      | compare op => exact ⟨ihl h.1 hset, ihr h.2 fun r hr => hr.imp (hset r) id⟩
  | unary op fixity operand pos ih =>
      cases op with
      | plus => exact ih h hset
      | minus => exact ih h hset
      | not => exact ih h hset
      | incr => exact h.imp fun r hr => ⟨hr.1, hset r hr.2⟩
      | decr => exact h.imp fun r hr => ⟨hr.1, hset r hr.2⟩

/-- What names a set reference is informed. -/
theorem informed_ref {known set : Ref → Prop} {e : Expr} {r : Ref} (h : ref? e = some r)
    (hr : set r) : Informed known set e := by
  rcases ref?_some h with ⟨i, rfl, rfl⟩ | ⟨object, field, pos, rfl, rfl⟩
  · exact hr
  · exact hr

theorem stored_ref {e : Expr} {r : Ref} (h : ref? e = some r) : stored e = [] := by
  cases e with
  | ident i => rfl
  | member object accessor field pos => rfl
  | number _ => cases h
  | string _ => cases h
  | binary _ _ _ _ _ _ => cases h
  | unary _ _ _ _ => cases h

theorem stored_constant {e : Expr} (h : e.isConstant = true) : stored e = [] := by
  cases e, h using constant_cases with
  | number lit => rfl
  | folded op lhs rhs operandsMatch pos => exact if_pos rfl

/-- Whether evaluation reads set references alone, whatever it assigns to. -/
def Reads (set : Ref → Prop) : Expr → Prop
  | .ident i => set (.named i.name)
  | .member object _ field _ => set (.member object.name field.name)
  | .binary op lhs rhs constant _ _ =>
    constant = true ∨
      match op with
      | .assign => Reads set rhs
      | .compound _ => Reads set lhs ∧ Reads set rhs
      | .arith _ | .compare _ => Reads set lhs ∧ Reads (fun r => set r ∨ r ∈ stored lhs) rhs
  | .unary _ _ operand _ => Reads set operand
  | _ => True

theorem Reads.mono {set set' : Ref → Prop} {e : Expr} (h : Reads set e)
    (hset : ∀ r, set r → set' r) : Reads set' e := by
  induction e generalizing set set' with
  | number lit => trivial
  | string lit => trivial
  | ident i => exact hset _ h
  | member object accessor field pos => exact hset _ h
  | binary op lhs rhs constant operandsMatch pos ihl ihr =>
      refine h.imp id fun h => ?_
      cases op with
      | assign => exact ihr h hset
      | compound op => exact ⟨ihl h.1 hset, ihr h.2 hset⟩
      | arith op => exact ⟨ihl h.1 hset, ihr h.2 fun r hr => hr.imp (hset r) id⟩
      | compare op => exact ⟨ihl h.1 hset, ihr h.2 fun r hr => hr.imp (hset r) id⟩
  | unary op fixity operand pos ih => exact ih h hset

theorem reads_ref {set : Ref → Prop} {e : Expr} {r : Ref} (h : ref? e = some r) :
    Reads set e ↔ set r := by
  rcases ref?_some h with ⟨i, rfl, rfl⟩ | ⟨object, field, pos, rfl, rfl⟩
  · exact Iff.rfl
  · exact Iff.rfl

theorem reads_all {set : Ref → Prop} (hset : ∀ r, set r) (e : Expr) : Reads set e := by
  induction e generalizing set with
  | number lit => trivial
  | string lit => trivial
  | ident i => exact hset _
  | member object accessor field pos => exact hset _
  | binary op lhs rhs constant operandsMatch pos ihl ihr =>
      refine Or.inr ?_
      cases op with
      | assign => exact ihr hset
      | compound op => exact ⟨ihl hset, ihr hset⟩
      | arith op => exact ⟨ihl hset, ihr fun r => Or.inl (hset r)⟩
      | compare op => exact ⟨ihl hset, ihr fun r => Or.inl (hset r)⟩
  | unary op fixity operand pos ih => exact ih hset

/-- An informed expression reads what has a value. -/
theorem Informed.reads {known set : Ref → Prop} {e : Expr} (h : Informed known set e) :
    Reads set e := by
  induction e generalizing set with
  | number lit => trivial
  | string lit => exact h.elim
  | ident i => exact h
  | member object accessor field pos => exact h
  | binary op lhs rhs constant operandsMatch pos ihl ihr =>
      refine h.imp id fun h => ?_
      cases op with
      | assign => exact ihr h.2
      | compound op => exact ⟨ihl h.2.1, ihr h.2.2⟩
      | arith op => exact ⟨ihl h.1, ihr h.2⟩
      | compare op => exact ⟨ihl h.1, ihr h.2⟩
  | unary op fixity operand pos ih =>
      cases op with
      | plus => exact ih h
      | minus => exact ih h
      | not => exact ih h
      | incr =>
          obtain ⟨r, hr, hset⟩ := h
          exact (reads_ref hr).2 hset
      | decr =>
          obtain ⟨r, hr, hset⟩ := h
          exact (reads_ref hr).2 hset

/-- What an evaluation writes to was known, or had a value. -/
theorem Informed.stored {known set : Ref → Prop} {e : Expr} (h : Informed known set e) {r : Ref}
    (hr : r ∈ stored e) : known r ∨ set r := by
  have hone : ∀ {P : Ref → Prop} {lhs : Expr}, (∃ q, ref? lhs = some q ∧ P q) →
      r ∈ (ref? lhs).toList → P r := by
    rintro P lhs ⟨q, hq, hp⟩ hmem
    rw [hq] at hmem
    exact List.mem_singleton.1 hmem ▸ hp
  induction e generalizing set with
  | binary op lhs rhs constant operandsMatch pos ihl ihr =>
      rcases h with rfl | h
      · cases hr
      · cases constant with
        | true => cases hr
        | false =>
            cases op with
            | assign =>
                rcases List.mem_append.1 hr with hr | hr
                · exact ihr h.2 hr
                · exact Or.inl (hone h.1 hr)
            | compound op =>
                rcases List.mem_append.1 hr with hr | hr
                · exact ihr h.2.2 hr
                · exact Or.inl (hone h.1 hr)
            | arith op =>
                rcases List.mem_append.1 hr with hr | hr
                · exact ihl h.1 hr
                · exact (ihr h.2 hr).elim Or.inl fun hset => hset.elim Or.inr (ihl h.1)
            | compare op =>
                rcases List.mem_append.1 hr with hr | hr
                · exact ihl h.1 hr
                · exact (ihr h.2 hr).elim Or.inl fun hset => hset.elim Or.inr (ihl h.1)
  | unary op fixity operand pos ih =>
      cases op with
      | plus => exact ih h hr
      | minus => exact ih h hr
      | not => exact ih h hr
      | incr => exact Or.inr (hone h hr)
      | decr => exact Or.inr (hone h hr)
  | number _ => cases hr
  | string _ => cases hr
  | ident _ => cases hr
  | member _ _ _ _ => cases hr

-- ============================================================== traces

section Traces

variable {σ τ : Type} {left : Cells σ} {right : Cells τ} {fill : Bool}

/-- What an evaluation on the left tells of one on the right. -/
structure Traced (left : Cells σ) (right : Cells τ) (fill : Bool) (e : Expr) (s : σ) (t : τ)
    (v : Value) (s' : σ) (ws : Writes) : Prop where
  state : s' = left.writes s ws
  follows : eval right fill e t = .ok (v, right.writes t ws)
  targets : ws.map Prod.fst = stored e
  ranges : ∀ w ∈ ws, ∃ ty old, left.cell s w.1 = some (ty, old) ∧ InRange ty w.2
  informed : Informed (left.Known s) (left.Set s) e

/-- What was read had a value. -/
theorem fetch_ok {cells : Cells σ} {s s' : σ} {r : Ref} {v : Value}
    (h : fetch cells r s = .ok (v, s')) : s' = s ∧ cells.cell s r = some (v.1, some v.2) := by
  match hcell : cells.cell s r with
  | none =>
      unfold fetch at h
      rw [get_bind, hcell] at h
      exact (throw_ok.1 h).elim
  | some (ty, none) =>
      rw [fetch_empty hcell] at h
      cases h
  | some (ty, some n) =>
      rw [fetch_cell hcell] at h
      cases h
      exact ⟨rfl, rfl⟩

/-- What was assigned was converted to the type of its cell. -/
theorem assign_ok {cells : Cells σ} {s s' : σ} {r : Ref} {v w : Value}
    (h : assign cells fill r v s = .ok (w, s')) :
    ∃ old, cells.cell s r = some (w.1, old) ∧ w.2 = convert fill v.1 w.1 v.2
      ∧ s' = cells.write s r w.2 := by
  cases hcell : cells.cell s r with
  | none =>
      unfold assign at h
      rw [get_bind, hcell] at h
      exact (throw_ok.1 h).elim
  | some found =>
      obtain ⟨ty, old⟩ := found
      rw [assign_cell hcell] at h
      cases h
      exact ⟨old, rfl, rfl, rfl⟩

/-- An evaluation that writes nothing. -/
theorem Traced.still {e : Expr} {s : σ} {t : τ} {v : Value}
    (hright : eval right fill e t = .ok (v, t)) (hstored : stored e = [])
    (hinformed : Informed (left.Known s) (left.Set s) e) :
    Traced left right fill e s t v s [] :=
  ⟨rfl, hright, hstored.symm, fun _ hw => absurd hw List.not_mem_nil, hinformed⟩

/-- A constant reads nothing and writes nothing. -/
theorem traced_constant {e : Expr} {s s' : σ} {t : τ} {v : Value} (hconst : e.isConstant = true)
    (hinformed : Informed (left.Known s) (left.Set s) e) (h : eval left fill e s = .ok (v, s')) :
    Traced left right fill e s t v s' [] := by
  rw [eval_constant hconst] at h
  obtain ⟨hfold, rfl⟩ := lift_ok.1 h
  refine .still ?_ (stored_constant hconst) hinformed
  rw [eval_constant hconst]
  exact lift_ok.2 ⟨hfold, rfl⟩

/-- A reference reads its cell. -/
theorem traced_ref {e : Expr} {r : Ref} {s s' : σ} {t : τ} {v : Value} (hr : ref? e = some r)
    (hsees : Sees left right s t) (h : eval left fill e s = .ok (v, s')) :
    Traced left right fill e s t v s' [] ∧ left.Set s r := by
  rw [eval_ref hr] at h
  obtain ⟨rfl, hcell⟩ := fetch_ok h
  obtain ⟨k, hk, hsame⟩ := hsees _ _ _ hcell
  rw [hsame _ rfl] at hk
  have hset : left.Set s' r := ⟨_, _, hcell⟩
  refine ⟨.still ?_ (stored_ref hr) (informed_ref hr hset), hset⟩
  rw [eval_ref hr]
  exact fetch_cell hk

/-- Behind one operand the other one sees the cells that the first has
left. -/
theorem Traced.then (hleft : left.Lawful) {lhs rhs : Expr} {s u s' : σ} {t : τ} {a b : Value}
    {ws ws' : Writes} (h : Traced left right fill lhs s t a u ws)
    (h' : Traced left right fill rhs u (right.writes t ws) b s' ws') :
    s' = left.writes s (ws ++ ws')
      ∧ eval right fill rhs (right.writes t ws) = .ok (b, right.writes t (ws ++ ws'))
      ∧ (ws ++ ws').map Prod.fst = stored lhs ++ stored rhs
      ∧ (∀ w ∈ ws ++ ws', ∃ ty old, left.cell s w.1 = some (ty, old) ∧ InRange ty w.2)
      ∧ Informed (left.Known s) (fun r => left.Set s r ∨ r ∈ stored lhs) rhs := by
  obtain ⟨rfl, -, htargets, hranges, -⟩ := h
  obtain ⟨rfl, hfollows, htargets', hranges', hinformed⟩ := h'
  refine ⟨(left.writes_append _ _ _).symm, ?_, ?_, ?_, ?_⟩
  · rw [hfollows, right.writes_append]
  · rw [List.map_append, htargets, htargets']
  · intro w hw
    rcases List.mem_append.1 hw with hw | hw
    · exact hranges w hw
    · obtain ⟨ty, old, hcell, hrange⟩ := hranges' w hw
      obtain ⟨old', hold⟩ := hleft.known_writes hcell
      exact ⟨ty, old', hold, hrange⟩
  · refine hinformed.mono ?_ ?_
    · rintro r ⟨ty, old, hcell⟩
      obtain ⟨old', hold⟩ := hleft.known_writes hcell
      exact ⟨ty, old', hold⟩
    · intro r hr
      rw [← htargets]
      exact hleft.set_writes hr

/-- An assignment to a cell behind an evaluation. -/
theorem Sees.assign {s s' : σ} {t : τ} {r : Ref} {v w : Value} (hsees : Sees left right s t)
    (h : assign left fill r v s = .ok (w, s')) :
    s' = left.write s r w.2 ∧ assign right fill r v t = .ok (w, right.write t r w.2)
      ∧ ∃ old, left.cell s r = some (w.1, old) ∧ InRange w.1 w.2 := by
  obtain ⟨old, hcell, hw, rfl⟩ := assign_ok h
  obtain ⟨k, hk, -⟩ := hsees r w.1 old hcell
  refine ⟨rfl, ?_, old, hcell, ?_⟩
  · rw [assign_cell hk, ← hw]
  · rw [hw]
    exact convert_inRange fill v.1 w.1 v.2

/-- Two operands and what is made of their values. -/
theorem Traced.operands (hleft : left.Lawful) {lhs rhs e : Expr} {s u s' : σ} {t : τ}
    {a b x : Value} {ws ws' : Writes} (h : Traced left right fill lhs s t a u ws)
    (h' : Traced left right fill rhs u (right.writes t ws) b s' ws')
    (hstored : stored e = stored lhs ++ stored rhs)
    (hfollows : ∀ t₁ t₂, eval right fill lhs t = .ok (a, t₁) →
      eval right fill rhs t₁ = .ok (b, t₂) → eval right fill e t = .ok (x, t₂))
    (hinformed : Informed (left.Known s) (left.Set s) lhs →
      Informed (left.Known s) (fun r => left.Set s r ∨ r ∈ stored lhs) rhs →
      Informed (left.Known s) (left.Set s) e) :
    Traced left right fill e s t x s' (ws ++ ws') := by
  obtain ⟨hstate, hrun, htargets, hranges, hright⟩ := h.then hleft h'
  exact ⟨hstate, hfollows _ _ h.follows hrun, htargets.trans hstored.symm, hranges,
    hinformed h.informed hright⟩

variable (hleft : left.Lawful) (hright : right.Lawful)

include hleft hright

/-- A value that is assigned to what an expression names. -/
theorem Traced.assign {lhs e rhs : Expr} {s u s' : σ} {t : τ} {r : Ref} {a v w : Value}
    {ws : Writes} {x : Value} (h : Traced left right fill rhs s t a u ws)
    (hsees : Sees left right s t) (hassign : assign left fill r v u = .ok (w, s'))
    (hr : ref? lhs = some r) (hstored : stored e = stored rhs ++ (ref? lhs).toList)
    (hfollows : ∀ t', eval right fill rhs t = .ok (a, right.writes t ws) →
      Source.assign right fill r v (right.writes t ws) = .ok (w, t') →
      eval right fill e t = .ok (x, t'))
    (hinformed : left.Known s r → Informed (left.Known s) (left.Set s) e) :
    Traced left right fill e s t x s' (ws ++ [(r, w.2)]) := by
  obtain ⟨rfl, hrun, htargets, hranges, -⟩ := h
  obtain ⟨rfl, hdone, old, hcell, hrange⟩ := (hsees.writes hleft hright ws).assign hassign
  obtain ⟨old', hold⟩ := hleft.known_writes hcell
  refine ⟨(left.writes_append s ws [(r, w.2)]).symm, ?_, ?_, ?_, hinformed ⟨_, _, hold⟩⟩
  · rw [right.writes_append]
    exact hfollows _ hrun hdone
  · rw [List.map_append, htargets, hstored, hr]
    rfl
  · intro y hy
    rcases List.mem_append.1 hy with hy | hy
    · exact hranges y hy
    · rw [List.mem_singleton.1 hy]
      exact ⟨_, _, hold, hrange⟩

/-- An increment or decrement. -/
theorem traced_step {op : Arith} {fixity : Fixity} {operand e : Expr} {s s' : σ} {t : τ}
    {v : Value} (hsees : Sees left right s t)
    (heval : ∀ {τ : Type} (cells : Cells τ), eval cells fill e
      = eval cells fill operand >>= fun old => stepped cells fill op fixity operand old)
    (hstored : stored e = (ref? operand).toList)
    (hinformed : (∃ r, ref? operand = some r ∧ left.Set s r) →
      Informed (left.Known s) (left.Set s) e)
    (h : eval left fill e s = .ok (v, s')) : ∃ ws, Traced left right fill e s t v s' ws := by
  rw [heval] at h
  obtain ⟨r, old, u, x, new, hr, hold, hx, hassign, hv⟩ := stepped_ok.1 h
  obtain ⟨hread, hset⟩ := traced_ref hr hsees hold
  refine ⟨_, hread.assign hleft hright hsees hassign hr ?_ ?_ fun _ => hinformed ⟨r, hr, hset⟩⟩
  · rw [stored_ref hr, hstored]
    rfl
  · intro t' hrun hdone
    rw [heval]
    exact stepped_ok.2 ⟨r, old, _, x, new, hr, hrun, hx, hdone, hv⟩

/-- Evaluation over cells that hold what the source's cells hold gives the
same value and writes the same. -/
theorem eval_traced (e : Expr) {s s' : σ} {t : τ} {v : Value} (hsees : Sees left right s t)
    (h : eval left fill e s = .ok (v, s')) : ∃ ws, Traced left right fill e s t v s' ws := by
  induction e generalizing s s' t v with
  | number lit => exact ⟨[], traced_constant rfl trivial h⟩
  | string lit => exact (throw_ok.1 h).elim
  | ident i => exact ⟨[], (traced_ref rfl hsees h).1⟩
  | member object accessor field pos =>
      cases accessor with
      | dot => exact ⟨[], (traced_ref rfl hsees h).1⟩
      | arrow => cases h
      | scope => cases h
  | binary op lhs rhs constant operandsMatch pos ihl ihr =>
      have hinto : ∀ {u : σ} {ws : Writes}, u = left.writes s ws →
          Sees left right u (right.writes t ws) := by
        rintro u ws rfl
        exact hsees.writes hleft hright ws
      cases constant with
      | true => exact ⟨[], traced_constant rfl (Or.inl rfl) h⟩
      | false =>
          cases op with
          | assign =>
              obtain ⟨r, a, u, hr, ha, hassign⟩ := eval_assign_ok.1 h
              obtain ⟨ws, hws⟩ := ihr hsees ha
              refine ⟨_, hws.assign hleft hright hsees hassign hr rfl ?_
                fun hk => Or.inr ⟨⟨r, hr, hk⟩, hws.informed⟩⟩
              intro t' hrun hdone
              exact eval_assign_ok.2 ⟨r, a, _, hr, hrun, hdone⟩
          | compound op =>
              obtain ⟨r, a, u, b, u', x, hr, ha, hb, hx, hassign⟩ := eval_compound_ok.1 h
              obtain ⟨hread, -⟩ := traced_ref (t := t) hr hsees ha
              obtain rfl : u = s := hread.state
              obtain ⟨ws, hws⟩ := ihr hsees hb
              refine ⟨_, hws.assign hleft hright hsees hassign hr rfl ?_
                fun hk => Or.inr ⟨⟨r, hr, hk⟩, hread.informed, hws.informed⟩⟩
              intro t' hrun hdone
              exact eval_compound_ok.2 ⟨r, a, _, b, _, x, hr, hread.follows, hrun, hx, hdone⟩
          | arith op =>
              obtain ⟨a, u, b, ha, hb, hx⟩ := eval_arith_ok.1 h
              obtain ⟨ws, hws⟩ := ihl hsees ha
              obtain ⟨ws', hws'⟩ := ihr (hinto hws.state) hb
              refine ⟨_, hws.operands hleft hws' rfl ?_ fun hl hr => Or.inr ⟨hl, hr⟩⟩
              intro t₁ t₂ hrun hrun'
              exact eval_arith_ok.2 ⟨a, _, b, hrun, hrun', hx⟩
          | compare op =>
              obtain ⟨a, u, b, ha, hb, hx⟩ := eval_compare_ok.1 h
              obtain ⟨ws, hws⟩ := ihl hsees ha
              obtain ⟨ws', hws'⟩ := ihr (hinto hws.state) hb
              refine ⟨_, hws.operands hleft hws' rfl ?_ fun hl hr => Or.inr ⟨hl, hr⟩⟩
              intro t₁ t₂ hrun hrun'
              exact eval_compare_ok.2 ⟨a, _, b, hrun, hrun', hx⟩
  | unary op fixity operand pos ih =>
      have hmap : ∀ (g : Value → Value), (∀ {τ : Type} (cells : Cells τ),
            eval cells fill (.unary op fixity operand pos) = g <$> eval cells fill operand) →
          stored (.unary op fixity operand pos) = stored operand →
          (Informed (left.Known s) (left.Set s) operand →
            Informed (left.Known s) (left.Set s) (.unary op fixity operand pos)) →
          ∃ ws, Traced left right fill (.unary op fixity operand pos) s t v s' ws := by
        intro g heval hstored hinformed
        rw [heval] at h
        obtain ⟨a, ha, rfl⟩ := map_ok.1 h
        obtain ⟨ws, hws⟩ := ih hsees ha
        refine ⟨ws, hws.state, ?_, hws.targets.trans hstored.symm, hws.ranges,
          hinformed hws.informed⟩
        rw [heval]
        exact map_ok.2 ⟨a, hws.follows, rfl⟩
      cases op with
      | plus => exact hmap _ (fun _ => rfl) rfl id
      | minus => exact hmap _ (fun _ => rfl) rfl id
      | not => exact hmap _ (fun _ => rfl) rfl id
      | incr => exact traced_step hleft hright hsees (fun _ => rfl) rfl id h
      | decr => exact traced_step hleft hright hsees (fun _ => rfl) rfl id h

end Traces

-- ======================================================= stores and views

theorem findSome?_setScopes (name : String) (n : Int) (scopes : List Scope) (x : String) :
    (Store.setScopes name n scopes).findSome? (fun scope => scope.lookup x)
      = if x = name then
          (scopes.findSome? fun scope => scope.lookup name).map fun v => (v.1, some n)
        else scopes.findSome? fun scope => scope.lookup x := by
  induction scopes with
  | nil =>
      show none = _
      split <;> rfl
  | cons scope outer ih =>
      unfold Store.setScopes
      cases hfound : scope.lookup name with
      | some v =>
          rw [Option.isSome_some, if_pos rfl, List.findSome?_cons, List.findSome?_cons,
            List.findSome?_cons, Store.lookup_setIn, hfound]
          by_cases hx : x = name
          · rw [if_pos hx, if_pos hx]
            rfl
          · rw [if_neg hx, if_neg hx]
      | none =>
          rw [Option.isSome_none, if_neg Bool.false_ne_true, List.findSome?_cons,
            List.findSome?_cons, List.findSome?_cons, ih, hfound]
          by_cases hx : x = name
          · rw [hx, if_pos rfl, if_pos rfl, hfound]
          · rw [if_neg hx, if_neg hx]

/-- A name that is set has its new value, and the others theirs. -/
theorem Store.find?_set (s : Store) (name : String) (n : Int) (x : String) :
    (s.set name n).find? x
      = if x = name then (s.find? name).map fun v => (v.1, some n) else s.find? x := by
  unfold Store.set
  split
  · exact findSome?_setScopes name n s.scopes x
  · rename_i hunbound
    have hnone : s.find? name = none := Option.not_isSome_iff_eq_none.1 hunbound
    show s.find? x = _
    split
    · rename_i hx
      rw [hx, hnone]
      rfl
    · rfl

theorem Store.globals_set (s : Store) (name : String) (n : Int) :
    (s.set name n).globals
      = if (s.find? name).isSome then s.globals
        else fun x => if x = name then n else s.globals x := by
  unfold Store.set
  split <;> rfl

/-- The variables of the source are lawful cells. -/
theorem cells_lawful (types : List (String × Ty)) : (cells types).Lawful := by
  intro s r n q
  cases r with
  | member object field =>
      show (cells types).cell s q = _
      split
      · rename_i hq
        rw [hq]
        rfl
      · rfl
  | named name =>
      cases q with
      | member object field => exact (if_neg nofun).symm
      | named x =>
          show (((s.set name n).find? x).orElse fun _ => (types.lookup x).bind fun ty =>
            if ty.isInteger then some (ty, some ((s.set name n).globals x)) else none) = _
          rw [Store.find?_set, Store.globals_set]
          by_cases hx : x = name
          · subst hx
            rw [if_pos rfl, if_pos rfl]
            show _ = Option.map _ ((s.find? x).orElse fun _ => _)
            cases s.find? x with
            | some v => rfl
            | none =>
                show (types.lookup x).bind _ = Option.map _ ((types.lookup x).bind _)
                cases types.lookup x with
                | none => rfl
                | some ty =>
                    show (if ty.isInteger then some (ty, some (if x = x then n else _)) else none)
                      = Option.map _ (if ty.isInteger then _ else none)
                    rw [if_pos rfl]
                    split <;> rfl
          · have hne : Ref.named x ≠ Ref.named name := fun heq => hx (Ref.named.inj heq)
            rw [if_neg hx, if_neg hne]
            have hsame : (if (s.find? name).isSome then s.globals
                else fun y => if y = name then n else s.globals y) x = s.globals x := by
              split
              · rfl
              · exact if_neg hx
            rw [hsame]
            rfl

end MiniC.Source
