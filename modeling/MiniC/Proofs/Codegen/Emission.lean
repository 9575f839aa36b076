/-
Code for an expression has at least one instruction, whether its value is
left in rax, stored or given up (`eval_ne_nil`, `effect_ne_nil`). So the last line
behind a statement is an epilogue only where the statement put one.

Most rules end in a move or an operation of their own and need nothing of their
operands. Two do not: converting a value to the type it has already adds nothing, and
a sign in front of a value that is a plus leaves it as it is. These take from the run
of their operand that it is not empty (`evalTo_ne_nil`, `evalSign_ne_nil`).

Consumed by the proofs about how generated code ends.
-/
import MiniC.Proofs.Codegen.Steps

namespace MiniC.Codegen

open Asm Steps

variable {env : Env}

/-- A load is an instruction. -/
theorem loadInto_ne_nil {r : Reg} {place : Place} {source target : Ty} {code : Code}
    (h : loadInto r place source target = .ok code) : code ≠ [] := by
  unfold loadInto at h
  simp only [except_bind_ok] at h
  obtain ⟨src, -, dst, -, h⟩ := h
  repeat' split at h
  all_goals cases h
  all_goals exact List.cons_ne_nil _ _

/-- A value is stored by an instruction. -/
theorem storeValue_ne_nil {place : Place} {target : Ty} {e : Expr} {run : Gen (Code × Ty)}
    {s t : State} {code : Code} (h : storeValue env place target e run s = .ok (code, t)) :
    code ≠ [] := by
  unfold storeValue at h
  split at h
  · simp only [bind_ok, lift_ok] at h
    obtain ⟨lit, _, -, hlit, -⟩ := h
    unfold storeLiteral at hlit
    split at hlit
    · obtain ⟨real, -, hpure⟩ := except_bind_ok.1 hlit
      cases hpure
      exact List.cons_ne_nil _ _
    · obtain ⟨real, -, hpure⟩ := except_bind_ok.1 hlit
      cases hpure
      exact List.cons_ne_nil _ _
    · cases hlit
    · cases hlit
    · cases hlit
    · split at hlit
      · cases hlit
      · simp only [except_bind_ok] at hlit
        obtain ⟨dst, -, n, -, hlit⟩ := hlit
        split at hlit <;> cases hlit <;> exact List.cons_ne_nil _ _
  · obtain ⟨found, u, -, h⟩ := bind_ok.1 h
    cases found with
    | some found =>
        simp only [bind_ok, lift_ok, pure_ok] at h
        obtain ⟨load, _, -, dst, _, -, rfl, -⟩ := h
        exact List.append_ne_nil_of_right_ne_nil _ (List.cons_ne_nil _ _)
    | none =>
        simp only [bind_ok, lift_ok, pure_ok] at h
        obtain ⟨run, _, -, stored, _, ⟨hstored, -⟩, rfl, -⟩ := h
        unfold storeRax at hstored
        simp only [except_bind_ok] at hstored
        obtain ⟨conversion, -, dst, -, hpure⟩ := hstored
        cases hpure
        exact List.append_ne_nil_of_right_ne_nil _
          (List.append_ne_nil_of_right_ne_nil _ (List.cons_ne_nil _ _))

/-- A value of some type takes what the value takes. -/
theorem evalTo_ne_nil {e : Expr} {run : Gen (Code × Ty)} {ty : Ty} {s t : State} {code : Code}
    (hrun : ∀ {s t : State} {r : Code × Ty}, run s = .ok (r, t) → r.1 ≠ [])
    (h : evalTo env e run ty s = .ok (code, t)) : code ≠ [] := by
  rcases evalTo_ok h with ⟨place, source, -, hload, -⟩ | ⟨first, source, conversion, hfirst, -, rfl⟩
  · exact loadInto_ne_nil hload
  · exact List.append_ne_nil_of_left_ne_nil (hrun hfirst) _

theorem evalConstant_ne_nil {e : Expr} {s t : State} {r : Code × Ty}
    (h : evalConstant e s = .ok (r, t)) : r.1 ≠ [] := by
  unfold evalConstant at h
  obtain ⟨lit, u, -, h⟩ := bind_ok.1 h
  split at h
  · exact (fail_ok.1 h).elim
  · simp only [bind_ok, pure_ok] at h
    obtain ⟨n, _, -, width, _, -, rfl, -⟩ := h
    exact List.cons_ne_nil _ _

theorem evalPlace_ne_nil {e : Expr} {s t : State} {r : Code × Ty}
    (h : evalPlace env e s = .ok (r, t)) : r.1 ≠ [] := by
  unfold evalPlace at h
  obtain ⟨⟨place, ty⟩, u, -, h⟩ := bind_ok.1 h
  dsimp only at h
  split at h
  · exact (fail_ok.1 h).elim
  · simp only [bind_ok, lift_ok, pure_ok] at h
    obtain ⟨code, _, ⟨hcode, -⟩, rfl, -⟩ := h
    exact loadInto_ne_nil hcode

/-- The value of an assignment is loaded from where it was stored. -/
theorem reloaded_ne_nil {lhs : Expr} {assign : Gen Code} {s t : State} {r : Code × Ty}
    (h : reloaded env lhs assign s = .ok (r, t)) : r.1 ≠ [] := by
  unfold reloaded at h
  simp only [bind_ok, lift_ok, pure_ok] at h
  obtain ⟨found, _, -, code, _, -, load, _, ⟨hload, -⟩, rfl, -⟩ := h
  exact List.append_ne_nil_of_right_ne_nil _ (loadInto_ne_nil hload)

/-- A step is an instruction. -/
theorem evalStep_ne_nil {op : Arith} {fixity : Fixity} {e : Expr} {s t : State} {r : Code × Ty}
    (h : evalStep env op fixity e s = .ok (r, t)) : r.1 ≠ [] := by
  unfold evalStep at h
  cases fixity <;>
    simp only [bind_ok, lift_ok, pure_ok] at h <;>
    obtain ⟨found, _, -, width, _, -, update, _, -, rfl, -⟩ := h <;>
    exact List.cons_ne_nil _ _

theorem evalSign_ne_nil {negative : Bool} {e : Expr} {run : Gen (Code × Ty)} {s t : State}
    {r : Code × Ty} (hrun : ∀ {s t : State} {r : Code × Ty}, run s = .ok (r, t) → r.1 ≠ [])
    (h : evalSign env negative e run s = .ok (r, t)) : r.1 ≠ [] := by
  unfold evalSign at h
  obtain ⟨ty, u, -, h⟩ := bind_ok.1 h
  split at h
  · exact (fail_ok.1 h).elim
  · obtain ⟨code, v, hcode, h⟩ := bind_ok.1 h
    split at h
    · simp only [bind_ok, pure_ok] at h
      obtain ⟨width, _, -, rfl, -⟩ := h
      exact List.append_ne_nil_of_right_ne_nil _ (List.cons_ne_nil _ _)
    · obtain ⟨rfl, -⟩ := pure_ok.1 h
      exact evalTo_ne_nil hrun hcode

theorem arithCode_ne_nil (op : Arith) (width : Width) (operand : Operand) :
    arithCode op width operand ≠ [] := by
  cases op with
  | div => cases operand <;> exact List.cons_ne_nil _ _
  | _ => exact List.cons_ne_nil _ _

theorem evalArith_ne_nil {op : Arith} {lhs rhs : Expr} {runLeft runRight : Gen (Code × Ty)}
    {s t : State} {r : Code × Ty}
    (h : evalArith env op lhs rhs runLeft runRight s = .ok (r, t)) : r.1 ≠ [] := by
  unfold evalArith at h
  simp only [bind_ok, pure_ok] at h
  obtain ⟨parts, _, -, rfl, -⟩ := h
  exact List.append_ne_nil_of_right_ne_nil _ (arithCode_ne_nil _ _ _)

/-- No expression is computed by no instruction. -/
theorem eval_ne_nil (e : Expr) {s t : State} {r : Code × Ty}
    (h : eval env e s = .ok (r, t)) : r.1 ≠ [] := by
  induction e generalizing s t r with
  | number lit => exact evalConstant_ne_nil h
  | string lit =>
      unfold eval at h
      simp only [bind_ok, pure_ok] at h
      obtain ⟨label, _, -, rfl, -⟩ := h
      exact List.cons_ne_nil _ _
  | ident i => exact evalPlace_ne_nil h
  | member object accessor field pos => exact evalPlace_ne_nil h
  | binary op lhs rhs constant operandsMatch pos ihl ihr =>
      unfold eval at h
      split at h
      · exact evalConstant_ne_nil h
      · cases op with
        | assign => exact reloaded_ne_nil h
        | compound op => exact reloaded_ne_nil h
        | arith op => exact evalArith_ne_nil h
        | compare op =>
            unfold evalCompare at h
            simp only [bind_ok, pure_ok] at h
            obtain ⟨parts, _, -, rfl, -⟩ := h
            exact List.append_ne_nil_of_right_ne_nil _ (List.cons_ne_nil _ _)
  | unary op fixity operand pos ih =>
      unfold eval at h
      cases op with
      | plus => exact evalSign_ne_nil ih h
      | minus => exact evalSign_ne_nil ih h
      | not =>
          simp only [bind_ok, pure_ok] at h
          obtain ⟨inner, _, -, width, _, -, rfl, -⟩ := h
          exact List.append_ne_nil_of_right_ne_nil _ (List.cons_ne_nil _ _)
      | incr => exact evalStep_ne_nil h
      | decr => exact evalStep_ne_nil h

/-- No expression is run for its effects by no instruction. -/
theorem effect_ne_nil {e : Expr} {s t : State} {code : Code}
    (h : effect env e s = .ok (code, t)) : code ≠ [] := by
  unfold effect at h
  split at h
  · obtain ⟨found, u, -, h⟩ := bind_ok.1 h
    exact storeValue_ne_nil h
  · unfold assignCompound at h
    simp only [bind_ok, lift_ok, pure_ok] at h
    obtain ⟨found, _, -, r, _, hr, stored, _, -, rfl, -⟩ := h
    exact List.append_ne_nil_of_left_ne_nil (evalArith_ne_nil hr) _
  · unfold stepEffect at h
    simp only [bind_ok, pure_ok] at h
    obtain ⟨found, _, -, update, _, -, rfl, -⟩ := h
    exact List.cons_ne_nil _ _
  · unfold stepEffect at h
    simp only [bind_ok, pure_ok] at h
    obtain ⟨found, _, -, update, _, -, rfl, -⟩ := h
    exact List.cons_ne_nil _ _
  · obtain ⟨r, hr, rfl⟩ := map_ok.1 h
    exact eval_ne_nil _ hr

end MiniC.Codegen
