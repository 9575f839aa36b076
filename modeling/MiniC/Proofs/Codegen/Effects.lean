/-
What statements do with expressions, beside computing a value.

# Effects

The code of an expression that nobody asks the value of has its effects
(`effect_simulates`). An increment is then done in place and an assignment does
not convert what it has stored; everything else is computed with its value,
which is forgotten (`Simulates.effects`).

# Conditions

The code of a condition leaves a zero flag that tells whether the condition
fails (`test_simulates`). What is in a place is compared with zero there, in the
width of the place; what is computed is compared in rax.
Consumed by the proof that generated functions follow the source.
-/
import MiniC.Proofs.Codegen.Expressions
import MiniC.Proofs.Source.Sight

namespace MiniC.Codegen

open Asm Steps Machine Machine.Machine Source

variable {env : Env} {f : Frame}

-- ============================================================== effects

/-- What an expression does, without its value. -/
def effects (e : Expr) : Run Valuation Unit := (fun _ => ()) <$> Source.eval refCells true e

/-- Code that leaves the value of an expression somewhere has its effects. -/
theorem Simulates.effects {e : Expr} {refs : List Ref} {code : Code} {m : Machine}
    {Q : Value → Machine → Prop}
    (h : Simulates env f refs code m (Source.eval refCells true e) Q) :
    Simulates env f refs code m (effects e) fun _ _ => True := by
  rw [← List.append_nil code]
  exact h.map fun _ m' _ => ⟨m', rfl, Still.refl m', trivial⟩

/-- Whether a step generates code with the effects of an expression. -/
def Effects (env : Env) (f : Frame) (e : Expr) (run : Gen Code) : Prop :=
  ∀ s code t, s.frame.scopes = f.scopes → run s = .ok (code, t) →
    t.frame.scopes = f.scopes
      ∧ ∀ set m, Reads set e → Truthful set (view env f m) → Ready env f (pushes code) m →
        Simulates env f (assigned e) code m (effects e) fun _ _ => True

theorem Assigns.effects {lhs e : Expr} {run : Gen Code} (h : Assigns env f lhs e run) :
    Effects env f e run := by
  intro s code t hs hrun
  obtain ⟨ht, r, place, ty, -, -, -, -, -, hsim⟩ := h s code t hs hrun
  exact ⟨ht, fun set m hreads hset hready => (hsim set m hreads hset hready).effects⟩

/-- An increment or decrement in place. -/
theorem stepEffect_effects (hf : f.Sound env.program) {op : Arith} (hop : op = .add ∨ op = .sub)
    {fixity : Fixity} {operand e : Expr} (hplain : Plain env f operand)
    (hassigned : assigned e = (ref? operand).toList)
    (hreads : ∀ set, Reads set e → Reads set operand)
    (heval : Source.eval refCells true e
      = Source.eval refCells true operand
        >>= fun old => Source.stepped refCells true op fixity operand old) :
    Effects env f e (stepEffect env op operand) := by
  intro s code t hs h
  unfold stepEffect at h
  simp only [bind_ok, targetOf_ok, lift_ok, pure_ok] at h
  obtain ⟨⟨place, ty⟩, _, ⟨htarget, rfl⟩, update, _, ⟨hupdate, rfl⟩, rfl, rfl⟩ := h
  obtain ⟨r, hr, hplace, hty, -⟩ := targeted hplain hs htarget
  refine ⟨hs, fun set m hset htruth _ => ?_⟩
  have hrange := place_inRange hr hplace hty (hreads set hset) htruth
  have hold : Simulates env f [] [] m (Source.fetch refCells r) fun old m' =>
      m' = m ∧ old = (ty, m.loadPlace (wordOf ty) place) :=
    Simulates.pure (exec_nil m) (Still.refl m) (fetch_cell (cell_view hplace hty m)) ⟨rfl, rfl⟩
  have hvalue : Simulates env f [r] [update] m (Source.eval refCells true e) fun _ _ => True := by
    rw [heval, stepped_ref hr]
    refine Simulates.bind hold ?_
    rintro _ _ - - ⟨rfl, rfl⟩
    rw [← List.append_nil [update]]
    exact (update_simulates hf hop hplace hty hupdate hrange).map
      fun _ m' _ => ⟨m', rfl, Still.refl m', trivial⟩
  rw [hassigned, hr]
  exact hvalue.effects

/-- The code of an expression that nobody asks the value of has its
effects. -/
theorem effect_simulates (hf : f.Sound env.program) {e : Expr} (hplain : Plain env f e)
    (hcombined : e.Combined) : Effects env f e (effect env e) := by
  have hvalue : Effects env f e (Prod.fst <$> eval env e) := by
    intro s code t hs h
    obtain ⟨⟨code', ty⟩, hrun, rfl⟩ := map_ok.1 h
    obtain ⟨ht, -, -, hcomputes⟩ := eval_evaluates hf hplain s code' ty t hs hrun
    exact ⟨ht, fun set m hreads hset hready => (hcomputes set m hreads hset hready).effects⟩
  cases e with
  | binary op lhs rhs constant operandsMatch pos =>
      cases op with
      | assign =>
          obtain rfl := hcombined.open rfl
          obtain ⟨hleft, hright⟩ := hplain
          exact (assignPlain_assigns hf hleft hright (eval_evaluates hf hright)
            operandsMatch pos).effects
      | compound op =>
          obtain rfl := hcombined.open rfl
          obtain ⟨hleft, hright⟩ := hplain
          exact (assignCompound_assigns hf hleft hright (eval_evaluates hf hleft)
            (eval_evaluates hf hright) operandsMatch pos).effects
      | arith op => exact hvalue
      | compare op => exact hvalue
  | unary op fixity operand pos =>
      have hplain : Plain env f operand := hplain
      cases op with
      | incr => exact stepEffect_effects hf (Or.inl rfl) hplain rfl (fun _ => id) rfl
      | decr => exact stepEffect_effects hf (Or.inr rfl) hplain rfl (fun _ => id) rfl
      | plus => exact hvalue
      | minus => exact hvalue
      | not => exact hvalue
  | number lit => exact hvalue
  | string lit => exact hvalue
  | ident i => exact hvalue
  | member object accessor field pos => exact hvalue

-- ============================================================ conditions

/-- Whether the zero flag tells that a condition fails. -/
def Tested (v : Value) (m : Machine) : Prop :=
  ∃ flags, m.flags = some flags ∧ flags.zero = decide (v.2 = 0)

/-- Comparing with zero changes nothing but flags. -/
theorem exec_compareZero {w : Width} {o : Operand} {v : Value} {m : Machine}
    (hwidth : Machine.Machine.width o = .ok w) (hread : m.read w o = .ok v.2)
    (hwrap : Integer.wrap w.bytes v.2 = v.2) :
    ∃ m', exec [.alu .cmp o (.imm 0)] m = .ok m' ∧ Still m m' ∧ Tested v m' := by
  have htwo : twoPlaces o (.imm 0) = false := by cases o <;> rfl
  have hzero : m.read w (.imm 0) = .ok 0 := m.read_zero w
  refine ⟨_, exec_step (m.step_compare hwidth htwo hread hzero) [], ⟨rfl, rfl, rfl⟩, _, rfl, ?_⟩
  show decide (Integer.wrap w.bytes (v.2 - 0) = 0) = _
  rw [Int.sub_zero, hwrap]

/-- The code of a condition leaves a zero flag that tells whether it
fails. -/
theorem test_simulates (hf : f.Sound env.program) {e : Expr} (hplain : Plain env f e)
    {s t : State} {code : Code} (hs : s.frame.scopes = f.scopes)
    (h : test env e s = .ok (code, t)) :
    t.frame.scopes = f.scopes
      ∧ ∀ set m, Reads set e → Truthful set (view env f m) → Ready env f (pushes code) m →
        Simulates env f (assigned e) code m (Source.eval refCells true e) Tested := by
  unfold test at h
  simp only [bind_ok, placeOf_ok] at h
  obtain ⟨found, _, ⟨hfound, rfl⟩, h⟩ := h
  cases found with
  | some found =>
      obtain ⟨place, ty⟩ := found
      obtain ⟨r, hr, hplace, hty, -⟩ := placed hplain hs hfound
      simp only [not_floating hty, Bool.false_eq_true, if_false, bind_ok, lift_ok,
        widthOf_whole hty, Except.ok.injEq] at h
      obtain ⟨_, _, ⟨rfl, rfl⟩, hpure⟩ := h
      cases hpure
      refine ⟨hs, fun set m _ _ _ => ?_⟩
      obtain ⟨m', hexec, hstill, htested⟩ :=
        exec_compareZero (v := (ty, m.loadPlace (wordOf ty) place)) (o := .mem (wordOf ty) place)
          rfl (m.read_mem _ _) (m.wrap_loadPlace_self _ place)
      exact simulates_place hr hplace hty hexec hstill htested
  | none =>
      simp only [bind_ok, lift_ok] at h
      obtain ⟨⟨first, ty⟩, u, hfirst, w, _, ⟨hw, rfl⟩, hpure⟩ := h
      cases hpure
      obtain ⟨hu, -, hty, hcomputes⟩ := eval_evaluates hf hplain _ _ _ _ hs hfirst
      rw [widthOf_whole hty] at hw
      cases hw
      refine ⟨hu, fun set m hreads hset hready => ?_⟩
      rw [pushes_append] at hready
      refine (hcomputes set m hreads hset (hready.mono (Nat.le_add_right _ _))).andThen ?_
      rintro ⟨ty', n⟩ m' ⟨rfl, hrange, hlow⟩
      have hwrap := hrange.wrap hty
      rw [← bytes_wordOf hty] at hwrap
      refine exec_compareZero (v := (ty', n)) rfl ?_ hwrap
      show m'.read _ (.reg _ .rax) = _
      rw [read_reg, hlow]

end MiniC.Codegen
