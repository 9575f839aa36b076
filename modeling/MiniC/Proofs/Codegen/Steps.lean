/-
The steps of code generation taken apart, and what they leave alone.

# Inversion

A step that succeeds has asked the frame something, changed the frame, handed out a
label or interned a string. Each has a lemma that says what it answered and what the
state behind it is (`framed_ok` and its like). What is saved is put between a push
and a pop (`saved_ok`), and what is read in a scope is read with the frame that a
scope was pushed to (`inScope_ok`).

# Calm steps

The code of an expression names no variable and hands out no label: behind it the
frame has the scopes, the depth and the next label of before, and the pushes are
balanced (`Calm`). Everything that is said about a name or a label across an
expression rests on this. A step is `Quiet` if it leads from each state to a calm
one; quiet steps follow each other, and each rule is quiet if the runs of its
operands are, which an induction on the expression then supplies (`eval_quiet`).

# Loops and arms

Loops and arms are cut into the part that folding decides and the steps that are left
(`loopSteps`, `armSteps`). Which of them is taken is known where the condition is
constant, so the proofs about labels and about meaning divide in the same places.

Consumed by the proofs about expressions, statements and frames.
-/
import MiniC.Codegen.Program
import MiniC.Proofs.Steps

namespace MiniC.Codegen

open Asm Steps

-- ============================================================ inversion

theorem fail_ok {α : Type} {e : GenError} {s : State} {r : α × State} :
    (fail e : Gen α) s = .ok r ↔ False :=
  throw_ok

theorem liftEval_ok {α : Type} {x : Except EvalError α} {a : α} :
    GenError.liftEval x = .ok a ↔ x = .ok a := by
  cases x with
  | error e =>
      constructor
      · intro h
        cases h
      · intro h
        cases h
  | ok b => exact Iff.of_eq (by rw [GenError.liftEval, Except.ok.injEq, Except.ok.injEq])

/-- A step on the frame changes nothing but the frame. -/
theorem framed_ok {α : Type} {f : Frame → α × Frame} {s t : State} {a : α} :
    framed f s = .ok (a, t) ↔ ∃ frame, f s.frame = (a, frame) ∧ t = { s with frame } := by
  unfold framed
  rw [modifyGet_ok]
  constructor
  · intro h
    cases h
    exact ⟨(f s.frame).2, rfl, rfl⟩
  · rintro ⟨frame, hf, rfl⟩
    rw [hf]

/-- A step on the frame that succeeds changes nothing but the frame. -/
theorem framed?_ok {α : Type} {f : Frame → Option (α × Frame)} {s t : State} {a : α} :
    framed? f s = .ok (a, t) ↔
      ∃ frame, f s.frame = some (a, frame) ∧ t = { s with frame } := by
  unfold framed?
  simp only [bind_ok, get_ok]
  constructor
  · rintro ⟨_, _, ⟨rfl, rfl⟩, h⟩
    cases hf : f s.frame with
    | none =>
        rw [hf] at h
        exact (fail_ok.1 h).elim
    | some found =>
        obtain ⟨b, frame⟩ := found
        rw [hf] at h
        obtain ⟨_, _, hset, hpure⟩ := bind_ok.1 h
        obtain ⟨rfl, rfl⟩ := pure_ok.1 hpure
        exact ⟨frame, rfl, (set_ok.1 hset).symm⟩
  · rintro ⟨frame, hf, rfl⟩
    refine ⟨s, s, ⟨rfl, rfl⟩, ?_⟩
    rw [hf]
    rfl

/-- Handing out a slot changes nothing but the depth. -/
theorem alloc?_kept {f g : Frame} {size align offset : Nat}
    (h : f.alloc? size align = some (offset, g)) : g = { f with depth := offset } := by
  unfold Frame.alloc? at h
  simp only [Option.bind_eq_bind, Option.bind_eq_some_iff, Option.pure_def, Option.some.injEq,
    Prod.mk.injEq] at h
  obtain ⟨_, -, _, -, rfl, rfl⟩ := h
  rfl

/-- A place is looked for in the frame as it is. -/
theorem placeOf_ok {env : Env} {e : Expr} {s t : State} {p : Option (Place × Ty)} :
    placeOf env e s = .ok (p, t) ↔ env.place? s.frame e = .ok p ∧ t = s := by
  unfold placeOf
  simp only [bind_ok, get_ok, lift_ok]
  constructor
  · rintro ⟨_, _, ⟨rfl, rfl⟩, h, rfl⟩
    exact ⟨h, rfl⟩
  · rintro ⟨h, rfl⟩
    exact ⟨t, t, ⟨rfl, rfl⟩, h, rfl⟩

/-- A target is looked for in the frame as it is. -/
theorem targetOf_ok {env : Env} {e : Expr} {s t : State} {p : Place × Ty} :
    targetOf env e s = .ok (p, t) ↔ env.target s.frame e = .ok p ∧ t = s := by
  unfold targetOf
  simp only [bind_ok, get_ok, lift_ok]
  constructor
  · rintro ⟨_, _, ⟨rfl, rfl⟩, h, rfl⟩
    exact ⟨h, rfl⟩
  · rintro ⟨h, rfl⟩
    exact ⟨t, t, ⟨rfl, rfl⟩, h, rfl⟩

theorem typeOfExpr_ok {env : Env} {e : Expr} {s t : State} {ty : Ty} :
    typeOfExpr env e s = .ok (ty, t) ↔ env.typeOf s.frame e = .ok ty ∧ t = s := by
  unfold typeOfExpr
  simp only [bind_ok, get_ok, lift_ok]
  constructor
  · rintro ⟨_, _, ⟨rfl, rfl⟩, h, rfl⟩
    exact ⟨h, rfl⟩
  · rintro ⟨h, rfl⟩
    exact ⟨t, t, ⟨rfl, rfl⟩, h, rfl⟩

/-- A label handed out is the frame's next one. -/
theorem freshLabel_ok {s t : State} {n : Nat} :
    freshLabel s = .ok (n, t) ↔
      n = s.frame.nextLabel
        ∧ t = { s with frame := { s.frame with nextLabel := n + 1 } } := by
  unfold freshLabel
  rw [framed_ok]
  constructor
  · rintro ⟨frame, h, rfl⟩
    cases h
    exact ⟨rfl, rfl⟩
  · rintro ⟨rfl, rfl⟩
    exact ⟨_, rfl, rfl⟩

/-- A scope is popped that was pushed, whatever is answered in it. -/
theorem scoped_ok {α : Type} {step : Gen α} {s t : State} {a : α} :
    (do
      framed fun f => ((), f.pushScope)
      let a ← step
      framed fun f => ((), f.popScope)
      return a : Gen α) s = .ok (a, t) ↔
      ∃ u, step { s with frame := s.frame.pushScope } = .ok (a, u)
        ∧ t = { u with frame := u.frame.popScope } := by
  simp only [bind_ok, framed_ok, pure_ok]
  constructor
  · rintro ⟨_, _, ⟨_, h, rfl⟩, _, u, hstep, _, _, ⟨_, h', rfl⟩, rfl, rfl⟩
    cases h
    cases h'
    exact ⟨u, hstep, rfl⟩
  · rintro ⟨u, hstep, rfl⟩
    exact ⟨(), _, ⟨_, rfl, rfl⟩, a, u, hstep, (), _, ⟨_, rfl, rfl⟩, rfl, rfl⟩

/-- A scope is popped that was pushed. -/
theorem inScope_ok {step : Gen Lines} {s t : State} {ls : Lines} :
    inScope step s = .ok (ls, t) ↔
      ∃ u, step { s with frame := s.frame.pushScope } = .ok (ls, u)
        ∧ t = { u with frame := u.frame.popScope } := by
  unfold inScope
  exact scoped_ok

/-- What is saved stands between a push and the pop that takes it back. -/
theorem saved_ok {step : Gen Code} {s t : State} {code : Code} :
    saved step s = .ok (code, t) ↔
      ∃ inner u frame, step { s with frame := s.frame.push } = .ok (inner, u)
        ∧ u.frame.pop? = some frame ∧ t = { u with frame }
        ∧ code = .push .rax :: inner ++ [.pop .rax] := by
  unfold saved
  simp only [bind_ok, framed_ok, framed?_ok, pure_ok]
  constructor
  · rintro ⟨_, _, ⟨_, h, rfl⟩, inner, u, hstep, _, _, ⟨_, hpop, rfl⟩, rfl, rfl⟩
    cases h
    obtain ⟨frame, hframe, hpair⟩ := Option.map_eq_some_iff.1 hpop
    cases hpair
    exact ⟨inner, u, _, hstep, hframe, rfl, rfl⟩
  · rintro ⟨inner, u, frame, hstep, hpop, rfl, rfl⟩
    refine ⟨(), _, ⟨_, rfl, rfl⟩, inner, u, hstep, (), _, ⟨frame, ?_, rfl⟩, rfl, rfl⟩
    rw [hpop]
    rfl

-- ========================================================== calm steps

/-- Whether a state differs from another at most in the strings and in
whether anything was ever pushed. -/
structure Calm (s t : State) : Prop where
  scopes : t.frame.scopes = s.frame.scopes
  depth : t.frame.depth = s.frame.depth
  pushed : t.frame.pushed = s.frame.pushed
  nextLabel : t.frame.nextLabel = s.frame.nextLabel

theorem Calm.refl (s : State) : Calm s s := ⟨rfl, rfl, rfl, rfl⟩

/-- What is left alone twice is left alone. -/
theorem Calm.trans {s t u : State} (h : Calm s t) (h' : Calm t u) : Calm s u :=
  ⟨h'.scopes.trans h.scopes, h'.depth.trans h.depth, h'.pushed.trans h.pushed,
    h'.nextLabel.trans h.nextLabel⟩

/-- A step that leaves a calm state behind. -/
abbrev Quiet {α : Type} (step : Gen α) : Prop := Keeps Calm step

section Quiet

variable {α β : Type}

theorem Quiet.bind {x : Gen α} {f : α → Gen β} (hx : Quiet x) (hf : ∀ a, Quiet (f a)) :
    Quiet (x >>= f) :=
  Keeps.bind (R := Calm) (fun _ _ _ => Calm.trans) hx hf

theorem Quiet.pure (a : α) : Quiet (pure a : Gen α) := by
  intro s b t h
  obtain ⟨-, rfl⟩ := pure_ok.1 h
  exact Calm.refl s

theorem Quiet.lift (x : Except GenError α) : Quiet (liftM x : Gen α) := by
  intro s b t h
  obtain ⟨-, rfl⟩ := lift_ok.1 h
  exact Calm.refl s

theorem Quiet.fail (e : GenError) : Quiet (fail e : Gen α) := by
  intro s b t h
  exact (fail_ok.1 h).elim

theorem Quiet.ite {c : Prop} [Decidable c] {x y : Gen α} (hx : Quiet x) (hy : Quiet y) :
    Quiet (if c then x else y) := by
  split
  · exact hx
  · exact hy

end Quiet

theorem placeOf_quiet (env : Env) (e : Expr) : Quiet (placeOf env e) := by
  intro s p t h
  obtain ⟨-, rfl⟩ := placeOf_ok.1 h
  exact Calm.refl t

theorem targetOf_quiet (env : Env) (e : Expr) : Quiet (targetOf env e) := by
  intro s p t h
  obtain ⟨-, rfl⟩ := targetOf_ok.1 h
  exact Calm.refl t

theorem typeOfExpr_quiet (env : Env) (e : Expr) : Quiet (typeOfExpr env e) := by
  intro s p t h
  obtain ⟨-, rfl⟩ := typeOfExpr_ok.1 h
  exact Calm.refl t

/-- A string that is interned leaves the frame alone. -/
theorem intern_quiet (value : String) : Quiet (intern value) := by
  intro s label t h
  unfold intern at h
  cases modifyGet_ok.1 h
  exact ⟨rfl, rfl, rfl, rfl⟩

/-- A push and a pop around a calm step are balanced. -/
theorem saved_quiet {step : Gen Code} (hstep : Quiet step) : Quiet (saved step) := by
  intro s code t h
  obtain ⟨inner, u, frame, hrun, hpop, rfl, -⟩ := saved_ok.1 h
  have hcalm := hstep _ _ _ hrun
  unfold Frame.pop? at hpop
  split at hpop
  · cases hpop
  · cases hpop
    refine ⟨hcalm.scopes, hcalm.depth, ?_, hcalm.nextLabel⟩
    have hpushed : u.frame.pushed = s.frame.pushed + 8 := hcalm.pushed
    show u.frame.pushed - 8 = s.frame.pushed
    rw [hpushed, Nat.add_sub_cancel]

section Expressions

variable {env : Env} {e lhs rhs : Expr} {run runLeft runRight : Gen (Code × Ty)}

/-- A value that is computed and converted. -/
theorem converted_ok {target : Ty} {s t : State} {code : Code}
    (h : (do
      let (code, source) ← run
      let conversion ← convert source target
      return code ++ conversion : Gen Code) s = .ok (code, t)) :
    ∃ first source conversion, run s = .ok ((first, source), t)
      ∧ convert source target = .ok conversion ∧ code = first ++ conversion := by
  simp only [bind_ok, lift_ok, pure_ok] at h
  obtain ⟨⟨first, source⟩, u, hfirst, conversion, _, ⟨hconversion, rfl⟩, rfl, rfl⟩ := h
  exact ⟨first, source, conversion, hfirst, hconversion, rfl⟩

/-- An operand for rax is loaded from its place, or computed and converted. -/
theorem evalTo_ok {s t : State} {code : Code} {target : Ty}
    (h : evalTo env e run target s = .ok (code, t)) :
    (∃ place source, env.place? s.frame e = .ok (some (place, source))
        ∧ loadInto .rax place source target = .ok code ∧ t = s)
      ∨ ∃ first source conversion, run s = .ok ((first, source), t)
        ∧ convert source target = .ok conversion ∧ code = first ++ conversion := by
  unfold evalTo at h
  split at h
  · obtain ⟨_, _, hnone, hrest⟩ := bind_ok.1 h
    obtain ⟨rfl, rfl⟩ := pure_ok.1 hnone
    exact Or.inr (converted_ok hrest)
  · obtain ⟨found, _, hfound, hrest⟩ := bind_ok.1 h
    obtain ⟨hplace, rfl⟩ := placeOf_ok.1 hfound
    cases found with
    | none => exact Or.inr (converted_ok hrest)
    | some found =>
        obtain ⟨hload, rfl⟩ := lift_ok.1 hrest
        exact Or.inl ⟨found.1, found.2, hplace, hload, rfl⟩

theorem evalTo_quiet (hrun : Quiet run) (ty : Ty) : Quiet (evalTo env e run ty) := by
  intro s code t h
  rcases evalTo_ok h with ⟨_, _, -, -, rfl⟩ | ⟨first, source, _, hfirst, -, -⟩
  · exact Calm.refl _
  · exact hrun s _ t hfirst

/-- A right operand leaves the frame alone, saved or not. -/
theorem rightOperand_quiet (hrun : Quiet run) (ty : Ty) :
    Quiet (rightOperand env e run ty) := by
  unfold rightOperand
  refine Quiet.bind (Quiet.lift _) fun width => Quiet.ite ?_ ?_
  · refine Quiet.bind (Quiet.lift _) fun lit => Quiet.ite (Quiet.fail _) ?_
    exact Quiet.bind (Quiet.lift _) fun n => Quiet.ite (Quiet.pure _) (Quiet.pure _)
  · refine Quiet.bind (placeOf_quiet env e) fun place => ?_
    cases place with
    | some found =>
        refine Quiet.ite (Quiet.fail _) (Quiet.bind (Quiet.lift _) fun src => ?_)
        exact Quiet.ite (Quiet.pure _)
          (Quiet.bind (Quiet.lift _) fun code => Quiet.pure _)
    | none =>
        refine Quiet.bind (saved_quiet ?_) fun code => Quiet.pure _
        exact Quiet.bind (evalTo_quiet hrun ty) fun code => Quiet.pure _

/-- Two operands leave the frame alone. -/
theorem operands_quiet (hleft : Quiet runLeft) (hright : Quiet runRight) :
    Quiet (operands env lhs rhs runLeft runRight) := by
  unfold operands
  refine Quiet.bind (typeOfExpr_quiet env lhs) fun left => ?_
  refine Quiet.bind (typeOfExpr_quiet env rhs) fun right => Quiet.ite (Quiet.fail _) ?_
  refine Quiet.ite (Quiet.fail _) (Quiet.bind (Quiet.lift _) fun width => ?_)
  refine Quiet.bind (evalTo_quiet hleft _) fun first => ?_
  exact Quiet.bind (rightOperand_quiet hright _) fun second => Quiet.pure _

theorem evalArith_quiet (op : Arith) (hleft : Quiet runLeft) (hright : Quiet runRight) :
    Quiet (evalArith env op lhs rhs runLeft runRight) :=
  Quiet.bind (operands_quiet hleft hright) fun _ => Quiet.pure _

theorem evalCompare_quiet (op : Comparison) (hleft : Quiet runLeft)
    (hright : Quiet runRight) : Quiet (evalCompare env op lhs rhs runLeft runRight) :=
  Quiet.bind (operands_quiet hleft hright) fun _ => Quiet.pure _

theorem storeValue_quiet (place : Place) (target : Ty) (hrun : Quiet run) :
    Quiet (storeValue env place target e run) := by
  unfold storeValue
  refine Quiet.ite (Quiet.bind (Quiet.lift _) fun lit => Quiet.lift _) ?_
  refine Quiet.bind (placeOf_quiet env e) fun found => ?_
  cases found with
  | some found =>
      exact Quiet.bind (Quiet.lift _) fun code => Quiet.bind (Quiet.lift _) fun _ => Quiet.pure _
  | none => exact Quiet.bind hrun fun _ => Quiet.bind (Quiet.lift _) fun _ => Quiet.pure _

/-- An assignment leaves the frame alone. -/
theorem assignPlain_quiet (hright : Quiet runRight) :
    Quiet (assignPlain env lhs rhs runRight) :=
  Quiet.bind (targetOf_quiet env lhs) fun _ => storeValue_quiet _ _ hright

theorem assignCompound_quiet (op : Arith) (hleft : Quiet runLeft)
    (hright : Quiet runRight) : Quiet (assignCompound env op lhs rhs runLeft runRight) :=
  Quiet.bind (targetOf_quiet env lhs) fun _ =>
    Quiet.bind (evalArith_quiet op hleft hright) fun _ =>
      Quiet.bind (Quiet.lift _) fun _ => Quiet.pure _

theorem reloaded_quiet {assign : Gen Code} (hassign : Quiet assign) :
    Quiet (reloaded env lhs assign) :=
  Quiet.bind (targetOf_quiet env lhs) fun _ =>
    Quiet.bind hassign fun _ => Quiet.bind (Quiet.lift _) fun _ => Quiet.pure _

/-- A step leaves the frame alone. -/
theorem evalStep_quiet (op : Arith) (fixity : Fixity) :
    Quiet (evalStep env op fixity e) := by
  unfold evalStep
  refine Quiet.bind (targetOf_quiet env e) fun found => ?_
  refine Quiet.bind (Quiet.lift _) fun width => Quiet.bind (Quiet.lift _) fun update => ?_
  cases fixity with
  | before => exact Quiet.pure _
  | after => exact Quiet.pure _

theorem evalSign_quiet (negative : Bool) (hrun : Quiet run) :
    Quiet (evalSign env negative e run) := by
  unfold evalSign
  refine Quiet.bind (typeOfExpr_quiet env e) fun ty => Quiet.ite (Quiet.fail _) ?_
  refine Quiet.bind (evalTo_quiet hrun _) fun code => Quiet.ite ?_ (Quiet.pure _)
  exact Quiet.bind (Quiet.lift _) fun width => Quiet.pure _

theorem evalConstant_quiet : Quiet (evalConstant e) := by
  unfold evalConstant
  refine Quiet.bind (Quiet.lift _) fun lit => Quiet.ite (Quiet.fail _) ?_
  exact Quiet.bind (Quiet.lift _) fun n => Quiet.bind (Quiet.lift _) fun width => Quiet.pure _

theorem evalPlace_quiet : Quiet (evalPlace env e) := by
  unfold evalPlace
  refine Quiet.bind (targetOf_quiet env e) fun found => Quiet.ite (Quiet.fail _) ?_
  exact Quiet.bind (Quiet.lift _) fun code => Quiet.pure _

/-- The code of an expression is generated from a calm state to a calm
state. -/
theorem eval_quiet (env : Env) (e : Expr) : Quiet (eval env e) := by
  induction e with
  | number lit => exact evalConstant_quiet
  | string lit => exact Quiet.bind (intern_quiet _) fun _ => Quiet.pure _
  | ident i => exact evalPlace_quiet
  | member object accessor field pos => exact evalPlace_quiet
  | binary op lhs rhs constant operandsMatch pos ihl ihr =>
      unfold eval
      refine Quiet.ite evalConstant_quiet ?_
      cases op with
      | assign => exact reloaded_quiet (assignPlain_quiet ihr)
      | compound op => exact reloaded_quiet (assignCompound_quiet op ihl ihr)
      | arith op => exact evalArith_quiet op ihl ihr
      | compare op => exact evalCompare_quiet op ihl ihr
  | unary op fixity operand pos ih =>
      cases op with
      | plus => exact evalSign_quiet false ih
      | minus => exact evalSign_quiet true ih
      | not => exact Quiet.bind ih fun _ => Quiet.bind (Quiet.lift _) fun _ => Quiet.pure _
      | incr => exact evalStep_quiet .add fixity
      | decr => exact evalStep_quiet .sub fixity

theorem stepEffect_quiet (op : Arith) : Quiet (stepEffect env op e) :=
  Quiet.bind (targetOf_quiet env e) fun _ => Quiet.bind (Quiet.lift _) fun _ => Quiet.pure _

/-- An expression for its effect leaves the frame alone. -/
theorem effect_quiet (env : Env) (e : Expr) : Quiet (effect env e) := by
  unfold effect
  split
  · exact assignPlain_quiet (eval_quiet env _)
  · exact assignCompound_quiet _ (eval_quiet env _) (eval_quiet env _)
  · exact stepEffect_quiet .add
  · exact stepEffect_quiet .sub
  · exact Keeps.map (eval_quiet env _)

/-- A test leaves the frame alone. -/
theorem test_quiet (env : Env) (e : Expr) : Quiet (test env e) := by
  unfold test
  refine Quiet.bind (placeOf_quiet env e) fun place => ?_
  cases place with
  | some found => exact Quiet.ite (Quiet.fail _) (Quiet.bind (Quiet.lift _) fun _ => Quiet.pure _)
  | none =>
      exact Quiet.bind (eval_quiet env e) fun _ => Quiet.bind (Quiet.lift _) fun _ => Quiet.pure _

end Expressions

-- ============================================================ statements

/-- The lines of a loop that may run. -/
def loopSteps (env : Env) (e : Expr) (body : List Stmt) : Gen Lines := do
  let enter ← freshLabel
  let check ← freshLabel
  let inner ← inScope (stmts env body)
  let bottom ←
    if e.isConstant then pure [Line.jump .jmp enter]
    else do
      let code ← test env e
      pure (lines code ++ [.jump .jne enter])
  return [.jump .jmp check, .label enter] ++ inner ++ [.label check] ++ bottom

/-- A loop is nothing where its condition is always false, and its steps elsewhere. -/
theorem stmt_loop (env : Env) (e : Expr) (body : List Stmt) (pos : Position) :
    stmt env (.loop e body pos) = (do
      let never ← if e.isConstant then liftM (GenError.liftEval e.foldsToZero) else pure false
      if never then return [] else loopSteps env e body) := by
  unfold stmt
  rfl

/-- The lines of an arm whose condition does not fold, when the label that
ends the chain is given, and behind them an ending. -/
def armSteps (env : Env) (e : Expr) (consequent : List Stmt) (alternate : Alternate) (done : Nat)
    (ending : Lines) : Gen Lines :=
  match alternate with
  | .none => do
    let code ← test env e
    let inner ← inScope (stmts env consequent)
    return lines code ++ [.jump .je done] ++ inner ++ ending
  | alternate => do
    let other ← freshLabel
    let code ← test env e
    let inner ← inScope (stmts env consequent)
    let skip : Lines := if endsInEpilogue inner then [] else [.jump .jmp done]
    let outer ← otherwise env (some done) alternate
    return lines code ++ [.jump .je other] ++ inner ++ skip ++ [.label other] ++ outer ++ ending

/-- Of an arm whose condition folds one way is left. -/
theorem ifArm_folded {env : Env} {e : Expr} (hc : e.isConstant = true) (consequent : List Stmt)
    (alternate : Alternate) (pos : Position) (shared : Option Nat) :
    ifArm env shared ⟨e, consequent, alternate, pos⟩ = (do
      let zero ← liftM (GenError.liftEval e.foldsToZero)
      if zero then otherwise env shared alternate else inScope (stmts env consequent)) := by
  unfold ifArm
  rw [if_pos hc]

section Arms

variable {env : Env} {e : Expr} (hc : ¬ e.isConstant = true) (consequent : List Stmt)
  (alternate : Alternate) (pos : Position)

include hc

/-- An arm behind another has its label. -/
theorem ifArm_shared (done : Nat) :
    ifArm env (some done) ⟨e, consequent, alternate, pos⟩
      = armSteps env e consequent alternate done [] := by
  unfold ifArm
  rw [if_neg hc]
  cases alternate <;> rfl

/-- The first arm makes the label that ends the chain. -/
theorem ifArm_first :
    ifArm env none ⟨e, consequent, alternate, pos⟩ = (do
      let done ← freshLabel
      armSteps env e consequent alternate done
        (if !armReturns ⟨e, consequent, alternate, pos⟩ then [.label done] else [])) := by
  unfold ifArm
  rw [if_neg hc]
  cases alternate <;> rfl

end Arms

end MiniC.Codegen
