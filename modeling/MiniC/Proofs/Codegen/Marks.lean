/-
Every push leaves a mark on the frame, and marks and slots stay. So a frame
that is not marked behind a function belongs to code without a push, and the
frame behind a function is deep enough for every slot in it (`stmts_marks`).

# Why marks

A function that pushes nothing may keep its slots below the stack pointer and need
not move it; one that pushes must reserve its frame first, or a push would land on
a slot. The generator decides by the mark, which is set when operands are saved and
never taken back, while the code that the mark is about is put together elsewhere.
What connects them is a count: `Marked s t n` says that the frame got no shallower
between two states and is marked if it was, or if there are pushes among the `n`
that were counted.

# The count

`Marks count step` says that whatever a step answers, the frame behind it is marked
for as many pushes as `count` finds in the answer. Operands that are saved are the
one place where a push is emitted (`saved_marks`); all other code has none, rule by
rule (`pushes_loadInto` and its like), and puts together what its parts count.

Consumed by the proof that generated functions follow the source: it decides
whether slots may lie below the stack pointer.
-/
import MiniC.Proofs.Codegen.Simulation

namespace MiniC.Codegen

open Asm Steps

-- ================================================================ marks

/-- Whether a state is no less deep than one before it, and marked if that one
was or if so many pushes came between them. -/
structure Marked (s t : State) (n : Nat) : Prop where
  depth : s.frame.depth ≤ t.frame.depth
  ever : s.frame.everPushed = true ∨ n ≠ 0 → t.frame.everPushed = true

theorem Marked.refl (s : State) : Marked s s 0 :=
  ⟨Nat.le_refl _, fun h => h.elim id fun h => absurd rfl h⟩

/-- Pushes that came in two parts came together. -/
theorem Marked.trans {s t u : State} {j k n : Nat} (hst : Marked s t j) (htu : Marked t u k)
    (hn : n ≤ j + k) : Marked s u n := by
  refine ⟨Nat.le_trans hst.depth htu.depth, fun h => htu.ever ?_⟩
  rcases h with h | h
  · exact Or.inl (hst.ever (Or.inl h))
  · by_cases hj : j = 0
    · exact Or.inr (by omega)
    · exact Or.inl (hst.ever (Or.inr hj))

/-- Whether a step marks the frame for the pushes in what it answers. -/
def Marks {α : Type} (count : α → Nat) (step : Gen α) : Prop :=
  ∀ s a t, step s = .ok (a, t) → Marked s t (count a)

section Rules

variable {α β : Type} {count : α → Nat}

/-- A step counts for itself, and what it is followed by counts for the rest. -/
theorem Marks.bind {x : Gen α} {g : α → Gen β} {counted : β → Nat} (hx : Marks count x)
    (hg : ∀ a, Marks (fun b => counted b - count a) (g a)) : Marks counted (x >>= g) := by
  intro s b u h
  obtain ⟨a, t, hfirst, hrest⟩ := bind_ok.1 h
  exact (hx s a t hfirst).trans (hg a t b u hrest) (by
    show counted b ≤ count a + (counted b - count a)
    omega)

/-- Behind a step that pushes nothing. -/
theorem Marks.after {x : Gen α} {g : α → Gen β} {counted : β → Nat}
    (hx : Marks (fun _ => 0) x) (hg : ∀ a, Marks counted (g a)) : Marks counted (x >>= g) :=
  hx.bind hg

theorem Marks.pure {a : α} (h : count a = 0) : Marks count (pure a : Gen α) := by
  intro s b t hpure
  obtain ⟨rfl, rfl⟩ := pure_ok.1 hpure
  rw [h]
  exact .refl s

theorem Marks.fail (e : GenError) : Marks count (fail e : Gen α) :=
  fun _ _ _ h => (fail_ok.1 h).elim

/-- A computation that may fail marks nothing, and so must not push. -/
theorem Marks.lift {x : Except GenError α} (h : ∀ a, x = .ok a → count a = 0) :
    Marks count (liftM x : Gen α) := by
  intro s a t hlift
  obtain ⟨ha, rfl⟩ := lift_ok.1 hlift
  rw [h a ha]
  exact .refl s

theorem Marks.ite {c : Prop} [Decidable c] {x y : Gen α} (hx : Marks count x)
    (hy : Marks count y) : Marks count (if c then x else y) := by
  split
  · exact hx
  · exact hy

theorem Marks.ask (x : Except GenError α) : Marks (fun _ => 0) (liftM x : Gen α) :=
  .lift fun _ _ => rfl

/-- Code that is dressed up has no pushes more than before. -/
theorem Marks.map {f : α → β} {counted : β → Nat} {step : Gen α} (h : Marks count step)
    (hle : ∀ a, counted (f a) ≤ count a) : Marks counted (f <$> step) := by
  intro s b t hstep
  obtain ⟨a, ha, rfl⟩ := map_ok.1 hstep
  exact (h s a t ha).trans (.refl t) (hle a)

end Rules

section Questions

variable (env : Env)

theorem placeOf_marks (e : Expr) : Marks (fun _ => 0) (placeOf env e) := by
  intro s p t h
  obtain ⟨-, rfl⟩ := placeOf_ok.1 h
  exact .refl t

theorem targetOf_marks (e : Expr) : Marks (fun _ => 0) (targetOf env e) := by
  intro s p t h
  obtain ⟨-, rfl⟩ := targetOf_ok.1 h
  exact .refl t

theorem typeOfExpr_marks (e : Expr) : Marks (fun _ => 0) (typeOfExpr env e) := by
  intro s p t h
  obtain ⟨-, rfl⟩ := typeOfExpr_ok.1 h
  exact .refl t

theorem intern_marks (value : String) : Marks (fun _ => 0) (intern value) := by
  intro s label t h
  unfold intern at h
  cases modifyGet_ok.1 h
  exact ⟨Nat.le_refl _, fun h => h.elim id fun h => absurd rfl h⟩

/-- What is computed between a push and a pop leaves a mark. -/
theorem saved_marks {step : Gen Code} (hstep : Marks (fun _ => 0) step) :
    Marks pushes (saved step) := by
  intro s code t h
  obtain ⟨inner, u, frame, hrun, hpop, rfl, -⟩ := saved_ok.1 h
  have hmarked := hstep _ _ _ hrun
  unfold Frame.pop? at hpop
  split at hpop
  · cases hpop
  · cases hpop
    exact ⟨hmarked.depth, fun _ => hmarked.ever (Or.inl rfl)⟩

end Questions

-- ===================================================== without a push

/-- A load pushes nothing. -/
theorem pushes_loadInto {r : Reg} {place : Place} {source target : Ty} {code : Code}
    (h : loadInto r place source target = .ok code) : pushes code = 0 := by
  unfold loadInto at h
  simp only [except_bind_ok] at h
  obtain ⟨src, -, dst, -, h⟩ := h
  repeat' split at h
  all_goals cases h
  all_goals rfl

/-- A conversion pushes nothing. -/
theorem pushes_convert {source target : Ty} {code : Code} (h : convert source target = .ok code) :
    pushes code = 0 := by
  unfold convert at h
  split at h
  · cases h
    rfl
  · split at h
    · cases h
    · simp only [except_bind_ok] at h
      obtain ⟨src, -, dst, -, h⟩ := h
      repeat' split at h
      all_goals cases h
      all_goals rfl

/-- A store pushes nothing. -/
theorem pushes_storeRax {place : Place} {source target : Ty} {code : Code}
    (h : storeRax place source target = .ok code) : pushes code = 0 := by
  unfold storeRax at h
  simp only [except_bind_ok] at h
  obtain ⟨conversion, hconversion, dst, -, h⟩ := h
  cases h
  rw [pushes_append, pushes_convert hconversion]
  rfl

/-- A literal that is stored pushes nothing. -/
theorem pushes_storeLiteral {place : Place} {lit : NumberLiteral} {target : Ty} {code : Code}
    (h : storeLiteral place lit target = .ok code) : pushes code = 0 := by
  unfold storeLiteral at h
  split at h
  all_goals try simp only [except_bind_ok] at h
  all_goals try obtain ⟨real, -, h⟩ := h
  all_goals try (cases h; rfl)
  split at h
  · cases h
  · simp only [except_bind_ok] at h
    obtain ⟨dst, -, n, -, h⟩ := h
    split at h <;> cases h <;> rfl

/-- A step in place pushes nothing. -/
theorem pushes_stepPlace {op : Arith} {place : Place} {ty : Ty} {update : Instr}
    (h : stepPlace op place ty = .ok update) : isPush update = false := by
  unfold stepPlace at h
  split at h
  · cases h
  · simp only [except_bind_ok] at h
    obtain ⟨width, -, h⟩ := h
    split at h <;> cases h <;> rfl

/-- An operation pushes nothing. -/
theorem pushes_arithCode (op : Arith) (width : Width) (operand : Operand) :
    pushes (arithCode op width operand) = 0 := by
  unfold arithCode pushes
  cases op with
  | div => cases operand <;> (dsimp only; split <;> rfl)
  | _ => rfl

-- ========================================================== expressions

section Expressions

variable {env : Env} {e lhs rhs : Expr} {run runLeft runRight : Gen (Code × Ty)}

/-- Whether a step marks the frame for the pushes in the code it answers with
something else. -/
abbrev MarksCode {β : Type} (step : Gen (Code × β)) : Prop := Marks (fun r => pushes r.1) step

theorem evalTo_marks (hrun : MarksCode run) (ty : Ty) : Marks pushes (evalTo env e run ty) := by
  intro s code t h
  rcases evalTo_ok h with ⟨_, _, -, hload, rfl⟩
    | ⟨first, source, conversion, hfirst, hconversion, rfl⟩
  · rw [pushes_loadInto hload]
    exact .refl t
  · rw [pushes_append, pushes_convert hconversion]
    exact hrun s _ t hfirst

/-- A right operand is used where it is, or saved behind a mark. -/
theorem rightOperand_marks (hrun : MarksCode run) (ty : Ty) :
    MarksCode (rightOperand env e run ty) := by
  unfold rightOperand
  refine Marks.after (.ask _) fun width => Marks.ite ?_ ?_
  · refine Marks.after (.ask _) fun lit => Marks.ite (.fail _) ?_
    exact Marks.after (.ask _) fun n => Marks.ite (.pure rfl) (.pure rfl)
  · refine Marks.after (placeOf_marks env e) fun place => ?_
    cases place with
    | some found =>
        refine Marks.ite (.fail _) (Marks.after (.ask _) fun src => Marks.ite (.pure rfl) ?_)
        refine Marks.bind (Marks.lift fun _ h => pushes_loadInto h) fun code => ?_
        exact .pure (Nat.sub_self _)
    | none =>
        refine Marks.bind (saved_marks ?_) fun code => .pure (Nat.sub_self _)
        exact Marks.bind (evalTo_marks hrun ty) fun code => .pure (Nat.zero_sub _)

/-- Two operands push what they push, and what saves one from the other is marked. -/
theorem operands_marks (hleft : MarksCode runLeft) (hright : MarksCode runRight) :
    Marks (fun r => pushes r.2.2.1) (operands env lhs rhs runLeft runRight) := by
  unfold operands
  refine Marks.after (typeOfExpr_marks env lhs) fun left => ?_
  refine Marks.after (typeOfExpr_marks env rhs) fun right => Marks.ite (.fail _) ?_
  refine Marks.ite (.fail _) (Marks.after (.ask _) fun width => ?_)
  refine Marks.bind (evalTo_marks hleft _) fun first => ?_
  refine Marks.bind (rightOperand_marks hright _) fun second => .pure ?_
  rw [pushes_append]
  omega

theorem evalArith_marks (op : Arith) (hleft : MarksCode runLeft) (hright : MarksCode runRight) :
    MarksCode (evalArith env op lhs rhs runLeft runRight) := by
  refine Marks.bind (operands_marks hleft hright) fun r => .pure ?_
  rw [pushes_append, pushes_arithCode]
  exact Nat.sub_self _

theorem evalCompare_marks (op : Comparison) (hleft : MarksCode runLeft)
    (hright : MarksCode runRight) : MarksCode (evalCompare env op lhs rhs runLeft runRight) := by
  refine Marks.bind (operands_marks hleft hright) fun r => .pure ?_
  rw [pushes_append]
  exact Nat.sub_self _

theorem storeValue_marks (place : Place) (target : Ty) (hrun : MarksCode run) :
    Marks pushes (storeValue env place target e run) := by
  unfold storeValue
  refine Marks.ite (Marks.after (.ask _) fun lit => .lift fun _ h => pushes_storeLiteral h) ?_
  refine Marks.after (placeOf_marks env e) fun found => ?_
  cases found with
  | some found =>
      refine Marks.bind (Marks.lift fun _ h => pushes_loadInto h) fun code => ?_
      refine Marks.after (.ask _) fun _ => .pure ?_
      rw [pushes_append]
      exact Nat.sub_self _
  | none =>
      refine Marks.bind hrun fun r => ?_
      refine Marks.bind (Marks.lift fun _ h => pushes_storeRax h) fun store => .pure ?_
      rw [pushes_append]
      omega

/-- An assignment pushes what its right side pushes. -/
theorem assignPlain_marks (hright : MarksCode runRight) :
    Marks pushes (assignPlain env lhs rhs runRight) :=
  Marks.after (targetOf_marks env lhs) fun _ => storeValue_marks _ _ hright

/-- A compound assignment pushes what its operands push. -/
theorem assignCompound_marks (op : Arith) (hleft : MarksCode runLeft)
    (hright : MarksCode runRight) :
    Marks pushes (assignCompound env op lhs rhs runLeft runRight) := by
  refine Marks.after (targetOf_marks env lhs) fun _ => ?_
  refine Marks.bind (evalArith_marks op hleft hright) fun r => ?_
  refine Marks.bind (Marks.lift fun _ h => pushes_storeRax h) fun store => .pure ?_
  rw [pushes_append]
  omega

theorem reloaded_marks {assign : Gen Code} (hassign : Marks pushes assign) :
    MarksCode (reloaded env lhs assign) := by
  refine Marks.after (targetOf_marks env lhs) fun _ => ?_
  refine Marks.bind hassign fun code => ?_
  refine Marks.bind (Marks.lift fun _ h => pushes_loadInto h) fun load => .pure ?_
  rw [pushes_append]
  omega

theorem stepPlace_marks (op : Arith) (place : Place) (ty : Ty) :
    Marks (fun i => pushes [i]) (liftM (stepPlace op place ty) : Gen Instr) := by
  refine Marks.lift fun update h => ?_
  unfold pushes
  rw [List.countP_singleton, pushes_stepPlace h]
  rfl

/-- A step pushes nothing that is not marked. -/
theorem evalStep_marks (op : Arith) (fixity : Fixity) : MarksCode (evalStep env op fixity e) := by
  unfold evalStep
  refine Marks.after (targetOf_marks env e) fun found => Marks.after (.ask _) fun width => ?_
  refine Marks.bind (stepPlace_marks op _ _) fun update => ?_
  cases fixity with
  | before =>
      refine .pure ?_
      rw [← List.singleton_append, pushes_append]
      exact Nat.sub_self _
  | after =>
      refine .pure ?_
      rw [← List.singleton_append, pushes_append]
      exact Nat.sub_eq_zero_of_le (Nat.le_of_eq (Nat.zero_add _))

theorem evalSign_marks (negative : Bool) (hrun : MarksCode run) :
    MarksCode (evalSign env negative e run) := by
  unfold evalSign
  refine Marks.after (typeOfExpr_marks env e) fun ty => Marks.ite (.fail _) ?_
  refine Marks.bind (evalTo_marks hrun _) fun code => Marks.ite ?_ (.pure (Nat.sub_self _))
  refine Marks.after (.ask _) fun width => .pure ?_
  rw [pushes_append]
  exact Nat.sub_self _

theorem evalConstant_marks : MarksCode (evalConstant e) := by
  unfold evalConstant
  refine Marks.after (.ask _) fun lit => Marks.ite (.fail _) ?_
  exact Marks.after (.ask _) fun n => Marks.after (.ask _) fun width => .pure rfl

theorem evalPlace_marks : MarksCode (evalPlace env e) := by
  unfold evalPlace
  refine Marks.after (targetOf_marks env e) fun found => Marks.ite (.fail _) ?_
  exact Marks.bind (Marks.lift fun _ h => pushes_loadInto h) fun code => .pure (Nat.sub_self _)

/-- The code of an expression leaves a mark if it pushes. -/
theorem eval_marks (env : Env) (e : Expr) : MarksCode (eval env e) := by
  induction e with
  | number lit => exact evalConstant_marks
  | string lit => exact Marks.after (intern_marks _) fun _ => .pure rfl
  | ident i => exact evalPlace_marks
  | member object accessor field pos => exact evalPlace_marks
  | binary op lhs rhs constant operandsMatch pos ihl ihr =>
      unfold eval
      refine Marks.ite evalConstant_marks ?_
      cases op with
      | assign => exact reloaded_marks (assignPlain_marks ihr)
      | compound op => exact reloaded_marks (assignCompound_marks op ihl ihr)
      | arith op => exact evalArith_marks op ihl ihr
      | compare op => exact evalCompare_marks op ihl ihr
  | unary op fixity operand pos ih =>
      cases op with
      | plus => exact evalSign_marks false ih
      | minus => exact evalSign_marks true ih
      | not =>
          refine Marks.bind ih fun r => Marks.after (.ask _) fun width => .pure ?_
          rw [pushes_append]
          exact Nat.sub_self _
      | incr => exact evalStep_marks .add fixity
      | decr => exact evalStep_marks .sub fixity

theorem stepEffect_marks (op : Arith) : Marks pushes (stepEffect env op e) := by
  refine Marks.after (targetOf_marks env e) fun _ => ?_
  exact Marks.bind (stepPlace_marks op _ _) fun update => .pure (Nat.sub_self _)

/-- An expression for its effect marks the frame for its pushes. -/
theorem effect_marks (env : Env) (e : Expr) : Marks pushes (effect env e) := by
  unfold effect
  split
  · exact assignPlain_marks (eval_marks env _)
  · exact assignCompound_marks _ (eval_marks env _) (eval_marks env _)
  · exact stepEffect_marks .add
  · exact stepEffect_marks .sub
  · exact Marks.map (eval_marks env _) fun _ => Nat.le_refl _

/-- A test marks the frame for its pushes. -/
theorem test_marks (env : Env) (e : Expr) : Marks pushes (test env e) := by
  unfold test
  refine Marks.after (placeOf_marks env e) fun place => ?_
  cases place with
  | some found => exact Marks.ite (.fail _) (Marks.after (.ask _) fun _ => .pure rfl)
  | none =>
      refine Marks.bind (eval_marks env e) fun r => Marks.after (.ask _) fun _ => .pure ?_
      rw [pushes_append]
      exact Nat.sub_self _

end Expressions

-- =========================================================== statements

/-- How many pushes there are in lines. -/
def linePushes (ls : Lines) : Nat :=
  ls.countP fun
    | .insn i => isPush i
    | _ => false

theorem linePushes_append (a b : Lines) : linePushes (a ++ b) = linePushes a + linePushes b :=
  List.countP_append

/-- A line of code pushes as the instruction in it. -/
theorem linePushes_lines (code : Code) : linePushes (lines code) = pushes code := by
  unfold linePushes lines pushes
  rw [List.countP_map]
  rfl

theorem freshLabel_marks : Marks (fun _ => 0) freshLabel := by
  intro s n t h
  obtain ⟨-, rfl⟩ := freshLabel_ok.1 h
  exact ⟨Nat.le_refl _, fun h => h.elim id fun h => absurd rfl h⟩

/-- A scope that is left keeps its marks. -/
theorem inScope_marks {step : Gen Lines} (h : Marks linePushes step) :
    Marks linePushes (inScope step) := by
  intro s ls t hstep
  obtain ⟨u, hinner, rfl⟩ := inScope_ok.1 hstep
  have hmarked := h _ _ _ hinner
  exact ⟨hmarked.depth, hmarked.ever⟩

/-- A slot makes the frame deeper. -/
theorem alloc_marks (size align : Nat) :
    Marks (fun _ => 0) (framed? fun f => f.alloc? size align) := by
  intro s offset t h
  obtain ⟨frame, halloc, rfl⟩ := framed?_ok.1 h
  obtain ⟨-, hdepth, hroom, -⟩ := Frame.alloc?_some halloc
  refine ⟨?_, fun h => ?_⟩
  · show s.frame.depth ≤ frame.depth
    omega
  · have hever : frame.everPushed = s.frame.everPushed := by rw [alloc?_kept halloc]
    exact hever.trans (h.resolve_right fun h => h rfl)

theorem bind_marks (name : String) (slot : StackSlot) :
    Marks (fun _ => 0) (framed fun f => ((), f.bind name slot)) := by
  intro s x t h
  obtain ⟨frame, hframe, rfl⟩ := framed_ok.1 h
  cases hframe
  unfold Frame.bind
  split <;> exact ⟨Nat.le_refl _, fun h => h.resolve_right fun h => h rfl⟩

variable {env : Env}

/-- A variable marks the frame for its initial value. -/
theorem variableDecl_marks (decl : VariableDecl) : Marks linePushes (variableDecl env decl) := by
  unfold variableDecl
  refine Marks.after (.ask _) fun size => Marks.after (alloc_marks _ _) fun offset => ?_
  have hbind : ∀ {init : Gen Code} {ty : Ty}, Marks pushes init → Marks linePushes (do
      let code ← init
      framed fun f => ((), f.bind decl.name ⟨offset, ty⟩)
      return lines code) := by
    intro init ty hinit
    refine Marks.bind hinit fun code => Marks.after (bind_marks _ _) fun _ => .pure ?_
    rw [linePushes_lines]
    exact Nat.sub_self _
  cases decl.init with
  | none => exact hbind (.pure rfl)
  | some init =>
      cases decl.ty with
      | named _ => exact hbind (.fail _)
      | _ => exact hbind (storeValue_marks _ _ (eval_marks env init))

theorem ret_marks (value : Option Expr) : Marks linePushes (ret env value) := by
  unfold ret
  cases value with
  | none => exact .pure rfl
  | some e =>
      refine Marks.ite (.fail _) (Marks.ite (.fail _) ?_)
      refine Marks.bind (evalTo_marks (eval_marks env e) _) fun code => .pure ?_
      rw [linePushes_append, linePushes_lines]
      exact Nat.sub_self _

/-- A loop marks the frame for its test and its body. -/
theorem loopSteps_marks {e : Expr} {body : List Stmt} (hbody : Marks linePushes (stmts env body)) :
    Marks linePushes (loopSteps env e body) := by
  refine Marks.after freshLabel_marks fun enter => Marks.after freshLabel_marks fun check => ?_
  refine Marks.bind (inScope_marks hbody) fun inner => Marks.ite ?_ ?_
  · refine .pure ?_
    simp only [linePushes_append]
    exact Nat.sub_eq_zero_of_le (Nat.le_of_eq (Nat.zero_add _))
  · refine Marks.bind (test_marks env e) fun code => .pure ?_
    simp only [linePushes_append, linePushes_lines]
    show 0 + linePushes inner + 0 + (pushes code + 0) - linePushes inner - pushes code = 0
    omega

/-- An arm marks the frame for its test and for both sides. -/
theorem armSteps_marks {e : Expr} {consequent : List Stmt} {alternate : Alternate} {done : Nat}
    (hbody : Marks linePushes (stmts env consequent))
    (hother : Marks linePushes (otherwise env (some done) alternate)) {ending : Lines}
    (hending : linePushes ending = 0) :
    Marks linePushes (armSteps env e consequent alternate done ending) := by
  cases alternate with
  | none =>
      refine Marks.bind (test_marks env e) fun code => Marks.bind (inScope_marks hbody) fun inner =>
        .pure ?_
      simp only [linePushes_append, linePushes_lines, hending]
      show pushes code + 0 + linePushes inner + 0 - pushes code - linePushes inner = 0
      omega
  | _ =>
      refine Marks.after freshLabel_marks fun other => Marks.bind (test_marks env e) fun code => ?_
      refine Marks.bind (inScope_marks hbody) fun inner => Marks.bind hother fun outer => .pure ?_
      have hskip : linePushes (if endsInEpilogue inner then [] else [.jump .jmp done]) = 0 := by
        split <;> rfl
      simp only [linePushes_append, linePushes_lines, hskip, hending]
      show pushes code + 0 + linePushes inner + 0 + 0 + linePushes outer + 0 - pushes code
        - linePushes inner - linePushes outer = 0
      omega

mutual

/-- A statement marks the frame for its pushes. -/
theorem stmt_marks : ∀ st : Stmt, Marks linePushes (stmt env st)
  | .block body => by
      unfold stmt
      exact inScope_marks (stmts_marks body)
  | .branch arm => by
      unfold stmt
      exact ifArm_marks none arm
  | .loop e body pos => by
      rw [stmt_loop]
      have hrest (never : Bool) :
          Marks linePushes (if never then return [] else loopSteps env e body) :=
        Marks.ite (.pure rfl) (loopSteps_marks (stmts_marks body))
      exact Marks.ite (Marks.after (.ask _) hrest) (Marks.after (.pure rfl) hrest)
  | .ret value pos => by
      unfold stmt
      exact ret_marks value
  | .variable decl => by
      unfold stmt
      exact variableDecl_marks decl
  | .expr e => by
      unfold stmt
      exact Marks.map (effect_marks env e) fun code => Nat.le_of_eq (linePushes_lines code)
  | .function _ => by
      unfold stmt
      exact .fail _
  | .aggregate _ => by
      unfold stmt
      exact .fail _

/-- The code of statements leaves a mark if it pushes, and slots stay. -/
theorem stmts_marks : ∀ body : List Stmt, Marks linePushes (stmts env body)
  | [] => by
      unfold stmts
      exact .pure rfl
  | st :: rest => by
      unfold stmts
      refine Marks.bind (stmt_marks st) fun first => Marks.bind (stmts_marks rest) fun others => ?_
      refine .pure ?_
      rw [linePushes_append]
      omega

theorem ifArm_marks : ∀ (shared : Option Nat) (arm : Arm), Marks linePushes (ifArm env shared arm)
  | shared, ⟨e, consequent, alternate, pos⟩ => by
      have hother := fun shared => otherwise_marks shared alternate
      have hbody := stmts_marks consequent
      by_cases hc : e.isConstant = true
      · rw [ifArm_folded hc]
        exact Marks.after (.ask _) fun _ => Marks.ite (hother shared) (inScope_marks hbody)
      · cases shared with
        | some done =>
            rw [ifArm_shared hc]
            exact armSteps_marks hbody (hother (some done)) rfl
        | none =>
            rw [ifArm_first hc]
            exact Marks.after freshLabel_marks fun done =>
              armSteps_marks hbody (hother (some done)) (by split <;> rfl)

theorem otherwise_marks : ∀ (shared : Option Nat) (alternate : Alternate),
    Marks linePushes (otherwise env shared alternate)
  | shared, .none => by
      unfold otherwise
      exact .pure rfl
  | shared, .block body => by
      unfold otherwise
      exact inScope_marks (stmts_marks body)
  | shared, .elseIf arm => by
      unfold otherwise
      exact ifArm_marks shared arm

end

end MiniC.Codegen
