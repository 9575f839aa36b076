/-
What code generation makes of choices.

# Decided forms

A function and its decided form give the same code (`function_decided`), down to the
labels and the question whether a body may fall off its end. The generator itself
follows the one way that a constant condition leaves, so the two go through the same
steps; what has to be seen is that the questions it asks of the statements, whether
they return and whether an arm has another side, are answered alike for both
(`anyReturns_decided`, `Alternate.decided_none`). Putting a loop's condition plainly
makes no difference either, since a loop that is always entered again has no test.

# Choices that are kept

Where a choice is not cut off its code stands in that of the function
(`bodyLines_emits`), as an uninterrupted run of lines. It is the code of what its
condition decides for (`ofChoice_holds`, `ofChoice_fails`): the one side of an arm and
nothing of the other, the body of a loop without a test, or nothing at all.

Consumed by the proof that all stages decide alike.
-/
import MiniC.Proofs.ControlFlow.Outline
import MiniC.Proofs.Source.Deciding

namespace MiniC.Codegen

open Asm Steps

-- =============================================================== returns

@[simp] theorem returns_toStmt (alternate : Alternate) :
    returns alternate.toStmt = alternateReturns alternate := by
  cases alternate <;> simp [Alternate.toStmt, returns, alternateReturns, anyReturns]

@[simp] theorem alternateReturns_filled (alternate : Alternate) :
    alternateReturns alternate.filled = alternateReturns alternate := by
  cases alternate <;> simp [Alternate.filled, alternateReturns, anyReturns]

mutual

/-- Whether a statement returns on every way is not changed by deciding. -/
theorem returns_decided : ∀ st : Stmt, returns st.decided = returns st
  | .block body => by
      rw [Stmt.decided, returns, returns, anyReturns_decided body]
  | .branch arm => by
      rw [Stmt.decided, returns_toStmt, armReturns_decided arm, returns]
  | .loop e body pos => by
      rw [Stmt.decided]
      split <;> simp [returns, anyReturns]
  | .ret _ _ => rfl
  | .variable _ => rfl
  | .expr _ => rfl
  | .function _ => rfl
  | .aggregate _ => rfl

/-- A decided body returns where the body does. -/
theorem anyReturns_decided : ∀ body : List Stmt, anyReturns (decidedAll body) = anyReturns body
  | [] => by rw [decidedAll]
  | st :: rest => by
      rw [decidedAll, anyReturns, anyReturns, returns_decided st, anyReturns_decided rest]

theorem armReturns_decided : ∀ arm : Arm, alternateReturns arm.decided = armReturns arm
  | ⟨e, consequent, alternate, pos⟩ => by
      have hfirst := anyReturns_decided consequent
      have hsecond := alternateReturns_decided alternate
      rw [Arm.decided, armReturns]
      cases hverdict : e.verdict? with
      | none =>
          simp only [alternateReturns, armReturns, hfirst, hsecond]
      | some holds =>
          obtain ⟨hconst, hfolds⟩ := Expr.verdict?_some.1 hverdict
          rw [if_pos hconst, hfolds]
          cases holds with
          | true => simp [alternateReturns, hfirst]
          | false => simp [hsecond]

theorem alternateReturns_decided :
    ∀ alternate : Alternate, alternateReturns alternate.decided = alternateReturns alternate
  | .none => by rw [Alternate.decided]
  | .block body => by
      rw [Alternate.decided, alternateReturns, alternateReturns, anyReturns_decided body]
  | .elseIf arm => by
      rw [Alternate.decided, armReturns_decided arm, alternateReturns]

end

-- ================================================================== code

variable (env : Env)

/-- Statements that are none are no code, in a scope of their own as well. -/
theorem inScope_nil : inScope (stmts env []) = pure [] := by
  rw [stmts]
  rfl

/-- Another side that is made a statement has its own code. -/
theorem stmt_toStmt (alternate : Alternate) :
    stmt env alternate.toStmt = otherwise env none alternate := by
  cases alternate with
  | none => rw [Alternate.toStmt, stmt, otherwise, inScope_nil]
  | block body => rw [Alternate.toStmt, stmt, otherwise]
  | elseIf arm => rw [Alternate.toStmt, stmt, otherwise]

theorem otherwise_filled (shared : Option Nat) (alternate : Alternate) :
    otherwise env shared alternate.filled = otherwise env shared alternate := by
  cases alternate with
  | none => rw [Alternate.filled, otherwise, otherwise, inScope_nil]
  | block body => rfl
  | elseIf arm => rfl

/-- The code of an arm whose condition is decided is that of where it goes. -/
theorem ifArm_verdict {e : Expr} {holds : Bool} (h : e.verdict? = some holds)
    (shared : Option Nat) (consequent : List Stmt) (alternate : Alternate) (pos : Position) :
    ifArm env shared ⟨e, consequent, alternate, pos⟩
      = if holds then inScope (stmts env consequent) else otherwise env shared alternate := by
  obtain ⟨hconst, hfolds⟩ := Expr.verdict?_some.1 h
  unfold ifArm
  rw [if_pos hconst, hfolds]
  cases holds <;> rfl

/-- A loop that is never entered is no code. -/
theorem stmt_never {e : Expr} (h : e.verdict? = some false) (body : List Stmt) (pos : Position) :
    stmt env (.loop e body pos) = pure [] := by
  obtain ⟨hconst, hfolds⟩ := Expr.verdict?_some.1 h
  unfold stmt
  rw [if_pos hconst, hfolds]
  rfl

/-- Arms have the same code where their parts have. -/
theorem ifArm_congr {e : Expr} {consequent consequent' : List Stmt}
    {alternate alternate' : Alternate} {pos : Position}
    (hfirst : stmts env consequent' = stmts env consequent)
    (hsecond : ∀ shared, otherwise env shared alternate' = otherwise env shared alternate)
    (hnone : alternate' = .none ↔ alternate = .none)
    (hreturns : armReturns ⟨e, consequent', alternate', pos⟩
      = armReturns ⟨e, consequent, alternate, pos⟩) (shared : Option Nat) :
    ifArm env shared ⟨e, consequent', alternate', pos⟩
      = ifArm env shared ⟨e, consequent, alternate, pos⟩ := by
  unfold ifArm
  rw [hfirst, hreturns]
  cases alternate with
  | none => rw [hnone.2 rfl]
  | block body =>
      cases alternate' with
      | none => cases hnone.1 rfl
      | _ => simp only [hsecond]
  | elseIf arm =>
      cases alternate' with
      | none => cases hnone.1 rfl
      | _ => simp only [hsecond]

mutual

/-- A statement and its decided form have the same code. -/
theorem stmt_decided : ∀ st : Stmt, stmt env st.decided = stmt env st
  | .block body => by rw [Stmt.decided, stmt, stmt, stmts_decided body]
  | .branch arm => by rw [Stmt.decided, stmt_toStmt, ifArm_decided arm none, stmt]
  | .loop e body pos => by
      rw [Stmt.decided]
      split
      · rename_i hnever
        rw [stmt_never env hnever, stmt, inScope_nil]
      · rw [stmt, stmt, stmts_decided body]
  | .ret _ _ => rfl
  | .variable _ => rfl
  | .expr _ => rfl
  | .function _ => rfl
  | .aggregate _ => rfl

/-- A decided body has the code of the body. -/
theorem stmts_decided : ∀ body : List Stmt, stmts env (decidedAll body) = stmts env body
  | [] => by rw [decidedAll]
  | st :: rest => by rw [decidedAll, stmts, stmts, stmt_decided st, stmts_decided rest]

theorem ifArm_decided : ∀ (arm : Arm) (shared : Option Nat),
    otherwise env shared arm.decided = ifArm env shared arm
  | ⟨e, consequent, alternate, pos⟩, shared => by
      have hfirst := stmts_decided consequent
      have hsecond := otherwise_decided alternate
      cases hverdict : e.verdict? with
      | some holds =>
          rw [Arm.decided, hverdict, ifArm_verdict env hverdict]
          cases holds with
          | true => simp only [otherwise, hfirst, if_true]
          | false => simp only [otherwise_filled, hsecond, Bool.false_eq_true, if_false]
      | none =>
          have hreturns := armReturns_decided ⟨e, consequent, alternate, pos⟩
          rw [Arm.decided, hverdict] at hreturns ⊢
          rw [otherwise]
          exact ifArm_congr env hfirst hsecond Alternate.decided_none hreturns shared

theorem otherwise_decided : ∀ (alternate : Alternate) (shared : Option Nat),
    otherwise env shared alternate.decided = otherwise env shared alternate
  | .none, _ => by rw [Alternate.decided]
  | .block body, _ => by rw [Alternate.decided, otherwise, otherwise, stmts_decided body]
  | .elseIf arm, shared => by rw [Alternate.decided, ifArm_decided arm shared, otherwise]

end

-- ============================================================ put plainly

mutual

/-- Whether a statement returns on every way is not changed by putting its
conditions plainly. -/
theorem returns_plainly : ∀ st : Stmt, returns st.plainly = returns st
  | .block body => by rw [Stmt.plainly, returns, returns, anyReturns_plainly body]
  | .branch arm => by rw [Stmt.plainly, returns, returns, armReturns_plainly arm]
  | .loop _ _ _ => rfl
  | .ret _ _ => rfl
  | .variable _ => rfl
  | .expr _ => rfl
  | .function _ => rfl
  | .aggregate _ => rfl

theorem anyReturns_plainly : ∀ body : List Stmt, anyReturns (plainlyAll body) = anyReturns body
  | [] => rfl
  | st :: rest => by
      rw [plainlyAll, anyReturns, anyReturns, returns_plainly st, anyReturns_plainly rest]

theorem armReturns_plainly : ∀ arm : Arm, armReturns arm.plainly = armReturns arm
  | ⟨e, consequent, alternate, pos⟩ => by
      simp only [Arm.plainly, armReturns, e.isConstant_plainly, e.foldsToZero_plainly,
        anyReturns_plainly consequent, alternateReturns_plainly alternate]

theorem alternateReturns_plainly :
    ∀ alternate : Alternate, alternateReturns alternate.plainly = alternateReturns alternate
  | .none => rfl
  | .block body => by
      rw [Alternate.plainly, alternateReturns, alternateReturns, anyReturns_plainly body]
  | .elseIf arm => by
      rw [Alternate.plainly, alternateReturns, alternateReturns, armReturns_plainly arm]

end

mutual

/-- A statement has the same code with its conditions put plainly: of a
constant condition only that is used which is not changed. -/
theorem stmt_plainly : ∀ st : Stmt, stmt env st.plainly = stmt env st
  | .block body => by rw [Stmt.plainly, stmt, stmt, stmts_plainly body]
  | .branch arm => by rw [Stmt.plainly, stmt, stmt, ifArm_plainly arm none]
  | .loop e body pos => by
      have hbody := stmts_plainly body
      rw [Stmt.plainly, stmt_loop, stmt_loop]
      unfold loopSteps
      rw [e.isConstant_plainly, e.foldsToZero_plainly, hbody]
      cases hconst : e.isConstant with
      | true => rfl
      | false => rw [Expr.plainly_open hconst]
  | .ret _ _ => rfl
  | .variable _ => rfl
  | .expr _ => rfl
  | .function _ => rfl
  | .aggregate _ => rfl

/-- A body that is put plainly has its own code. -/
theorem stmts_plainly : ∀ body : List Stmt, stmts env (plainlyAll body) = stmts env body
  | [] => rfl
  | st :: rest => by rw [plainlyAll, stmts, stmts, stmt_plainly st, stmts_plainly rest]

theorem ifArm_plainly : ∀ (arm : Arm) (shared : Option Nat),
    ifArm env shared arm.plainly = ifArm env shared arm
  | ⟨e, consequent, alternate, pos⟩, shared => by
      have hfirst := stmts_plainly consequent
      have hsecond := otherwise_plainly alternate
      cases hconst : e.isConstant with
      | true =>
          rw [Arm.plainly, ifArm_folded (e.isConstant_plainly.trans hconst),
            ifArm_folded hconst, e.foldsToZero_plainly, hfirst, hsecond]
      | false =>
          have hreturns := armReturns_plainly ⟨e, consequent, alternate, pos⟩
          rw [Arm.plainly, Expr.plainly_open hconst] at hreturns ⊢
          exact ifArm_congr env hfirst hsecond Alternate.plainly_none hreturns shared

theorem otherwise_plainly : ∀ (alternate : Alternate) (shared : Option Nat),
    otherwise env shared alternate.plainly = otherwise env shared alternate
  | .none, _ => rfl
  | .block body, _ => by rw [Alternate.plainly, otherwise, otherwise, stmts_plainly body]
  | .elseIf arm, shared => by
      rw [Alternate.plainly, otherwise, otherwise, ifArm_plainly arm shared]

end

-- =========================================================== functions

/-- The body of a function has the same lines as that of its decided form. -/
theorem bodyLines_decided (decl : FunctionDecl) :
    bodyLines env decl.decided = bodyLines env decl := by
  have hbody : decl.decided.body = decidedAll decl.body := rfl
  have hparams : decl.decided.params = decl.params := rfl
  unfold bodyLines fallOff
  rw [hbody, hparams, stmts_decided, anyReturns_decided]

/-- So has the function in its frame. -/
theorem function_decided (program : Program) (types : List (String × Ty)) (noRedZone : Bool)
    (strings : StringPool) (decl : FunctionDecl) :
    function program types noRedZone strings decl.decided
      = function program types noRedZone strings decl := by
  have hreturns : decl.decided.returnType = decl.returnType := rfl
  unfold function
  simp only [hreturns, bodyLines_decided]

/-- The code of a choice. The end label of the arm in front is given, if there
is one. -/
def ofChoice (shared : Option Nat) : Choice → Gen Lines
  | .arm arm => ifArm env shared arm
  | .loop e body pos => stmt env (.loop e body pos)

/-- Whether the code of a choice stands in lines. -/
def Emitted (c : Choice) (ls : Lines) : Prop :=
  ∃ shared s code t, ofChoice env shared c s = .ok (code, t) ∧ code <:+: ls

/-- Whether lines come to others: they are those, or go round them for ever. -/
def ComesTo (code inner : Lines) : Prop :=
  code = inner ∨ ∃ enter check,
    code = [.jump .jmp check, .label enter] ++ inner ++ [.label check, .jump .jmp enter]

variable {env}

/-- What is emitted in a part is emitted in the whole. -/
theorem Emitted.mono {c : Choice} {ls whole : Lines} (h : Emitted env c ls) (hin : ls <:+: whole) :
    Emitted env c whole := by
  obtain ⟨shared, s, code, t, hcode, hpart⟩ := h
  exact ⟨shared, s, code, t, hcode, hpart.trans hin⟩

variable {s t : State} {o : Outline}

variable (env) in
/-- Whether the code that a step outlines holds that of choices. -/
def EmitsAll (step : Gen Outline) (choices : List Choice) : Prop :=
  ∀ ⦃s t o⦄, step s = .ok (o, t) → ∀ c ∈ choices, Emitted env c (Flow.flatten o)

theorem EmitsAll.nil (step : Gen Outline) : EmitsAll env step [] :=
  fun _ _ _ _ _ hc => absurd hc List.not_mem_nil

/-- What a scope emits is emitted outside of it. -/
theorem EmitsAll.inside {step : Gen Outline} {choices : List Choice}
    (h : EmitsAll env step choices) : EmitsAll env (inside step) choices := by
  intro s t o hstep
  obtain ⟨u, hinner, -⟩ := inside_ok.1 hstep
  exact h hinner

mutual

/-- The code of every choice that is not cut off is emitted. -/
theorem outline_emits : ∀ st : Stmt, EmitsAll env (outline env st) st.kept
  | .block body => by
      unfold outline
      exact (outlines_emits body).inside
  | .branch arm => by
      unfold outline
      exact outlineArm_emits arm none
  | .loop e body pos => by
      intro s t o h c hc
      rcases List.mem_cons.1 hc with rfl | hc
      · have hcode : stmt env (.loop e body pos) s = .ok (Flow.flatten o, t) := by
          rw [stmt_eq_outline]
          exact map_ok.2 ⟨o, h, rfl⟩
        exact ⟨none, s, _, t, hcode, List.infix_refl _⟩
      · rcases outline_loop_ok h with ⟨hconst, hzero, -, -⟩
          | ⟨enter, check, test, inner, u, v, w, -, -, -, hinner, -, rfl⟩
        · have hnever : e.verdict? = some false := Expr.verdict?_some.2 ⟨hconst, hzero⟩
          rw [if_pos hnever] at hc
          cases hc
        · have hin : c ∈ keptAll body := by
            split at hc
            · cases hc
            · exact hc
          refine ((outlines_emits body).inside hinner c hin).mono ?_
          rw [Flow.flatten_cycle, List.append_assoc]
          exact List.infix_append _ _ _
  | .ret _ _ => .nil _
  | .variable _ => .nil _
  | .expr _ => .nil _
  | .function _ => .nil _
  | .aggregate _ => .nil _

/-- A body emits the choices that are kept of it. -/
theorem outlines_emits : ∀ body : List Stmt, EmitsAll env (outlines env body) (keptAll body)
  | [] => .nil _
  | st :: rest => by
      intro s t o h c hc
      obtain ⟨first, others, u, hfirst, hothers, rfl⟩ := outlines_cons_ok h
      rw [Flow.flatten_append]
      rcases List.mem_append.1 hc with hc | hc
      · exact (outline_emits st hfirst c hc).mono (List.infix_append' [] _ _)
      · exact (outlines_emits rest hothers c hc).mono (List.suffix_append _ _).isInfix

theorem outlineArm_emits : ∀ (arm : Arm) (shared : Option Nat),
    EmitsAll env (outlineArm env shared arm) arm.kept
  | ⟨e, consequent, alternate, pos⟩, shared => by
      intro s t o h c hc
      have hfirst := (outlines_emits consequent).inside
      have hsecond := outlineOther_emits alternate
      rcases List.mem_cons.1 hc with rfl | hc
      · have hcode : ifArm env shared ⟨e, consequent, alternate, pos⟩ s
            = .ok (Flow.flatten o, t) := by
          rw [ifArm_eq_outline]
          exact map_ok.2 ⟨o, h, rfl⟩
        exact ⟨shared, s, _, t, hcode, List.infix_refl _⟩
      cases hconst : e.isConstant with
      | true =>
          rcases outlineArm_constant_ok hconst h with ⟨hzero, hother⟩ | ⟨hzero, hbody⟩
          · have hverdict : e.verdict? = some false := Expr.verdict?_some.2 ⟨hconst, hzero⟩
            rw [hverdict] at hc
            exact hsecond shared hother c hc
          · have hverdict : e.verdict? = some true := Expr.verdict?_some.2 ⟨hconst, hzero⟩
            rw [hverdict] at hc
            exact hfirst hbody c hc
      | false =>
          rw [Expr.verdict?_open hconst] at hc
          obtain ⟨done, code, first, closed, u, -, -,
            ⟨rfl, v, -, hbody, rfl⟩ | ⟨-, other, second, v, w, x, -, -, hbody, hother, rfl⟩⟩
            := outlineArm_open_ok hconst h
          · rw [Flow.flatten_fork_none]
            rcases List.mem_append.1 hc with hc | hc
            · exact (hfirst hbody c hc).mono (List.infix_append _ _ _)
            · cases hc
          · rw [Flow.flatten_fork_some]
            rcases List.mem_append.1 hc with hc | hc
            · refine (hfirst hbody c hc).mono ?_
              simp only [List.append_assoc]
              exact ⟨lines code ++ [.jump .je other], _, by simp only [List.append_assoc]; rfl⟩
            · exact (hsecond _ hother c hc).mono (List.infix_append _ _ _)

theorem outlineOther_emits : ∀ (alternate : Alternate) (shared : Option Nat),
    EmitsAll env (outlineOther env shared alternate) alternate.kept
  | .none, _ => .nil _
  | .block body, _ => by
      unfold outlineOther
      exact (outlines_emits body).inside
  | .elseIf arm, shared => by
      unfold outlineOther
      exact outlineArm_emits arm shared

end

/-- Where the condition of a choice is known to hold, its code comes to that of
what runs then. -/
theorem ofChoice_holds {c : Choice} {shared : Option Nat} {code : Lines}
    (hverdict : c.condition.verdict? = some true)
    (h : ofChoice env shared c s = .ok (code, t)) :
    ∃ u inner v, inScope (stmts env c.body) u = .ok (inner, v) ∧ ComesTo code inner := by
  cases c with
  | arm a =>
      obtain ⟨e, consequent, alternate, pos⟩ := a
      have hverdict : e.verdict? = some true := hverdict
      have h : ifArm env shared ⟨e, consequent, alternate, pos⟩ s = .ok (code, t) := h
      rw [ifArm_verdict env hverdict, if_pos rfl] at h
      exact ⟨s, code, t, h, Or.inl rfl⟩
  | loop e body pos =>
      have hverdict : e.verdict? = some true := hverdict
      obtain ⟨hconst, hfolds⟩ := Expr.verdict?_some.1 hverdict
      have h : stmt env (.loop e body pos) s = .ok (code, t) := h
      rw [stmt_eq_outline] at h
      obtain ⟨o, ho, rfl⟩ := map_ok.1 h
      rcases outline_loop_ok ho with ⟨-, hzero, -, -⟩
        | ⟨enter, check, test, inner, u, v, w, -, -, -, hinner, htest, rfl⟩
      · rw [hfolds] at hzero
        cases hzero
      · obtain ⟨-, rfl, -⟩ | ⟨hopen, -⟩ := htest
        · refine ⟨v, Flow.flatten inner, w, ?_, Or.inr ⟨enter, check, ?_⟩⟩
          · show inScope (stmts env body) v = _
            rw [stmts_eq_outline, inScope_map]
            exact map_ok.2 ⟨inner, hinner, rfl⟩
          · rw [Flow.flatten_cycle, Flow.bottom, List.append_assoc]
            rfl
        · rw [hconst] at hopen
          cases hopen

/-- Where it is known to fail, the code of a choice is that of what runs
otherwise and nothing else. -/
theorem ofChoice_fails {c : Choice} (hverdict : c.condition.verdict? = some false)
    (shared : Option Nat) : ofChoice env shared c = otherwise env shared c.alternate := by
  cases c with
  | arm a =>
      obtain ⟨e, consequent, alternate, pos⟩ := a
      exact ifArm_verdict env hverdict shared consequent alternate pos
  | loop e body pos =>
      have hverdict : e.verdict? = some false := hverdict
      show stmt env (.loop e body pos) = otherwise env shared .none
      rw [stmt_never env hverdict, otherwise]

/-- The choices of a function that are not cut off are in its lines. -/
theorem bodyLines_emits {decl : FunctionDecl} {ls : Lines}
    (h : bodyLines env decl s = .ok (ls, t)) : ∀ c ∈ decl.kept, Emitted env c ls := by
  obtain ⟨spills, o, u, -, ho, rfl⟩ := bodyLines_ok h
  exact fun c hc => (outlines_emits decl.body ho c hc).mono (List.infix_append _ _ _)

end MiniC.Codegen
