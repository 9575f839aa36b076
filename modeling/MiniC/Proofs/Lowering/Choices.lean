/-
What lowering makes of choices, which are arms and loops.

# Decided choices

A function and its decided form are lowered to the same (`function_decided`):
cutting off what is decided is what lowering itself does, arm by arm. With that,
everything said below is about choices that are kept.

# Where a choice is lowered

Such a choice is lowered at some stage of the function (`function_lowers`), and
control that reaches that stage goes where the condition decides: an arm or a
loop whose condition fails is lowered to what runs otherwise
(`ofChoice_fails`), and one whose condition holds leads to its body
(`ofChoice_enters`). The walk that finds the stage is the same for arms, loops
and blocks; `LowersAll` is what it hands on.

# Loops that do not enter

That the body of a loop is reached needs more than that its condition holds. An
arm is decided once, but a loop that is not cut off still branches on its
constant, as a truth value, and a number is made over into one by its whole
part. So a number between zero and one holds and does not enter (`Decisive`).
Where no condition is of that kind, a function is lowered to the same with its
conditions put plainly, as the numbers zero and one (`function_plainly`).
Consumed by the proof that all stages decide alike.
-/
import MiniC.Proofs.Codegen.Steps
import MiniC.Proofs.Lowering.Constants
import MiniC.Proofs.Lowering.Functions
import MiniC.Proofs.Source.Deciding

namespace MiniC

/-- Whether an expression that folds to a number without a whole part folds to
zero. -/
def Expr.Decisive (e : Expr) : Prop :=
  ∀ lit, e.evaluate = .ok lit → lit.toInt = .ok 0 → lit.isZero = .ok true

/-- Whether the number that decides a choice decides it by its whole part. Only
a loop is decided by that. -/
def Choice.Decisive : Choice → Prop
  | .arm _ => True
  | .loop e _ _ => e.Decisive

instance : DecidablePred Expr.Decisive := fun e =>
  decidable_of_iff (∀ lit ∈ e.evaluate.toOption,
      lit.toInt.toOption = some 0 → lit.isZero.toOption = some true) <| by
    simp only [Option.mem_def, Steps.toOption_some]
    rfl

instance : DecidablePred Choice.Decisive
  | .arm _ => .isTrue trivial
  | .loop e _ _ => inferInstanceAs (Decidable e.Decisive)

namespace Lowering

open IR Steps

variable (globals : List (String × Slot))

-- ================================================================== code

/-- Statements that are none are no code, in a scope of their own as well. -/
theorem inScope_nil : inScope (stmts globals []) = pure () := by
  rw [stmts]
  rfl

/-- An alternate is lowered as the statement that it is. -/
theorem stmt_toStmt (alternate : Alternate) :
    stmt globals alternate.toStmt = otherwise globals alternate := by
  cases alternate with
  | none => rw [Alternate.toStmt, stmt, otherwise, inScope_nil]
  | block body => rw [Alternate.toStmt, stmt, otherwise]
  | elseIf arm => rw [Alternate.toStmt, stmt, otherwise]

/-- An alternate that is missing is lowered as an empty one. -/
theorem otherwise_filled (alternate : Alternate) :
    otherwise globals alternate.filled = otherwise globals alternate := by
  cases alternate with
  | none => rw [Alternate.filled, otherwise, otherwise, inScope_nil]
  | block body => rfl
  | elseIf arm => rfl

/-- An arm whose condition is decided is lowered to where it goes. -/
theorem ifArm_verdict {e : MiniC.Expr} {holds : Bool} (h : e.verdict? = some holds)
    (consequent : List Stmt) (alternate : Alternate) (pos : Position) :
    ifArm globals ⟨e, consequent, alternate, pos⟩
      = if holds then inScope (stmts globals consequent) else otherwise globals alternate := by
  obtain ⟨hconst, hfolds⟩ := Expr.verdict?_some.1 h
  unfold ifArm
  rw [if_pos hconst, hfolds]
  cases holds <;> rfl

/-- A loop that is never entered is no code. -/
theorem stmt_never {e : MiniC.Expr} (h : e.verdict? = some false) (body : List Stmt)
    (pos : Position) : stmt globals (.loop e body pos) = pure () := by
  obtain ⟨hconst, hfolds⟩ := Expr.verdict?_some.1 h
  unfold stmt
  rw [if_pos hconst, hfolds]
  rfl

/-- Arms are lowered to the same where their parts are. -/
theorem ifArm_congr {e : MiniC.Expr} {consequent consequent' : List Stmt}
    {alternate alternate' : Alternate} {pos : Position}
    (hfirst : stmts globals consequent' = stmts globals consequent)
    (hsecond : otherwise globals alternate' = otherwise globals alternate)
    (hnone : alternate' = .none ↔ alternate = .none) :
    ifArm globals ⟨e, consequent', alternate', pos⟩
      = ifArm globals ⟨e, consequent, alternate, pos⟩ := by
  unfold ifArm
  rw [hfirst]
  cases alternate with
  | none => rw [hnone.2 rfl]
  | block body =>
      cases alternate' with
      | none => cases hnone.1 rfl
      | _ => simp only [hsecond]
  | elseIf arm =>
      cases alternate' with
      | none => cases hnone.1 rfl
      | _ => simp only [hsecond]

mutual

/-- A statement and its decided form are lowered to the same. -/
theorem stmt_decided : ∀ st : Stmt, stmt globals st.decided = stmt globals st
  | .block body => by rw [Stmt.decided, stmt, stmt, stmts_decided body]
  | .branch arm => by rw [Stmt.decided, stmt_toStmt, ifArm_decided arm, stmt]
  | .loop e body pos => by
      rw [Stmt.decided]
      split
      · rename_i hnever
        rw [stmt_never globals hnever, stmt, inScope_nil]
      · rw [stmt, stmt, stmts_decided body]
  | .ret _ _ => rfl
  | .variable _ => rfl
  | .expr _ => rfl
  | .function _ => rfl
  | .aggregate _ => rfl

/-- So are statements and theirs. -/
theorem stmts_decided : ∀ body : List Stmt, stmts globals (decidedAll body) = stmts globals body
  | [] => by rw [decidedAll]
  | st :: rest => by rw [decidedAll, stmts, stmts, stmt_decided st, stmts_decided rest]

/-- So are an arm and what is left of it. -/
theorem ifArm_decided : ∀ arm : Arm, otherwise globals arm.decided = ifArm globals arm
  | ⟨e, consequent, alternate, pos⟩ => by
      have hfirst := stmts_decided consequent
      have hsecond := otherwise_decided alternate
      cases hverdict : e.verdict? with
      | some holds =>
          rw [Arm.decided, hverdict, ifArm_verdict globals hverdict]
          cases holds with
          | true => simp only [otherwise, hfirst, if_true]
          | false => simp only [otherwise_filled, hsecond, Bool.false_eq_true, if_false]
      | none =>
          rw [Arm.decided, hverdict, otherwise]
          exact ifArm_congr globals hfirst hsecond Alternate.decided_none

/-- So are alternates. -/
theorem otherwise_decided : ∀ alternate : Alternate,
    otherwise globals alternate.decided = otherwise globals alternate
  | .none => by rw [Alternate.decided]
  | .block body => by rw [Alternate.decided, otherwise, otherwise, stmts_decided body]
  | .elseIf arm => by rw [Alternate.decided, ifArm_decided arm, otherwise]

end

/-- A function and its decided form are lowered to the same. -/
theorem function_decided (decl : FunctionDecl) :
    function globals decl.decided = function globals decl := by
  have hbody : decl.decided.body = decidedAll decl.body := rfl
  have hparams : decl.decided.params = decl.params := rfl
  have hreturns : decl.decided.returnType = decl.returnType := rfl
  have hname : decl.decided.name = decl.name := rfl
  unfold function functionSteps
  simp only [hbody, hparams, hreturns, hname, stmts_decided]

-- ============================================================ put plainly

/-- Whether the condition of a leaf, if it is one, is lowered to the same put
plainly. -/
def TestsPlainly (_ : Sight) (leaf : Leaf) : Prop :=
  ∀ e, leaf = .condition e → condition globals e.plainly = condition globals e

variable {globals} in
mutual

/-- A statement is lowered to the same with its conditions put plainly, if they
are. -/
theorem stmt_plainly : ∀ {st : Stmt} {sight : Sight}, st.Everywhere (TestsPlainly globals) sight →
    stmt globals st.plainly = stmt globals st
  | .block body, _, h => by rw [Stmt.plainly, stmt, stmt, stmts_plainly h]
  | .branch arm, _, h => by rw [Stmt.plainly, stmt, stmt, ifArm_plainly h]
  | .loop e body pos, _, h => by
      rw [Stmt.plainly, stmt, stmt, e.isConstant_plainly, e.foldsToZero_plainly, h.1 e rfl,
        stmts_plainly h.2]
  | .ret _ _, _, _ => rfl
  | .variable _, _, _ => rfl
  | .expr _, _, _ => rfl
  | .function _, _, _ => rfl
  | .aggregate _, _, _ => rfl

/-- So are statements in sequence. -/
theorem stmts_plainly : ∀ {body : List Stmt} {sight : Sight},
    Stmt.EverywhereIn (TestsPlainly globals) sight body →
    stmts globals (plainlyAll body) = stmts globals body
  | [], _, _ => rfl
  | st :: rest, _, h => by rw [plainlyAll, stmts, stmts, stmt_plainly h.1, stmts_plainly h.2]

/-- So are arms. -/
theorem ifArm_plainly : ∀ {arm : Arm} {sight : Sight}, arm.Everywhere (TestsPlainly globals) sight →
    ifArm globals arm.plainly = ifArm globals arm
  | ⟨e, consequent, alternate, pos⟩, _, h => by
      have hfirst := stmts_plainly h.2.1
      have hsecond := otherwise_plainly h.2.2
      cases hconst : e.isConstant with
      | true =>
          rw [Arm.plainly]
          unfold ifArm
          rw [e.isConstant_plainly, hconst, e.foldsToZero_plainly, hfirst, hsecond]
          rfl
      | false =>
          rw [Arm.plainly, Expr.plainly_open hconst]
          exact ifArm_congr globals hfirst hsecond Alternate.plainly_none

/-- So are alternates. -/
theorem otherwise_plainly : ∀ {alternate : Alternate} {sight : Sight},
    alternate.Everywhere (TestsPlainly globals) sight →
    otherwise globals alternate.plainly = otherwise globals alternate
  | .none, _, _ => rfl
  | .block body, _, h => by rw [Alternate.plainly, otherwise, otherwise, stmts_plainly h]
  | .elseIf arm, _, h => by rw [Alternate.plainly, otherwise, otherwise, ifArm_plainly h]

end

/-- The lowering of a choice. -/
def ofChoice : Choice → Lower Unit
  | .arm arm => ifArm globals arm
  | .loop e body pos => stmt globals (.loop e body pos)

/-- Whether a choice is lowered between two stages of a function. -/
structure LoweredAt (fn : Function) (c : Choice) (s t : State) : Prop where
  started : s.Started
  lowers : ofChoice globals c s = .ok ((), t)
  within : Within fn t

variable {globals} {fn : Function} {s t : State}

/-- Where an arm that is not decided is lowered, so is what runs if its condition
holds. -/
theorem ifArm_alone_within {e : MiniC.Expr} {consequent : List Stmt} {pos : Position} {x : Unit}
    (hs : s.Started) (hfn : Within fn t) (hconst : e.isConstant = false)
    (h : ifArm globals ⟨e, consequent, .none, pos⟩ s = .ok (x, t)) :
    ∃ u v, u.Started ∧ inScope (stmts globals consequent) u = .ok ((), v) ∧ Within fn v := by
  obtain ⟨value, u, named, onTrue, done, v, hstages, rfl⟩ := ifArm_alone_stages hs hconst h
  exact ⟨_, v, hstages.entered.started, hstages.runs,
    hfn.of_grows (left_grows hstages.ran.grows.started done done)⟩

/-- With an alternate, what runs otherwise is lowered as well. -/
theorem ifArm_both_within {e : MiniC.Expr} {consequent : List Stmt} {alternate : Alternate}
    {pos : Position} {x : Unit} (hs : s.Started) (hfn : Within fn t)
    (hconst : e.isConstant = false) (halternate : alternate ≠ .none)
    (h : ifArm globals ⟨e, consequent, alternate, pos⟩ s = .ok (x, t)) :
    ∃ u v u' v', u.Started ∧ inScope (stmts globals consequent) u = .ok ((), v) ∧ Within fn v
      ∧ u'.Started ∧ otherwise globals alternate u' = .ok ((), v') ∧ Within fn v' := by
  obtain ⟨value, u, named, onTrue, onFalse, done, v, w, hstages, houter, hw, rfl⟩ :=
    ifArm_both_stages hs hconst halternate h
  have hother := left_grows hstages.ran.grows.started done onFalse
  have hfnw := hfn.of_grows (left_grows hw.grows.started done done)
  exact ⟨_, v, _, w, hstages.entered.started, hstages.runs,
    hfnw.of_grows (hother.trans hw.grows), hother.started, houter, hfnw⟩

variable (globals fn) in
/-- Whether a step that ends in a stage of a function lowers choices on the way. -/
def LowersAll (step : Lower Unit) (choices : List Choice) : Prop :=
  ∀ ⦃s t x⦄, s.Started → Within fn t → step s = .ok (x, t) →
    ∀ c ∈ choices, ∃ s' t', LoweredAt globals fn c s' t'

theorem LowersAll.nil (step : Lower Unit) : LowersAll globals fn step [] :=
  fun _ _ _ _ _ _ _ hc => absurd hc List.not_mem_nil

/-- Choices in a scope of their own are lowered on the way through it. -/
theorem LowersAll.inScope {step : Lower Unit} {choices : List Choice}
    (h : LowersAll globals fn step choices) : LowersAll globals fn (inScope step) choices := by
  intro s t x hs hfn hstep
  obtain ⟨u, hinner, rfl⟩ := inScope_ok.1 hstep
  have hfnu : Within fn u := hfn
  exact h (s := { s with scopes := [] :: s.scopes }) hs hfnu hinner

mutual

/-- Every choice that is not cut off is lowered. -/
theorem stmt_lowers : ∀ st : Stmt, LowersAll globals fn (stmt globals st) st.kept
  | .block body => by
      unfold stmt
      exact (stmts_lowers body).inScope
  | .branch arm => by
      unfold stmt
      exact ifArm_lowers arm
  | .loop e body pos => by
      intro s t x hs hfn h c hc
      rcases List.mem_cons.1 hc with rfl | hc
      · exact ⟨s, t, hs, h, hfn⟩
      rcases loop_ok globals h with ⟨hconst, hzero, -⟩ | hsteps
      · have hnever : e.verdict? = some false := Expr.verdict?_some.2 ⟨hconst, hzero⟩
        rw [if_pos hnever] at hc
        cases hc
      · have hin : c ∈ keptAll body := by
          split at hc
          · cases hc
          · exact hc
        obtain ⟨test, enter, done, named, value, u, v, -, hstages, rfl⟩ :=
          loopSteps_stages hs hsteps
        have hfnv := hfn.of_grows (left_grows hstages.ran.grows.started test done)
        exact (stmts_lowers body).inScope hstages.entered.started hfnv hstages.runs c hin
  | .ret _ _ => .nil _
  | .variable _ => .nil _
  | .expr _ => .nil _
  | .function _ => .nil _
  | .aggregate _ => .nil _

/-- So is every choice of statements in sequence. -/
theorem stmts_lowers : ∀ body : List Stmt, LowersAll globals fn (stmts globals body) (keptAll body)
  | [] => .nil _
  | st :: rest => by
      intro s t x hs hfn h c hc
      unfold stmts at h
      obtain ⟨_, u, hst, hrest⟩ := bind_ok.1 h
      have hu := (stmt_steady globals st _ _ _ hst hs).grows.started
      rcases List.mem_append.1 hc with hc | hc
      · have hfnu := hfn.of_grows (stmts_steady globals rest _ _ _ hrest hu).grows
        exact stmt_lowers st hs hfnu hst c hc
      · exact stmts_lowers rest hu hfn hrest c hc

/-- So is every choice of an arm, the arm among them. -/
theorem ifArm_lowers : ∀ arm : Arm, LowersAll globals fn (ifArm globals arm) arm.kept
  | ⟨e, consequent, alternate, pos⟩ => by
      intro s t x hs hfn h c hc
      have hfirst := (stmts_lowers consequent).inScope
      have hsecond := otherwise_lowers alternate
      rcases List.mem_cons.1 hc with rfl | hc
      · exact ⟨s, t, hs, h, hfn⟩
      cases hconst : e.isConstant with
      | true =>
          obtain ⟨zero, hzero, h⟩ := ifArm_constant globals hconst h
          have hverdict : e.verdict? = some !zero := Expr.verdict?_folds hconst hzero
          rw [hverdict] at hc
          cases zero with
          | true => exact hsecond hs hfn h c hc
          | false => exact hfirst hs hfn h c hc
      | false =>
          rw [Expr.verdict?_open hconst] at hc
          by_cases halternate : alternate = .none
          · subst halternate
            obtain ⟨u, v, hu, hinner, hfnv⟩ := ifArm_alone_within hs hfn hconst h
            rcases List.mem_append.1 hc with hc | hc
            · exact hfirst hu hfnv hinner c hc
            · cases hc
          · obtain ⟨u, v, u', v', hu, hinner, hfnv, hu', houter, hfnv'⟩ :=
              ifArm_both_within hs hfn hconst halternate h
            rcases List.mem_append.1 hc with hc | hc
            · exact hfirst hu hfnv hinner c hc
            · exact hsecond hu' hfnv' houter c hc

/-- So is every choice of an alternate. -/
theorem otherwise_lowers : ∀ alternate : Alternate,
    LowersAll globals fn (otherwise globals alternate) alternate.kept
  | .none => .nil _
  | .block body => by
      unfold otherwise
      exact (stmts_lowers body).inScope
  | .elseIf arm => by
      unfold otherwise
      exact ifArm_lowers arm

end

/-- The choices of a function that are not cut off are lowered, and no two
blocks of it have the same label. -/
theorem function_lowers {decl : FunctionDecl} (h : function globals decl = .ok fn) :
    (fn.blocks.map (·.label)).Nodup
      ∧ ∀ c ∈ decl.kept, ∃ s t, LoweredAt globals fn c s t := by
  obtain ⟨repr, params, s, t, u, hstages, rfl⟩ := function_ok h
  refine ⟨hstages.labels_nodup, ?_⟩
  have hu : Within u.builder.function u := ⟨[], .refl hstages.ended.grows.started⟩
  exact stmts_lowers decl.body hstages.spilled.grows.started (hu.of_grows hstages.ended.grows)
    hstages.body

-- ============================================================= conditions

/-- A constant condition is lowered to a truth value, by the whole part of its
number, and to no code. -/
theorem condition_constant {e : MiniC.Expr} {value : Value} (hconst : e.isConstant = true)
    (hfits : ∀ lit, e.evaluate = .ok lit → lit.ty = .bool → lit.InBounds)
    (h : condition globals e s = .ok (value, t)) :
    t = s ∧ ∃ lit n, e.evaluate = .ok lit ∧ lit.toInt = .ok n
      ∧ ∀ m : Memory, m.read value = .ok (if n = 0 then 0 else 1) := by
  unfold condition at h
  obtain ⟨first, u, hfirst, hconvert⟩ := bind_ok.1 h
  obtain ⟨lit, heval, hliteral, rfl⟩ : ∃ lit, e.evaluate = .ok lit
      ∧ literal lit = .ok first ∧ s = u := by
    cases e, hconst using Source.constant_cases with
    | number lit =>
        unfold expr at hfirst
        exact ⟨lit, rfl, lift_ok.1 hfirst⟩
    | folded op lhs rhs operandsMatch pos =>
        unfold expr at hfirst
        rw [if_pos rfl] at hfirst
        obtain ⟨lit, _, heval, hfirst⟩ := bind_ok.1 hfirst
        obtain ⟨hfold, rfl⟩ := lift_ok.1 heval
        exact ⟨lit, liftEval_ok.1 hfold, lift_ok.1 hfirst⟩
  obtain ⟨source, hsource, rfl⟩ : ∃ source, IR.Ty.ofSource? lit.ty = some source
      ∧ first = .constant source lit.text := by
    unfold literal at hliteral
    split at hliteral
    · rename_i source hsource
      cases hliteral
      exact ⟨source, hsource, rfl⟩
    · cases hliteral
  have hretype : retype lit.text source .i1 = .ok value ∧ s = t := by
    rw [convert_eq] at hconvert
    split at hconvert
    · rename_i hsame
      have hsame : source = .i1 := hsame
      obtain ⟨rfl, rfl⟩ := pure_ok.1 hconvert
      exact ⟨by rw [hsame]; rfl, rfl⟩
    · exact lift_ok.1 hconvert
  have hbool : IR.Ty.ofSource? .bool = some .i1 := rfl
  obtain ⟨text, n, rfl, htext, -, himmediate⟩ :=
    retype_immediate hsource hbool rfl (hfits lit heval) hretype.1
  obtain ⟨k, hk, hn⟩ := except_bind_ok.1 himmediate
  cases hn
  refine ⟨hretype.2.symm, lit, k, heval, Codegen.liftEval_ok.1 hk, fun m => ?_⟩
  rw [Memory.read_constant rfl htext]
  show Except.ok ((if k = 0 then 0 else 1 : Int) % 2) = _
  split <;> rfl

-- ================================================================ control

variable (globals) in
/-- Whether control that reaches a stage of a function goes on in the given
statements, which are lowered further on in a scope of their own, and with the
memory as it is. -/
def Enters (fn : Function) (s : State) (body : List Stmt) : Prop :=
  ∃ u v, inScope (stmts globals body) u = .ok ((), v) ∧ Grows s.builder u.builder
    ∧ Within fn u ∧ Within fn v ∧ (Live s.builder → ∀ m, Reaches fn s m u m)

/-- A choice whose condition is known to fail is lowered to what runs otherwise
and nothing else. -/
theorem ofChoice_fails {c : Choice} (hverdict : c.condition.verdict? = some false) :
    ofChoice globals c = otherwise globals c.alternate := by
  cases c with
  | arm a =>
      obtain ⟨e, consequent, alternate, pos⟩ := a
      exact ifArm_verdict globals hverdict consequent alternate pos
  | loop e body pos =>
      have hverdict : e.verdict? = some false := hverdict
      show stmt globals (.loop e body pos) = otherwise globals .none
      rw [stmt_never globals hverdict, otherwise]

/-- A loop whose constant has a whole part is entered where it is reached. -/
theorem loop_enters (hnodup : (fn.blocks.map (·.label)).Nodup) {e : MiniC.Expr}
    {body : List Stmt} {x : Unit} (hs : s.Started) (hfn : Within fn t)
    (hconst : e.isConstant = true)
    (hfits : ∀ lit, e.evaluate = .ok lit → lit.ty = .bool → lit.InBounds)
    (hwhole : ∀ lit, e.evaluate = .ok lit → lit.toInt ≠ .ok 0)
    (h : loopSteps globals e body s = .ok (x, t)) : Enters globals fn s body := by
  obtain ⟨test, enter, done, named, value, u, v, hnamed, hstages, rfl⟩ := loopSteps_stages hs h
  have hv := hstages.ran
  have hfnv := hfn.of_grows (left_grows hv.grows.started test done)
  have hfnE := hfnv.of_grows hv.grows
  have hhead := left_grows hnamed.grows.started test test
  have hinto := hstages.tested.grows.trans hstages.entered
  obtain ⟨rfl, lit, n, heval, hn, hread⟩ := condition_constant hconst hfits hstages.tests
  obtain ⟨inside, hinside⟩ := id hfnE
  have hemitted := emitted_grows hhead.started (.branch value enter done)
  obtain ⟨hgoto, hclosed⟩ := opened_goto hnodup hemitted.started hinside
  refine ⟨_, v, hstages.runs, hnamed.grows.trans (hhead.trans hinto), hfnE, hfnv,
    fun hlive m => ?_⟩
  have hbranch := emitted_ahead (opened_live (named.jumped test) test) hclosed
  have hne : n ≠ 0 := by
    rintro rfl
    exact hwhole lit heval hn
  have hread : m.read value = .ok 1 := by rw [hread m, if_neg hne]
  exact (head_reaches hnodup hnamed hlive (hfnE.of_grows hinto)).trans
    (branch_reaches hbranch hread hgoto (opened_live _ _) hinside) (hfnE.of_grows hinto)

/-- Where the condition of a choice is known to hold, control that reaches the
choice goes on in its body, if the whole part of the number decides as the
number does. -/
theorem ofChoice_enters (hnodup : (fn.blocks.map (·.label)).Nodup) {c : Choice}
    (hverdict : c.condition.verdict? = some true) (hdecisive : c.Decisive)
    (hfits : ∀ lit, c.condition.evaluate = .ok lit → lit.ty = .bool → lit.InBounds)
    (h : LoweredAt globals fn c s t) : Enters globals fn s c.body := by
  cases c with
  | arm a =>
      obtain ⟨e, consequent, alternate, pos⟩ := a
      have hverdict : e.verdict? = some true := hverdict
      have hlowers : ifArm globals ⟨e, consequent, alternate, pos⟩ s = .ok ((), t) := h.lowers
      rw [ifArm_verdict globals hverdict, if_pos rfl] at hlowers
      have hfns := h.within.of_grows
        (inScope_additive (stmts_steady globals consequent) _ _ _ hlowers h.started).grows
      exact ⟨s, t, hlowers, .refl h.started, hfns, h.within,
        fun hlive m => (Passes.refl fn m hlive).reaches⟩
  | loop e body pos =>
      have hverdict : e.verdict? = some true := hverdict
      obtain ⟨hconst, hfolds⟩ := Expr.verdict?_some.1 hverdict
      have hlowers : stmt globals (.loop e body pos) s = .ok ((), t) := h.lowers
      rcases loop_ok globals hlowers with ⟨-, hzero, -⟩ | hsteps
      · rw [hfolds] at hzero
        cases hzero
      · refine loop_enters hnodup h.started h.within hconst hfits (fun lit heval hn => ?_) hsteps
        -- a number without a whole part is zero, which the condition is not
        have hzero := hdecisive lit heval hn
        obtain ⟨lit', heval', hfolds⟩ := except_bind_ok.1 hfolds
        cases heval.symm.trans heval'
        rw [hzero] at hfolds
        cases hfolds

end Lowering

end MiniC
