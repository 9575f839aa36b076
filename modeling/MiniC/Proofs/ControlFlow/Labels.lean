/-
The labels of generated statements.

# Ranges

Labels are handed out by a counter, so the labels that the code of a statement defines
lie between the counter's values before and behind it, and so do those it jumps to, but
for the end label that an arm of an if chain shares with the arms before it (`Within`).
The pieces of a statement have consecutive ranges; that is why no label is defined
twice, and why a jump whose label is missing in its own piece finds it nowhere else.

# Pieces

Two pieces that follow each other are within the range from the first to the last
(`Within.append`). A cycle takes two labels and then its body; a fork takes the label of
its other side, if it has one, between the two sides, and its end label in front of
both, if it is the first of its chain. Whether a label is among those of a fork is read
off its parts (`labels_twoWays`, `mem_targets_twoWays`), with the jump over the other
side as the one that may be missing.

# Leaving

An outline leaves the function on every way exactly where its statements return
(`outline_leaves`). The generator asks the statements, and what the lines do depends on
the outline, so this is what connects the two.

Consumed by the proofs about control flow and about assembled functions.
-/
import MiniC.Proofs.Asm.Labels
import MiniC.Proofs.ControlFlow.Outline

namespace MiniC.Codegen

open Asm Steps Line

variable {env : Env}

-- ============================================== leaving and returning

/-- The code of a local variable: none, or that of storing its initializer. -/
def Initializes (env : Env) (decl : VariableDecl) (code : Code) : Prop :=
  (decl.init = none ∧ code = [])
    ∨ ∃ init place u v, decl.init = some init
      ∧ storeValue env place decl.ty init (eval env init) u = .ok (code, v)

/-- A variable hands out no label, and is the code of its initial value. -/
theorem outlineVariable_ok {decl : VariableDecl} {s t : State} {o : Outline}
    (h : outlineVariable env decl s = .ok (o, t)) :
    t.frame.nextLabel = s.frame.nextLabel
      ∧ ∃ code, o = Flow.ofCode code ∧ Initializes env decl code := by
  unfold outlineVariable at h
  simp only [bind_ok, lift_ok, framed?_ok] at h
  obtain ⟨size, _, ⟨-, rfl⟩, offset, _, ⟨frame, halloc, rfl⟩, h⟩ := h
  have hframe : frame.nextLabel = s.frame.nextLabel := by rw [alloc?_kept halloc]
  have hbind : ∀ (f : Frame) (name : String) (slot : StackSlot),
      (f.bind name slot).nextLabel = f.nextLabel := by
    intro f name slot
    unfold Frame.bind
    split
    · rfl
    · rfl
  -- whatever the initializer is, its code is generated from a calm state
  have hrest : ∀ (step : Gen Code), Quiet step →
      (∀ u code v, step u = .ok (code, v) → Initializes env decl code) →
      (do
        let code ← step
        framed fun f => ((), f.bind decl.name ⟨offset, decl.ty⟩)
        return Flow.ofCode code : Gen Outline) { s with frame } = .ok (o, t) →
      t.frame.nextLabel = s.frame.nextLabel
        ∧ ∃ code, o = Flow.ofCode code ∧ Initializes env decl code := by
    intro step hquiet hinit hstep
    simp only [bind_ok, framed_ok, pure_ok] at hstep
    obtain ⟨code, u, hcode, _, _, ⟨_, hpair, rfl⟩, rfl, rfl⟩ := hstep
    cases hpair
    refine ⟨?_, code, rfl, hinit _ _ _ hcode⟩
    rw [hbind, (hquiet _ _ _ hcode).nextLabel]
    exact hframe
  cases hinit : decl.init with
  | none =>
      rw [hinit] at h
      refine hrest _ (Quiet.pure _) ?_ h
      intro u code v hcode
      obtain ⟨rfl, -⟩ := pure_ok.1 hcode
      exact Or.inl ⟨hinit, rfl⟩
  | some init =>
      rw [hinit] at h
      cases hty : decl.ty <;> rw [hty] at h hrest
      case named name =>
        exact hrest _ (Quiet.fail _) (fun _ _ _ hcode => (fail_ok.1 hcode).elim) h
      all_goals
        refine hrest _ (storeValue_quiet _ _ (eval_quiet env init)) ?_ h
        intro u code v hcode
        exact Or.inr ⟨init, _, u, v, hinit, hty ▸ hcode⟩

mutual

/-- The outline of a statement leaves on every way exactly when the
statement returns on every way. -/
theorem outline_leaves : ∀ (st : Stmt) {s t : State} {o : Outline},
    outline env st s = .ok (o, t) → Flow.anyLeaves o = returns st
  | .block body, s, t, o, h => by
      unfold outline at h
      obtain ⟨u, hbody, -⟩ := inside_ok.1 h
      rw [outlines_leaves body hbody, returns]
  | .branch arm, s, t, o, h => by
      unfold outline at h
      rw [outlineArm_leaves none arm h, returns]
  | .loop e body pos, s, t, o, h => by
      rw [returns]
      rcases outline_loop_ok h with ⟨-, -, rfl, -⟩ | ⟨_, _, _, _, _, _, _, -, -, -, -, -, rfl⟩
      · rfl
      · rw [Flow.anyLeaves_cons, Flow.anyLeaves_nil, Flow.leaves]
        rfl
      · exact fun _ _ => nofun
      · exact nofun
      · exact fun _ => nofun
  | .ret value pos, s, t, o, h => by
      unfold outline at h
      obtain ⟨-, code, rfl⟩ := outlineRet_ok h
      rw [Flow.anyLeaves_append, Flow.anyLeaves_ofCode, Flow.anyLeaves_cons, Flow.leaves, returns]
      rfl
  | .variable decl, s, t, o, h => by
      unfold outline at h
      obtain ⟨-, code, rfl, -⟩ := outlineVariable_ok h
      rw [Flow.anyLeaves_ofCode, returns]
      · exact fun _ _ => nofun
      · exact nofun
      · exact fun _ => nofun
  | .expr e, s, t, o, h => by
      unfold outline at h
      obtain ⟨code, -, rfl⟩ := map_ok.1 h
      rw [Flow.anyLeaves_ofCode, returns]
      · exact fun _ _ => nofun
      · exact nofun
      · exact fun _ => nofun
  | .function _, s, t, o, h => (outline_function h).elim
  | .aggregate _, s, t, o, h => (outline_aggregate h).elim

/-- A list of statements leaves where one of them returns. -/
theorem outlines_leaves : ∀ (body : List Stmt) {s t : State} {o : Outline},
    outlines env body s = .ok (o, t) → Flow.anyLeaves o = anyReturns body
  | [], s, t, o, h => by
      unfold outlines at h
      obtain ⟨rfl, -⟩ := pure_ok.1 h
      rw [Flow.anyLeaves_nil, anyReturns]
  | st :: rest, s, t, o, h => by
      obtain ⟨first, others, u, hfirst, hothers, rfl⟩ := outlines_cons_ok h
      rw [Flow.anyLeaves_append, outline_leaves st hfirst, outlines_leaves rest hothers, anyReturns]

theorem outlineArm_leaves : ∀ (shared : Option Nat) (arm : Arm) {s t : State} {o : Outline},
    outlineArm env shared arm s = .ok (o, t) → Flow.anyLeaves o = armReturns arm
  | shared, ⟨e, consequent, alternate, pos⟩, s, t, o, h => by
      have hother := fun (sh : Option Nat) {s t : State} {o : Outline} =>
        outlineOther_leaves sh alternate (s := s) (t := t) (o := o)
      rw [armReturns]
      cases hc : e.isConstant with
      | true =>
          rw [if_pos rfl]
          rcases outlineArm_constant_ok hc h with ⟨hzero, hother'⟩ | ⟨hzero, hfirst⟩
          · rw [hzero]
            exact hother shared hother'
          · obtain ⟨u, hbody, -⟩ := inside_ok.1 hfirst
            rw [hzero]
            exact outlines_leaves consequent hbody
      | false =>
          rw [if_neg Bool.false_ne_true]
          obtain ⟨done, code, first, closed, u, -, -, hkind⟩ := outlineArm_open_ok hc h
          rcases hkind with ⟨halt, v, -, hfirst, rfl⟩
            | ⟨-, other, second, v, w, x, -, -, hfirst, hsecond, rfl⟩
          · rw [Flow.anyLeaves_append, Flow.anyLeaves_ofCode, Flow.anyLeaves_cons, Flow.leaves,
              Flow.anyLeaves_nil, halt, alternateReturns, Bool.and_false, Bool.and_false]
            rfl
          · obtain ⟨y, hbody, -⟩ := inside_ok.1 hfirst
            rw [Flow.anyLeaves_append, Flow.anyLeaves_ofCode, Flow.anyLeaves_cons, Flow.leaves,
              Flow.anyLeaves_nil, outlines_leaves consequent hbody, hother (some done) hsecond,
              Bool.or_false, Bool.false_or]

theorem outlineOther_leaves : ∀ (shared : Option Nat) (alternate : Alternate) {s t : State}
    {o : Outline}, outlineOther env shared alternate s = .ok (o, t) →
    Flow.anyLeaves o = alternateReturns alternate
  | _, .none, s, t, o, h => by
      unfold outlineOther at h
      obtain ⟨rfl, -⟩ := pure_ok.1 h
      rw [Flow.anyLeaves_nil, alternateReturns]
  | _, .block body, s, t, o, h => by
      unfold outlineOther at h
      obtain ⟨u, hbody, -⟩ := inside_ok.1 h
      rw [outlines_leaves body hbody, alternateReturns]
  | shared, .elseIf arm, s, t, o, h => by
      unfold outlineOther at h
      rw [outlineArm_leaves shared arm h, alternateReturns]

end

-- ====================================================== ranges of labels

/-- Whether lines define distinct labels from `lo` on and below `hi`, and
jump nowhere else but to the exit. -/
structure Within (lo hi : Nat) (exit : Option Nat) (ls : Lines) : Prop where
  le : lo ≤ hi
  nodup : (labels ls).Nodup
  defined : ∀ n ∈ labels ls, lo ≤ n ∧ n < hi
  jumped : ∀ n ∈ targets ls, (lo ≤ n ∧ n < hi) ∨ exit = some n

/-- Code has no labels. -/
theorem Within.ofCode (n : Nat) (exit : Option Nat) (code : Code) :
    Within n n exit (Flow.flatten (Flow.ofCode code)) := by
  rw [Flow.flatten_ofCode]
  refine ⟨Nat.le_refl n, ?_, ?_, ?_⟩
  · rw [lines, labels_map_insn]
    exact List.nodup_nil
  · rw [lines, labels_map_insn]
    exact nofun
  · rw [lines, targets_map_insn]
    exact nofun

/-- Consecutive ranges make one. -/
theorem Within.append {lo mid hi : Nat} {exit : Option Nat} {a b : Lines}
    (ha : Within lo mid exit a) (hb : Within mid hi exit b) : Within lo hi exit (a ++ b) := by
  have hlo := ha.le
  have hhi := hb.le
  refine ⟨Nat.le_trans hlo hhi, ?_, ?_, ?_⟩
  · rw [labels_append]
    refine List.nodup_append.2 ⟨ha.nodup, hb.nodup, ?_⟩
    rintro n hn m hm rfl
    have hna := ha.defined n hn
    have hnb := hb.defined n hm
    omega
  · intro n hn
    rw [labels_append] at hn
    rcases List.mem_append.1 hn with hn | hn
    · have := ha.defined n hn
      omega
    · have := hb.defined n hn
      omega
  · intro n hn
    rw [targets_append] at hn
    rcases List.mem_append.1 hn with hn | hn
    · rcases ha.jumped n hn with hin | hexit
      · exact Or.inl (by omega)
      · exact Or.inr hexit
    · rcases hb.jumped n hn with hin | hexit
      · exact Or.inl (by omega)
      · exact Or.inr hexit

/-- Lines without an exit have every exit. -/
theorem Within.anyExit {lo hi : Nat} {ls : Lines} (h : Within lo hi none ls)
    (exit : Option Nat) : Within lo hi exit ls :=
  ⟨h.le, h.nodup, h.defined, fun n hn => Or.inl ((h.jumped n hn).resolve_right nofun)⟩

theorem labels_bottom (enter : Nat) (test : Option Code) :
    labels (Flow.bottom enter test) = [] := by
  cases test with
  | none => rfl
  | some code =>
      unfold Flow.bottom lines
      rw [labels_append, labels_map_insn]
      rfl

theorem targets_bottom (enter : Nat) (test : Option Code) :
    targets (Flow.bottom enter test) = [enter] := by
  cases test with
  | none => rfl
  | some code =>
      unfold Flow.bottom lines
      rw [targets_append, targets_map_insn]
      rfl

/-- A cycle has the labels of its start, of its body and of its test. -/
theorem labels_cycle (test : Option Code) (enter check : Nat) (body : Outline) :
    labels (Flow.flatten [.cycle test enter check body])
      = enter :: (labels (Flow.flatten body) ++ [check]) := by
  rw [Flow.flatten_cycle]
  simp only [labels_append, labels_jump, labels_label, labels_nil, labels_bottom, List.append_nil,
    List.nil_append, List.cons_append]

/-- A cycle goes to its test and to its start. -/
theorem targets_cycle (test : Option Code) (enter check : Nat) (body : Outline) :
    targets (Flow.flatten [.cycle test enter check body])
      = check :: (targets (Flow.flatten body) ++ [enter]) := by
  rw [Flow.flatten_cycle]
  simp only [targets_append, targets_jump, targets_label, targets_nil, targets_bottom,
    List.append_nil, List.nil_append, List.cons_append]

/-- A cycle's labels are its own two and those of its body. -/
theorem Within.cycle {lo hi : Nat} {body : Outline} (test : Option Code)
    (h : Within (lo + 2) hi none (Flow.flatten body)) :
    Within lo hi none (Flow.flatten [.cycle test lo (lo + 1) body]) := by
  have hle := h.le
  have hlabels := labels_cycle test lo (lo + 1) body
  have htargets := targets_cycle test lo (lo + 1) body
  refine ⟨by omega, ?_, ?_, ?_⟩
  · rw [hlabels]
    refine List.nodup_cons.2 ⟨?_, List.nodup_append.2 ⟨h.nodup, by simp, ?_⟩⟩
    · intro hmem
      rcases List.mem_append.1 hmem with hmem | hmem
      · have := h.defined _ hmem
        omega
      · have := List.mem_singleton.1 hmem
        omega
    · rintro n hn m hm rfl
      have := h.defined _ hn
      have := List.mem_singleton.1 hm
      omega
  · intro n hn
    rw [hlabels] at hn
    simp only [List.mem_cons, List.mem_append, List.not_mem_nil, or_false] at hn
    rcases hn with rfl | hn | rfl
    · omega
    · have := h.defined _ hn
      omega
    · omega
  · intro n hn
    rw [htargets] at hn
    simp only [List.mem_cons, List.mem_append, List.not_mem_nil, or_false] at hn
    rcases hn with rfl | hn | rfl
    · exact Or.inl (by omega)
    · have := (h.jumped _ hn).resolve_right nofun
      exact Or.inl (by omega)
    · exact Or.inl (by omega)

/-- A single jump, to the exit or within the range. -/
theorem Within.jump {n : Nat} (kind : Jump) (target : Nat) :
    Within n n (some target) [.jump kind target] := by
  refine ⟨Nat.le_refl n, List.nodup_nil, nofun, ?_⟩
  intro m hm
  exact Or.inr (congrArg some (List.mem_singleton.1 hm).symm)

/-- The lines of a fork with one way, without its end. -/
theorem Within.oneWay {lo hi done : Nat} {first : Lines} (code : Code)
    (h : Within lo hi none first) :
    Within lo hi (some done) (lines code ++ [.jump .je done] ++ first) := by
  have hcode := Within.ofCode lo (some done) code
  rw [Flow.flatten_ofCode] at hcode
  exact (hcode.append (Within.jump .je done)).append (h.anyExit _)

/-- A fork with two sides has the label of the second between theirs. -/
theorem labels_twoWays (code : Code) (other done : Nat) (first second : Lines) :
    labels (lines code ++ [.jump .je other] ++ first ++ Flow.skip done first
      ++ [.label other] ++ second) = labels first ++ other :: labels second := by
  unfold Flow.skip lines
  split <;>
    simp only [labels_append, labels_map_insn, labels_jump, labels_label,
      List.append_nil, List.nil_append, List.cons_append, List.append_assoc]

/-- A fork goes to its second side, and behind both unless the first leaves. -/
theorem mem_targets_twoWays (code : Code) (other done : Nat) (first second : Lines) {n : Nat} :
    n ∈ targets (lines code ++ [.jump .je other] ++ first ++ Flow.skip done first
        ++ [.label other] ++ second)
      ↔ n = other ∨ n ∈ targets first ∨ (endsInEpilogue first = false ∧ n = done)
        ∨ n ∈ targets second := by
  unfold Flow.skip lines
  cases endsInEpilogue first <;>
    simp only [if_true, if_false, Bool.false_eq_true, Bool.true_eq_false, targets_append,
      targets_map_insn, targets_jump, targets_label, List.append_nil,
      List.nil_append, List.cons_append, List.append_assoc, List.mem_cons, List.mem_append,
      true_and, false_and, false_or]

/-- The lines of a fork with two ways, without its end. -/
theorem Within.twoWays {lo mid hi done : Nat} {first second : Lines} (code : Code)
    (hfirst : Within (lo + 1) mid none first) (hsecond : Within mid hi (some done) second) :
    Within lo hi (some done) (lines code ++ [.jump .je lo] ++ first ++ Flow.skip done first
      ++ [.label lo] ++ second) := by
  have hle := hfirst.le
  have hle' := hsecond.le
  have hlabels := labels_twoWays code lo done first second
  refine ⟨by omega, ?_, ?_, ?_⟩
  · rw [hlabels]
    refine List.nodup_append.2 ⟨hfirst.nodup, List.nodup_cons.2 ⟨?_, hsecond.nodup⟩, ?_⟩
    · intro hmem
      have := hsecond.defined _ hmem
      omega
    · rintro n hn m hm rfl
      have := hfirst.defined _ hn
      rcases List.mem_cons.1 hm with rfl | hm
      · omega
      · have := hsecond.defined _ hm
        omega
  · intro n hn
    rw [hlabels] at hn
    rcases List.mem_append.1 hn with hn | hn
    · have := hfirst.defined _ hn
      omega
    · rcases List.mem_cons.1 hn with rfl | hn
      · omega
      · have := hsecond.defined _ hn
        omega
  · intro n hn
    rcases (mem_targets_twoWays code lo done first second).1 hn with rfl | hn | ⟨-, rfl⟩ | hn
    · exact Or.inl (by omega)
    · have := (hfirst.jumped _ hn).resolve_right nofun
      exact Or.inl (by omega)
    · exact Or.inr rfl
    · rcases hsecond.jumped _ hn with hin | hexit
      · exact Or.inl (by omega)
      · exact Or.inr hexit

/-- With its end label, defined or not, an if chain has no exit. -/
theorem Within.ending {done hi : Nat} {ls : Lines} (closed : Bool)
    (h : Within (done + 1) hi (some done) ls) :
    Within done hi none (ls ++ Flow.ending done closed) := by
  have hle := h.le
  have hjumped : ∀ n ∈ targets ls, done ≤ n ∧ n < hi := by
    intro n hn
    rcases h.jumped n hn with hin | hexit
    · omega
    · cases hexit
      omega
  have htargets : targets (ls ++ Flow.ending done closed) = targets ls := by
    unfold Flow.ending
    cases closed <;>
      simp only [Bool.false_eq_true, if_false, if_true, targets_append, targets_label,
        targets_nil, List.append_nil]
  refine ⟨by omega, ?_, ?_, ?_⟩
  · unfold Flow.ending
    cases closed with
    | false =>
        rw [if_neg Bool.false_ne_true, List.append_nil]
        exact h.nodup
    | true =>
        rw [if_pos rfl, labels_append, labels_label]
        refine List.nodup_append.2 ⟨h.nodup, by simp, ?_⟩
        rintro n hn m hm rfl
        have := h.defined _ hn
        have := List.mem_singleton.1 hm
        omega
  · intro n hn
    rw [labels_append] at hn
    rcases List.mem_append.1 hn with hn | hn
    · have := h.defined _ hn
      omega
    · unfold Flow.ending at hn
      cases closed with
      | false => cases hn
      | true =>
          have := List.mem_singleton.1 hn
          omega
  · intro n hn
    rw [htargets] at hn
    exact Or.inl (hjumped n hn)

mutual

/-- The code of a statement keeps to the labels handed out for it. -/
theorem outline_within : ∀ (st : Stmt) {s t : State} {o : Outline},
    outline env st s = .ok (o, t) →
    Within s.frame.nextLabel t.frame.nextLabel none (Flow.flatten o)
  | .block body, s, t, o, h => by
      unfold outline at h
      obtain ⟨u, hbody, rfl⟩ := inside_ok.1 h
      have hw := outlines_within body hbody
      exact hw
  | .branch arm, s, t, o, h => by
      unfold outline at h
      exact outlineArm_within none arm h
  | .loop e body pos, s, t, o, h => by
      rcases outline_loop_ok h with ⟨-, -, rfl, rfl⟩
        | ⟨enter, check, test, inner, u, v, w, -, henter, hcheck, hinner, htest, rfl⟩
      · exact Within.ofCode _ none []
      · obtain ⟨rfl, rfl⟩ := freshLabel_ok.1 henter
        obtain ⟨rfl, rfl⟩ := freshLabel_ok.1 hcheck
        obtain ⟨x, hbody, rfl⟩ := inside_ok.1 hinner
        have hw : Within (s.frame.nextLabel + 2) x.frame.nextLabel none (Flow.flatten inner) :=
          outlines_within body hbody
        have ht : t.frame.nextLabel = x.frame.nextLabel := by
          rcases htest with ⟨-, -, rfl⟩ | ⟨-, code, hcode, -⟩
          · rfl
          · exact (test_quiet env e _ _ _ hcode).nextLabel
        rw [ht]
        exact Within.cycle test hw
  | .ret value pos, s, t, o, h => by
      unfold outline at h
      obtain ⟨hcalm, code, rfl⟩ := outlineRet_ok h
      rw [hcalm.nextLabel, Flow.flatten_append]
      refine (Within.ofCode _ none code).append ⟨Nat.le_refl _, ?_, ?_, ?_⟩
      · exact List.nodup_nil
      · exact nofun
      · exact nofun
  | .variable decl, s, t, o, h => by
      unfold outline at h
      obtain ⟨hnext, code, rfl, -⟩ := outlineVariable_ok h
      rw [hnext]
      exact Within.ofCode _ none code
  | .expr e, s, t, o, h => by
      unfold outline at h
      obtain ⟨code, hcode, rfl⟩ := map_ok.1 h
      rw [(effect_quiet env e _ _ _ hcode).nextLabel]
      exact Within.ofCode _ none code
  | .function _, s, t, o, h => (outline_function h).elim
  | .aggregate _, s, t, o, h => (outline_aggregate h).elim

theorem outlines_within : ∀ (body : List Stmt) {s t : State} {o : Outline},
    outlines env body s = .ok (o, t) →
    Within s.frame.nextLabel t.frame.nextLabel none (Flow.flatten o)
  | [], s, t, o, h => by
      unfold outlines at h
      obtain ⟨rfl, rfl⟩ := pure_ok.1 h
      exact Within.ofCode _ none []
  | st :: rest, s, t, o, h => by
      obtain ⟨first, others, u, hfirst, hothers, rfl⟩ := outlines_cons_ok h
      rw [Flow.flatten_append]
      exact (outline_within st hfirst).append (outlines_within rest hothers)

/-- An arm is within its range, but for the end that it shares. -/
theorem outlineArm_within : ∀ (shared : Option Nat) (arm : Arm) {s t : State} {o : Outline},
    outlineArm env shared arm s = .ok (o, t) →
    Within s.frame.nextLabel t.frame.nextLabel shared (Flow.flatten o)
  | shared, ⟨e, consequent, alternate, pos⟩, s, t, o, h => by
      have hother := fun (sh : Option Nat) {s t : State} {o : Outline} =>
        outlineOther_within sh alternate (s := s) (t := t) (o := o)
      cases hc : e.isConstant with
      | true =>
          rcases outlineArm_constant_ok hc h with ⟨-, hother'⟩ | ⟨-, hfirst⟩
          · exact hother shared hother'
          · obtain ⟨u, hbody, rfl⟩ := inside_ok.1 hfirst
            exact (outlines_within consequent hbody).anyExit shared
      | false =>
          obtain ⟨done, code, first, closed, u, hclosed, hend, hkind⟩ := outlineArm_open_ok hc h
          -- without its end the arm keeps to the labels behind the end label
          obtain ⟨core, hcore, hflat⟩ : ∃ core,
              Within u.frame.nextLabel t.frame.nextLabel (some done) core
                ∧ Flow.flatten o = core ++ Flow.ending done closed := by
            rcases hkind with ⟨-, v, hcode, hfirst, rfl⟩
              | ⟨-, other, second, v, w, x, hfresh, hcode, hfirst, hsecond, rfl⟩
            · obtain ⟨y, hbody, rfl⟩ := inside_ok.1 hfirst
              have hw := outlines_within consequent hbody
              rw [← (test_quiet env e _ _ _ hcode).nextLabel]
              exact ⟨_, Within.oneWay code hw, Flow.flatten_fork_none ..⟩
            · obtain ⟨rfl, rfl⟩ := freshLabel_ok.1 hfresh
              obtain ⟨y, hbody, rfl⟩ := inside_ok.1 hfirst
              have hfirst := outlines_within consequent hbody
              have hsecond := hother (some done) hsecond
              have hw : Within w.frame.nextLabel y.frame.nextLabel none (Flow.flatten first) :=
                hfirst
              rw [(test_quiet env e _ _ _ hcode).nextLabel] at hw
              exact ⟨_, Within.twoWays code hw hsecond, Flow.flatten_fork_some ..⟩
          rw [hflat]
          rcases hend with ⟨rfl, rfl⟩ | ⟨rfl, hfresh⟩
          · rw [hclosed]
            show Within _ _ _ (core ++ [])
            rw [List.append_nil]
            exact hcore
          · obtain ⟨rfl, rfl⟩ := freshLabel_ok.1 hfresh
            exact hcore.ending closed

theorem outlineOther_within : ∀ (shared : Option Nat) (alternate : Alternate) {s t : State}
    {o : Outline}, outlineOther env shared alternate s = .ok (o, t) →
    Within s.frame.nextLabel t.frame.nextLabel shared (Flow.flatten o)
  | shared, .none, s, t, o, h => by
      unfold outlineOther at h
      obtain ⟨rfl, rfl⟩ := pure_ok.1 h
      exact Within.ofCode _ shared []
  | shared, .block body, s, t, o, h => by
      unfold outlineOther at h
      obtain ⟨u, hbody, rfl⟩ := inside_ok.1 h
      exact (outlines_within body hbody).anyExit shared
  | shared, .elseIf arm, s, t, o, h => by
      unfold outlineOther at h
      exact outlineArm_within shared arm h

end

end MiniC.Codegen
