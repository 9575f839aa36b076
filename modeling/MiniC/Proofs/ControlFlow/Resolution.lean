/-
Which jumps find their labels.

# Two grounds

The end label of an if chain is left out when every arm returns, on the ground
that nothing falls through to it; the jump to it behind an arm is left out when
the arm's last line is an epilogue. The two grounds differ for an arm that has
code behind its return: the arm returns, so the label may be missing, and its
last line is no epilogue, so the jump is there. `settled` says of a statement
that it contains no such chain.

# How code ends

Whether the last line is an epilogue is computed from the source by `tail`,
which has to go through a chain from its first arm on: the last arm that has any
code decides, and the label behind a chain counts as code (`outlines_tail`).

# Exactly

`settled` is exactly the condition under which every jump of the generated code
finds its label (`outlines_resolved`). For an arm of a chain two things are
proved together: it resolves to the chain's end if it is settled, and it jumps
there as `jumpsToEnd` says. Ranges of label numbers keep one piece of code from
resolving the jumps of another (`Within.resolvedTo_append`).
Consumed by the theorem about the labels of assembled functions.
-/
import MiniC.Proofs.Codegen.Emission
import MiniC.Proofs.ControlFlow.Labels

namespace MiniC.Codegen

open Asm Steps Line

-- ==================================================== how code comes to an end

mutual

/-- How the code of a statement ends: in an epilogue or not, if there is
any code. -/
def tail : Stmt → Option Bool
  | .block body => tails body
  | .branch arm => armTail true arm
  | .loop e _ _ =>
    if e.isConstant then
      match e.foldsToZero with
      | .ok true => none
      | _ => some false
    else some false
  | .ret _ _ => some true
  | .variable decl => if decl.init.isSome then some false else none
  | .expr _ => some false
  | .function _ => none
  | .aggregate _ => none

/-- How the code of statements ends: as that of the last one that has any. -/
def tails : List Stmt → Option Bool
  | [] => none
  | s :: rest => (tails rest).or (tail s)

/-- How the code of an if chain ends from an arm on, its first arm or a
later one. -/
def armTail : Bool → Arm → Option Bool
  | first, ⟨e, consequent, alternate, pos⟩ =>
    if e.isConstant then
      match e.foldsToZero with
      | .ok true => alternateTail first alternate
      | _ => tails consequent
    else if first && !armReturns ⟨e, consequent, alternate, pos⟩ then some false
    else
      match alternate with
      | .none => some ((tails consequent).getD false)
      | alternate => some ((alternateTail false alternate).getD false)

/-- How the code of an alternate ends. -/
def alternateTail : Bool → Alternate → Option Bool
  | _, .none => none
  | _, .block body => tails body
  | first, .elseIf arm => armTail first arm

end

-- ============================================================== settled

mutual

/-- Whether the code of an if chain from an arm on jumps to the chain's end. -/
def jumpsToEnd : Arm → Bool
  | ⟨e, consequent, alternate, _⟩ =>
    if e.isConstant then
      match e.foldsToZero with
      | .ok true => otherJumpsToEnd alternate
      | _ => false
    else
      match alternate with
      | .none => true
      | alternate => tails consequent != some true || otherJumpsToEnd alternate

/-- Whether the code of an alternate jumps to the end of its chain. -/
def otherJumpsToEnd : Alternate → Bool
  | .none => false
  | .block _ => false
  | .elseIf arm => jumpsToEnd arm

end

mutual

/-- Whether no if chain in a statement returns on every way and jumps to
its end nevertheless. What folding drops does not count. -/
def settled : Stmt → Bool
  | .block body => allSettled body
  | .branch arm => armSettled true arm
  | .loop e body _ =>
    if e.isConstant then
      match e.foldsToZero with
      | .ok true => true
      | _ => allSettled body
    else allSettled body
  | _ => true

/-- Whether all statements are settled. -/
def allSettled : List Stmt → Bool
  | [] => true
  | s :: rest => settled s && allSettled rest

/-- Whether an if chain is settled from an arm on, its first arm or a later
one. -/
def armSettled : Bool → Arm → Bool
  | first, ⟨e, consequent, alternate, pos⟩ =>
    if e.isConstant then
      match e.foldsToZero with
      | .ok true => otherSettled first alternate
      | _ => allSettled consequent
    else
      !(first && armReturns ⟨e, consequent, alternate, pos⟩
          && jumpsToEnd ⟨e, consequent, alternate, pos⟩)
        && (allSettled consequent && otherSettled false alternate)

/-- Whether an alternate is settled. -/
def otherSettled : Bool → Alternate → Bool
  | _, .none => true
  | _, .block body => allSettled body
  | first, .elseIf arm => armSettled first arm

end

variable {env : Env}

/-- How lines end: in an epilogue or not, if there are any. -/
def lastTail (ls : Lines) : Option Bool := ls.getLast?.map Line.isEpilogue

/-- The last of two pieces that has lines decides. -/
theorem lastTail_append (a b : Lines) : lastTail (a ++ b) = (lastTail b).or (lastTail a) := by
  unfold lastTail
  rw [List.getLast?_append]
  cases b.getLast? <;> rfl

/-- A last line decides. -/
theorem lastTail_concat (a : Lines) (line : Line Instr) :
    lastTail (a ++ [line]) = some line.isEpilogue := by
  rw [lastTail_append]
  rfl

/-- What the assembler looks at is how lines end. -/
theorem endsInEpilogue_eq (ls : Lines) : endsInEpilogue ls = (lastTail ls).getD false := by
  unfold endsInEpilogue lastTail
  cases ls.getLast? <;> rfl

/-- Code without jumps ends in no epilogue. -/
theorem lastTail_lines {code : Code} (h : code ≠ []) : lastTail (lines code) = some false := by
  unfold lastTail lines
  rw [List.getLast?_map, Option.map_map]
  cases hlast : code.getLast? with
  | none => exact absurd (List.getLast?_eq_none_iff.1 hlast) h
  | some i => rfl

/-- Behind a line that is no epilogue, lines end in an epilogue only on
their own. -/
theorem lastTail_behind (a : Lines) (line : Line Instr) (hline : line.isEpilogue = false)
    (b : Lines) : lastTail (a ++ [line] ++ b) = some ((lastTail b).getD false) := by
  rw [lastTail_append, lastTail_concat, hline]
  cases lastTail b <;> rfl

mutual

/-- The code of a statement ends as `tail` says. -/
theorem outline_tail : ∀ (st : Stmt) {s t : State} {o : Outline},
    outline env st s = .ok (o, t) → lastTail (Flow.flatten o) = tail st
  | .block body, s, t, o, h => by
      unfold outline at h
      obtain ⟨u, hbody, -⟩ := inside_ok.1 h
      rw [outlines_tail body hbody, tail]
  | .branch arm, s, t, o, h => by
      unfold outline at h
      rw [outlineArm_tail none arm h, tail]
      rfl
  | .loop e body pos, s, t, o, h => by
      rw [tail]
      rcases outline_loop_ok h with ⟨hc, hzero, rfl, -⟩
        | ⟨enter, check, test, inner, _, _, _, hzero, -, -, -, -, rfl⟩
      · rw [if_pos hc, hzero]
        rfl
      · have hlast : lastTail (Flow.flatten [.cycle test enter check inner]) = some false := by
          rw [Flow.flatten_cycle, lastTail_append]
          cases test with
          | none => rfl
          | some code =>
              rw [Flow.bottom, lastTail_concat]
              rfl
        rw [hlast]
        cases hc : e.isConstant with
        | false => rfl
        | true =>
            rw [if_pos rfl, hzero hc]
  | .ret value pos, s, t, o, h => by
      unfold outline at h
      obtain ⟨-, code, rfl⟩ := outlineRet_ok h
      rw [Flow.flatten_append, tail]
      exact lastTail_concat _ _
  | .variable decl, s, t, o, h => by
      unfold outline at h
      obtain ⟨-, code, rfl, hinit⟩ := outlineVariable_ok h
      rw [Flow.flatten_ofCode, tail]
      rcases hinit with ⟨hnone, rfl⟩ | ⟨init, place, u, v, hsome, hcode⟩
      · rw [hnone]
        rfl
      · rw [hsome]
        exact lastTail_lines (storeValue_ne_nil hcode)
  | .expr e, s, t, o, h => by
      unfold outline at h
      obtain ⟨code, hcode, rfl⟩ := map_ok.1 h
      rw [Flow.flatten_ofCode, tail]
      exact lastTail_lines (effect_ne_nil hcode)
  | .function _, s, t, o, h => (outline_function h).elim
  | .aggregate _, s, t, o, h => (outline_aggregate h).elim

/-- Generated code ends as `tails` says. -/
theorem outlines_tail : ∀ (body : List Stmt) {s t : State} {o : Outline},
    outlines env body s = .ok (o, t) → lastTail (Flow.flatten o) = tails body
  | [], s, t, o, h => by
      unfold outlines at h
      obtain ⟨rfl, -⟩ := pure_ok.1 h
      rw [tails]
      rfl
  | st :: rest, s, t, o, h => by
      obtain ⟨first, others, u, hfirst, hothers, rfl⟩ := outlines_cons_ok h
      rw [Flow.flatten_append, lastTail_append, outline_tail st hfirst,
        outlines_tail rest hothers, tails]

/-- So does a chain from an arm on. -/
theorem outlineArm_tail : ∀ (shared : Option Nat) (arm : Arm) {s t : State} {o : Outline},
    outlineArm env shared arm s = .ok (o, t) →
    lastTail (Flow.flatten o) = armTail shared.isNone arm
  | shared, ⟨e, consequent, alternate, pos⟩, s, t, o, h => by
      have hother := fun (sh : Option Nat) {s t : State} {o : Outline} =>
        outlineOther_tail sh alternate (s := s) (t := t) (o := o)
      unfold armTail
      cases hc : e.isConstant with
      | true =>
          rw [if_pos rfl]
          rcases outlineArm_constant_ok hc h with ⟨hzero, hother'⟩ | ⟨hzero, hfirst⟩
          · rw [hzero]
            exact hother shared hother'
          · obtain ⟨u, hbody, -⟩ := inside_ok.1 hfirst
            rw [hzero]
            exact outlines_tail consequent hbody
      | false =>
          rw [if_neg Bool.false_ne_true]
          obtain ⟨done, code, first, closed, u, hclosed, -, hkind⟩ := outlineArm_open_ok hc h
          rw [← hclosed]
          -- a chain that defines its end label ends in it
          cases closed with
          | true =>
              rcases hkind with ⟨-, v, -, -, rfl⟩ | ⟨-, other, second, v, w, x, -, -, -, -, rfl⟩
              · rw [Flow.flatten_fork_none]
                exact lastTail_concat _ _
              · rw [Flow.flatten_fork_some]
                exact lastTail_concat _ _
          | false =>
              rw [if_neg Bool.false_ne_true]
              rcases hkind with ⟨halt, v, -, hfirst, rfl⟩
                | ⟨halt, other, second, v, w, x, -, -, -, hsecond, rfl⟩
              · obtain ⟨y, hbody, -⟩ := inside_ok.1 hfirst
                rw [Flow.flatten_fork_none, halt, ← outlines_tail consequent hbody]
                show lastTail (_ ++ []) = _
                rw [List.append_nil]
                exact lastTail_behind _ _ rfl _
              · have htail := lastTail_behind (lines code ++ [.jump .je other]
                  ++ Flow.flatten first ++ Flow.skip done (Flow.flatten first)) (.label other) rfl
                  (Flow.flatten second)
                rw [hother (some done) hsecond] at htail
                rw [Flow.flatten_fork_some]
                show lastTail (_ ++ []) = _
                rw [List.append_nil, htail]
                cases alternate with
                | none => exact absurd rfl halt
                | block body => rfl
                | elseIf arm => rfl

/-- So does an alternate. -/
theorem outlineOther_tail : ∀ (shared : Option Nat) (alternate : Alternate) {s t : State}
    {o : Outline}, outlineOther env shared alternate s = .ok (o, t) →
    lastTail (Flow.flatten o) = alternateTail shared.isNone alternate
  | _, .none, s, t, o, h => by
      unfold outlineOther at h
      obtain ⟨rfl, -⟩ := pure_ok.1 h
      rw [alternateTail]
      rfl
  | _, .block body, s, t, o, h => by
      unfold outlineOther at h
      obtain ⟨u, hbody, -⟩ := inside_ok.1 h
      rw [outlines_tail body hbody, alternateTail]
  | shared, .elseIf arm, s, t, o, h => by
      unfold outlineOther at h
      rw [outlineArm_tail shared arm h, alternateTail]

end

-- ================================================== jumps and their labels

/-- Whether every jump goes to a label that the lines define, or to the
exit. -/
def ResolvedTo (exit : Option Nat) (ls : Lines) : Prop :=
  ∀ n ∈ targets ls, n ∈ labels ls ∨ exit = some n

/-- Without an exit every jump has to find its label. -/
theorem resolvedTo_none {ls : Lines} : ResolvedTo none ls ↔ Resolved ls := by
  constructor
  · intro h n hn
    exact (h n hn).resolve_right nofun
  · intro h n hn
    exact Or.inl (h n hn)

/-- Code without jumps has none to resolve. -/
theorem ResolvedTo.ofCode (exit : Option Nat) (code : Code) :
    ResolvedTo exit (Flow.flatten (Flow.ofCode code)) := by
  intro n hn
  rw [Flow.flatten_ofCode, lines, targets_map_insn] at hn
  cases hn

/-- In consecutive ranges, no piece resolves the other's jumps. -/
theorem Within.resolvedTo_append {lo mid hi : Nat} {exit : Option Nat} {a b : Lines}
    (ha : Within lo mid exit a) (hb : Within mid hi exit b) :
    ResolvedTo exit (a ++ b) ↔ ResolvedTo exit a ∧ ResolvedTo exit b := by
  unfold ResolvedTo
  rw [targets_append, labels_append]
  constructor
  · intro h
    constructor
    · intro n hn
      rcases h n (List.mem_append_left _ hn) with hmem | hexit
      · rcases List.mem_append.1 hmem with hmem | hmem
        · exact Or.inl hmem
        · have hdef := hb.defined n hmem
          rcases ha.jumped n hn with hin | hexit
          · omega
          · exact Or.inr hexit
      · exact Or.inr hexit
    · intro n hn
      rcases h n (List.mem_append_right _ hn) with hmem | hexit
      · rcases List.mem_append.1 hmem with hmem | hmem
        · have hdef := ha.defined n hmem
          rcases hb.jumped n hn with hin | hexit
          · omega
          · exact Or.inr hexit
        · exact Or.inl hmem
      · exact Or.inr hexit
  · rintro ⟨hra, hrb⟩ n hn
    rcases List.mem_append.1 hn with hn | hn
    · exact (hra n hn).imp (List.mem_append_left _) id
    · exact (hrb n hn).imp (List.mem_append_right _) id

/-- Lines without an exit jump to no label handed out before them. -/
theorem Within.not_mem_targets {lo hi n : Nat} {ls : Lines} (h : Within lo hi none ls)
    (hn : n < lo) : n ∉ targets ls := fun hmem =>
  absurd ((h.jumped n hmem).resolve_right nofun).1 (Nat.not_le.2 hn)

/-- An exit outside the range of lines without one makes no difference. -/
theorem Within.resolvedTo_anyExit {lo hi : Nat} {ls : Lines} (h : Within lo hi none ls)
    {exit : Option Nat} (hexit : ∀ d, exit = some d → d < lo) :
    ResolvedTo exit ls ↔ Resolved ls := by
  constructor
  · intro hr n hn
    rcases hr n hn with hmem | hout
    · exact hmem
    · exact absurd hn (h.not_mem_targets (hexit n hout))
  · intro hr n hn
    exact Or.inl (hr n hn)

/-- The two labels of a cycle are defined, so its jumps resolve if those of
its body do. -/
theorem Within.resolved_cycle {lo hi : Nat} {body : Outline} (test : Option Code)
    (h : Within (lo + 2) hi none (Flow.flatten body)) :
    Resolved (Flow.flatten [.cycle test lo (lo + 1) body]) ↔ Resolved (Flow.flatten body) := by
  have hlabels := labels_cycle test lo (lo + 1) body
  have htargets := targets_cycle test lo (lo + 1) body
  unfold Resolved
  rw [hlabels, htargets]
  constructor
  · intro hr n hn
    have hin := (h.jumped n hn).resolve_right nofun
    have hmem := hr n (List.mem_cons_of_mem _ (List.mem_append_left _ hn))
    simp only [List.mem_cons, List.mem_append, List.not_mem_nil, or_false] at hmem
    rcases hmem with rfl | hmem | rfl
    · omega
    · exact hmem
    · omega
  · intro hr n hn
    simp only [List.mem_cons, List.mem_append, List.not_mem_nil, or_false] at hn ⊢
    rcases hn with rfl | hn | rfl
    · exact Or.inr (Or.inr rfl)
    · exact Or.inr (Or.inl (hr n hn))
    · exact Or.inl rfl

/-- A fork with one way resolves to its end if the way resolves, and jumps
to its end. -/
theorem Within.resolvedTo_oneWay {lo hi done : Nat} {first : Lines} (code : Code)
    (h : Within lo hi none first) (hdone : done < lo) :
    (ResolvedTo (some done) (lines code ++ [.jump .je done] ++ first) ↔ Resolved first)
      ∧ done ∈ targets (lines code ++ [.jump .je done] ++ first) := by
  have hcode := Within.ofCode lo (some done) code
  rw [Flow.flatten_ofCode] at hcode
  have hhead := hcode.append (Within.jump .je done)
  have hhead' : ResolvedTo (some done) (lines code ++ [.jump .je done]) := by
    intro n hn
    rw [targets_append, lines, targets_map_insn] at hn
    exact Or.inr (congrArg some (List.mem_singleton.1 hn).symm)
  have hexit : ∀ d, some done = some d → d < lo := by
    rintro d ⟨⟩
    exact hdone
  constructor
  · rw [hhead.resolvedTo_append (h.anyExit _), h.resolvedTo_anyExit hexit]
    exact ⟨fun hr => hr.2, fun hr => ⟨hhead', hr⟩⟩
  · rw [targets_append, targets_append]
    exact List.mem_append_left _ (List.mem_append_right _ List.mem_cons_self)

/-- A fork with two ways resolves to its end if both ways do, and jumps to
its end if it skips the second way or the second way jumps there. -/
theorem Within.resolvedTo_twoWays {lo mid hi done : Nat} {first second : Lines} (code : Code)
    (hfirst : Within (lo + 1) mid none first) (hsecond : Within mid hi (some done) second)
    (hdone : done < lo) :
    (ResolvedTo (some done) (lines code ++ [.jump .je lo] ++ first ++ Flow.skip done first
        ++ [.label lo] ++ second) ↔ Resolved first ∧ ResolvedTo (some done) second)
      ∧ (done ∈ targets (lines code ++ [.jump .je lo] ++ first ++ Flow.skip done first
        ++ [.label lo] ++ second) ↔ endsInEpilogue first = false ∨ done ∈ targets second) := by
  have hle := hfirst.le
  have hle' := hsecond.le
  have hlabels := labels_twoWays code lo done first second
  have htargets := fun n => mem_targets_twoWays code lo done first second (n := n)
  unfold ResolvedTo Resolved
  simp only [hlabels, htargets, List.mem_append, List.mem_cons]
  constructor
  · constructor
    · intro hr
      constructor
      · intro n hn
        have hin := (hfirst.jumped n hn).resolve_right nofun
        rcases hr n (Or.inr (Or.inl hn)) with (hmem | rfl | hmem) | hexit
        · exact hmem
        · omega
        · have := hsecond.defined n hmem
          omega
        · cases hexit
          omega
      · intro n hn
        rcases hsecond.jumped n hn with hin | hexit
        · rcases hr n (Or.inr (Or.inr (Or.inr hn))) with (hmem | rfl | hmem) | hexit
          · have := hfirst.defined n hmem
            omega
          · omega
          · exact Or.inl hmem
          · exact Or.inr hexit
        · exact Or.inr hexit
    · rintro ⟨hrf, hrs⟩ n (rfl | hn | ⟨-, rfl⟩ | hn)
      · exact Or.inl (Or.inr (Or.inl rfl))
      · exact Or.inl (Or.inl (hrf n hn))
      · exact Or.inr rfl
      · exact (hrs n hn).imp (fun hmem => Or.inr (Or.inr hmem)) id
  · constructor
    · rintro (rfl | hn | ⟨hskip, -⟩ | hn)
      · omega
      · have := (hfirst.jumped _ hn).resolve_right nofun
        omega
      · exact Or.inl hskip
      · exact Or.inr hn
    · rintro (hskip | hn)
      · exact Or.inr (Or.inr (Or.inl ⟨hskip, trivial⟩))
      · exact Or.inr (Or.inr (Or.inr hn))

/-- The end of an if chain resolves the jumps to it if its label is defined. -/
theorem Within.resolved_ending {done hi : Nat} {ls : Lines} (closed : Bool)
    (h : Within (done + 1) hi (some done) ls) :
    Resolved (ls ++ Flow.ending done closed)
      ↔ ResolvedTo (some done) ls ∧ (closed = true ∨ done ∉ targets ls) := by
  unfold Resolved ResolvedTo Flow.ending
  cases closed with
  | true =>
      simp only [if_true, targets_append, targets_label, targets_nil, List.append_nil,
        labels_append, labels_label, labels_nil, List.mem_append, List.mem_singleton, true_or,
        and_true, Option.some.injEq, eq_comm (a := done)]
  | false =>
      simp only [Bool.false_eq_true, if_false, List.append_nil, false_or]
      constructor
      · intro hr
        refine ⟨fun n hn => Or.inl (hr n hn), fun hn => ?_⟩
        have := h.defined _ (hr done hn)
        omega
      · rintro ⟨hr, hout⟩ n hn
        rcases hr n hn with hmem | hexit
        · exact hmem
        · cases hexit
          exact absurd hn hout

/-- Without its end, an arm that has no alternate resolves to its end label,
and jumps there. -/
theorem loneArm_core {e : Expr} {consequent : List Stmt} {pos : Position} {u v w : State}
    {code : Code} {first : Outline} {done : Nat} {closed : Bool} (hc : e.isConstant = false)
    (hdone : done < u.frame.nextLabel) (hcode : MiniC.Codegen.test env e u = .ok (code, v))
    (hfirst : inside (outlines env consequent) v = .ok (first, w))
    (hsettled : ∀ {s t : State} {o : Outline}, outlines env consequent s = .ok (o, t) →
      (Resolved (Flow.flatten o) ↔ allSettled consequent = true)) :
    ∃ core, Within u.frame.nextLabel w.frame.nextLabel (some done) core
      ∧ Flow.flatten (Flow.ofCode code ++ [.fork none done closed first []])
        = core ++ Flow.ending done closed
      ∧ (ResolvedTo (some done) core
          ↔ (allSettled consequent && otherSettled false .none) = true)
      ∧ (done ∈ targets core ↔ jumpsToEnd ⟨e, consequent, .none, pos⟩ = true) := by
  obtain ⟨y, hbody, rfl⟩ := inside_ok.1 hfirst
  have hw := outlines_within consequent hbody
  have hnext := (test_quiet env e _ _ _ hcode).nextLabel
  rw [← hnext] at hdone ⊢
  obtain ⟨hr, hj⟩ := hw.resolvedTo_oneWay code hdone
  refine ⟨_, Within.oneWay code hw, Flow.flatten_fork_none .., ?_, ?_⟩
  · rw [hr, hsettled hbody, otherSettled, Bool.and_true]
  · unfold jumpsToEnd
    rw [if_neg (by rw [hc]; exact Bool.false_ne_true)]
    exact ⟨fun _ => rfl, fun _ => hj⟩

/-- Without its end, an arm that has an alternate resolves to its end label
if the alternate does, and jumps there if it skips the alternate or the
alternate jumps there. -/
theorem pairedArm_core {e : Expr} {consequent : List Stmt} {alternate : Alternate}
    {pos : Position} {u v w x t : State} {code : Code} {first second : Outline}
    {done other : Nat} {closed : Bool} (hc : e.isConstant = false)
    (hdone : done < u.frame.nextLabel) (halt : alternate ≠ .none)
    (hfresh : freshLabel u = .ok (other, v))
    (hcode : MiniC.Codegen.test env e v = .ok (code, w))
    (hfirst : inside (outlines env consequent) w = .ok (first, x))
    (hsecond : outlineOther env (some done) alternate x = .ok (second, t))
    (hsettled : ∀ {s t : State} {o : Outline}, outlines env consequent s = .ok (o, t) →
      (Resolved (Flow.flatten o) ↔ allSettled consequent = true))
    (hother : done < x.frame.nextLabel →
      (ResolvedTo (some done) (Flow.flatten second) ↔ otherSettled false alternate = true)
        ∧ ∀ d, some done = some d →
          (d ∈ targets (Flow.flatten second) ↔ otherJumpsToEnd alternate = true)) :
    ∃ core, Within u.frame.nextLabel t.frame.nextLabel (some done) core
      ∧ Flow.flatten (Flow.ofCode code ++ [.fork (some other) done closed first second])
        = core ++ Flow.ending done closed
      ∧ (ResolvedTo (some done) core
          ↔ (allSettled consequent && otherSettled false alternate) = true)
      ∧ (done ∈ targets core ↔ jumpsToEnd ⟨e, consequent, alternate, pos⟩ = true) := by
  obtain ⟨rfl, rfl⟩ := freshLabel_ok.1 hfresh
  obtain ⟨y, hbody, rfl⟩ := inside_ok.1 hfirst
  have hwsecond := outlineOther_within (some done) alternate hsecond
  have hwfirst := outlines_within consequent hbody
  have hw : Within w.frame.nextLabel y.frame.nextLabel none (Flow.flatten first) := hwfirst
  have hnext := (test_quiet env e _ _ _ hcode).nextLabel
  have hlt : done < y.frame.nextLabel := by
    have hle := hw.le
    rw [hnext] at hle
    exact Nat.lt_of_lt_of_le (Nat.lt_succ_of_lt hdone) hle
  rw [hnext] at hw
  obtain ⟨hresolved, hjumps⟩ := hother hlt
  obtain ⟨hr, hj⟩ := hw.resolvedTo_twoWays code hwsecond hdone
  refine ⟨_, Within.twoWays code hw hwsecond, Flow.flatten_fork_some .., ?_, ?_⟩
  · rw [hr, hsettled hbody, hresolved, Bool.and_eq_true]
  · unfold jumpsToEnd
    rw [if_neg (by rw [hc]; exact Bool.false_ne_true), hj, hjumps done rfl, endsInEpilogue_eq,
      outlines_tail consequent hbody]
    cases alternate with
    | none => exact absurd rfl halt
    | block body =>
        cases tails consequent with
        | none => simp
        | some ends => cases ends <;> simp
    | elseIf arm =>
        cases tails consequent with
        | none => simp
        | some ends => cases ends <;> simp

mutual

/-- The jumps of a statement find their labels exactly when it is settled. -/
theorem outline_resolved : ∀ (st : Stmt) {s t : State} {o : Outline},
    outline env st s = .ok (o, t) → (Resolved (Flow.flatten o) ↔ settled st = true)
  | .block body, s, t, o, h => by
      unfold outline at h
      obtain ⟨u, hbody, -⟩ := inside_ok.1 h
      rw [outlines_resolved body hbody, settled]
  | .branch arm, s, t, o, h => by
      unfold outline at h
      rw [← resolvedTo_none, (outlineArm_resolved none arm nofun h).1, settled]
      rfl
  | .loop e body pos, s, t, o, h => by
      rw [settled]
      rcases outline_loop_ok h with ⟨hc, hzero, rfl, -⟩
        | ⟨enter, check, test, inner, u, v, w, hzero, henter, hcheck, hinner, -, rfl⟩
      · rw [if_pos hc, hzero]
        exact ⟨fun _ => rfl, fun _ => nofun⟩
      · obtain ⟨rfl, rfl⟩ := freshLabel_ok.1 henter
        obtain ⟨rfl, rfl⟩ := freshLabel_ok.1 hcheck
        obtain ⟨x, hbody, rfl⟩ := inside_ok.1 hinner
        have hw : Within (s.frame.nextLabel + 2) x.frame.nextLabel none (Flow.flatten inner) :=
          outlines_within body hbody
        have hr := (hw.resolved_cycle test).trans (outlines_resolved body hbody)
        cases hc : e.isConstant with
        | false => exact hr
        | true =>
            rw [if_pos rfl, hzero hc]
            exact hr
  | .ret value pos, s, t, o, h => by
      unfold outline at h
      obtain ⟨-, code, rfl⟩ := outlineRet_ok h
      refine ⟨fun _ => by rw [settled] <;> nofun, fun _ n hn => ?_⟩
      rw [Flow.flatten_append, Flow.flatten_ofCode, targets_append, lines,
        targets_map_insn] at hn
      cases hn
  | .variable decl, s, t, o, h => by
      unfold outline at h
      obtain ⟨-, code, rfl, -⟩ := outlineVariable_ok h
      refine ⟨fun _ => by rw [settled] <;> nofun, fun _ => ?_⟩
      exact resolvedTo_none.1 (ResolvedTo.ofCode none code)
  | .expr e, s, t, o, h => by
      unfold outline at h
      obtain ⟨code, -, rfl⟩ := map_ok.1 h
      refine ⟨fun _ => by rw [settled] <;> nofun, fun _ => ?_⟩
      exact resolvedTo_none.1 (ResolvedTo.ofCode none code)
  | .function _, s, t, o, h => (outline_function h).elim
  | .aggregate _, s, t, o, h => (outline_aggregate h).elim

/-- The jumps of generated code find their labels exactly when its
statements are settled. -/
theorem outlines_resolved : ∀ (body : List Stmt) {s t : State} {o : Outline},
    outlines env body s = .ok (o, t) → (Resolved (Flow.flatten o) ↔ allSettled body = true)
  | [], s, t, o, h => by
      unfold outlines at h
      obtain ⟨rfl, -⟩ := pure_ok.1 h
      rw [allSettled]
      exact ⟨fun _ => rfl, fun _ => nofun⟩
  | st :: rest, s, t, o, h => by
      obtain ⟨first, others, u, hfirst, hothers, rfl⟩ := outlines_cons_ok h
      rw [Flow.flatten_append, ← resolvedTo_none,
        (outline_within st hfirst).resolvedTo_append (outlines_within rest hothers),
        resolvedTo_none, resolvedTo_none, outline_resolved st hfirst,
        outlines_resolved rest hothers, allSettled, Bool.and_eq_true]

/-- From an arm on, an if chain resolves to its end when it is settled, and
jumps to its end as `jumpsToEnd` says. -/
theorem outlineArm_resolved : ∀ (shared : Option Nat) (arm : Arm) {s t : State} {o : Outline},
    (∀ d, shared = some d → d < s.frame.nextLabel) →
    outlineArm env shared arm s = .ok (o, t) →
    (ResolvedTo shared (Flow.flatten o) ↔ armSettled shared.isNone arm = true)
      ∧ ∀ d, shared = some d → (d ∈ targets (Flow.flatten o) ↔ jumpsToEnd arm = true)
  | shared, ⟨e, consequent, alternate, pos⟩, s, t, o, hshared, h => by
      have hother := fun (sh : Option Nat) {s t : State} {o : Outline} =>
        outlineOther_resolved sh alternate (s := s) (t := t) (o := o)
      cases hc : e.isConstant with
      | true =>
          unfold armSettled jumpsToEnd
          rw [if_pos hc, if_pos hc]
          rcases outlineArm_constant_ok hc h with ⟨hzero, hother'⟩ | ⟨hzero, hfirst⟩
          · rw [hzero]
            exact hother shared hshared hother'
          · obtain ⟨u, hbody, rfl⟩ := inside_ok.1 hfirst
            have hw := outlines_within consequent hbody
            rw [hzero]
            constructor
            · rw [hw.resolvedTo_anyExit hshared]
              exact outlines_resolved consequent hbody
            · intro d hd
              exact ⟨fun hn => absurd hn (hw.not_mem_targets (hshared d hd)), nofun⟩
      | false =>
          obtain ⟨done, code, first, closed, u, hclosed, hend, hkind⟩ := outlineArm_open_ok hc h
          have hdone : done < u.frame.nextLabel := by
            rcases hend with ⟨rfl, rfl⟩ | ⟨-, hfresh⟩
            · exact hshared done rfl
            · obtain ⟨rfl, rfl⟩ := freshLabel_ok.1 hfresh
              exact Nat.lt_succ_self _
          -- without its end the arm resolves to its end label
          obtain ⟨core, hcore, hflat, hresolved, hjumps⟩ : ∃ core,
              Within u.frame.nextLabel t.frame.nextLabel (some done) core
                ∧ Flow.flatten o = core ++ Flow.ending done closed
                ∧ (ResolvedTo (some done) core
                    ↔ (allSettled consequent && otherSettled false alternate) = true)
                ∧ (done ∈ targets core
                    ↔ jumpsToEnd ⟨e, consequent, alternate, pos⟩ = true) := by
            rcases hkind with ⟨rfl, v, hcode, hfirst, rfl⟩
              | ⟨halt, other, second, v, w, x, hfresh, hcode, hfirst, hsecond, rfl⟩
            · exact loneArm_core hc hdone hcode hfirst (outlines_resolved consequent)
            · exact pairedArm_core hc hdone halt hfresh hcode hfirst hsecond
                (outlines_resolved consequent)
                fun hlt => hother (some done) (fun d hd => Option.some.inj hd ▸ hlt) hsecond
          rw [hflat]
          unfold armSettled
          rw [if_neg (by rw [hc]; exact Bool.false_ne_true)]
          rcases hend with ⟨rfl, rfl⟩ | ⟨rfl, hfresh⟩
          · -- a later arm leaves its end open
            have hopen : closed = false := hclosed
            rw [hopen]
            show (ResolvedTo _ (core ++ []) ↔ _)
              ∧ ∀ d, some done = some d → (d ∈ targets (core ++ []) ↔ _)
            rw [List.append_nil, hresolved]
            refine ⟨Iff.rfl, ?_⟩
            rintro d ⟨⟩
            exact hjumps
          · obtain ⟨rfl, rfl⟩ := freshLabel_ok.1 hfresh
            refine ⟨?_, nofun⟩
            rw [resolvedTo_none, hcore.resolved_ending closed, hresolved, hjumps, hclosed]
            generalize armReturns ⟨e, consequent, alternate, pos⟩ = r
            generalize jumpsToEnd ⟨e, consequent, alternate, pos⟩ = j
            generalize (allSettled consequent && otherSettled false alternate) = a
            cases r <;> cases j <;> cases a <;> decide

/-- An alternate resolves to the end of its chain when it is settled, and jumps
there as `otherJumpsToEnd` says. -/
theorem outlineOther_resolved : ∀ (shared : Option Nat) (alternate : Alternate) {s t : State}
    {o : Outline}, (∀ d, shared = some d → d < s.frame.nextLabel) →
    outlineOther env shared alternate s = .ok (o, t) →
    (ResolvedTo shared (Flow.flatten o) ↔ otherSettled shared.isNone alternate = true)
      ∧ ∀ d, shared = some d → (d ∈ targets (Flow.flatten o) ↔ otherJumpsToEnd alternate = true)
  | shared, .none, s, t, o, _, h => by
      unfold outlineOther at h
      obtain ⟨rfl, -⟩ := pure_ok.1 h
      rw [otherSettled, otherJumpsToEnd]
      exact ⟨⟨fun _ => rfl, fun _ => nofun⟩, fun d _ => ⟨nofun, nofun⟩⟩
  | shared, .block body, s, t, o, hshared, h => by
      unfold outlineOther at h
      obtain ⟨u, hbody, rfl⟩ := inside_ok.1 h
      have hw := outlines_within body hbody
      rw [otherSettled, otherJumpsToEnd]
      constructor
      · rw [hw.resolvedTo_anyExit hshared]
        exact outlines_resolved body hbody
      · intro d hd
        exact ⟨fun hn => absurd hn (hw.not_mem_targets (hshared d hd)), nofun⟩
  | shared, .elseIf arm, s, t, o, hshared, h => by
      unfold outlineOther at h
      rw [otherSettled, otherJumpsToEnd]
      exact outlineArm_resolved shared arm hshared h

end

end MiniC.Codegen
