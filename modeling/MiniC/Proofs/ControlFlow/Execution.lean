/-
The machine runs lines. Instructions are executed, jumps look at the flags,
and the run is over when the function is left: at an epilogue that is not
resolved yet, or at a return.

# Outlines

On outlines the same is said without labels (`Runs`): a fork and a cycle look at
the flags that the test in front of them has set. A run of an outline always
comes to its end; the proof about statements constructs one for each run of the
source that does.

# From the one to the other

Lines that follow an outline lead the machine where the outline leads it
(`Follows.reaches`). What a walk asks from outside is answered here by the
flags. A walk meets the instructions of a test before it asks for the answer
(`Paces`), so the flags are those of the test; and between two tests the walk
meets what the course meets, so the machine executes the same.

# Ending once

A run that leaves the function leaves it with one machine, however long it is
followed (`Reaches.unique`), and one that was stopped does not leave it
(`proceed_stopped`).
Consumed by the proof that generated functions follow the source.
-/
import MiniC.Proofs.ControlFlow.Following
import MiniC.Proofs.Codegen.Simulation

namespace MiniC.Codegen

open Asm Steps Line Machine Machine.Machine

-- ============================================================== running

/-- Where a machine stands: before lines, behind a function that it has left,
at a fault, or nowhere. -/
inductive Stand where
  | before (rest : Lines) (m : Machine)
  | left (m : Machine)
  | faulted (fault : Fault)
  | lost

/-- Whether a machine takes a jump, if its flags tell. -/
def takes : Jump → Machine → Option Bool
  | .jmp, _ => some true
  | .je, m => m.flags.map (·.zero)
  | .jne, m => m.flags.map fun flags => !flags.zero

/-- The machine behind the instruction that gives up a frame. -/
def unwound (m : Machine) : Machine := (m.setReg .rsp (m.regs .rbp)).pop .rbp

/-- The machine behind a return: the return address is off the stack. -/
def exited (m : Machine) : Machine := m.setReg .rsp (m.regs .rsp + 8)

/-- One step over the lines of a function. -/
def advance (ls : Lines) : Stand → Stand
  | .before [] _ => .lost
  | .before (.label _ :: rest) m => .before rest m
  | .before (.epilogue :: _) m => .left m
  | .before (.insn .ret :: _) m => .left (exited m)
  | .before (.insn .leave :: rest) m => .before rest (unwound m)
  | .before (.insn i :: rest) m =>
    match m.step i with
    | .ok m' => .before rest m'
    | .error fault => .faulted fault
  | .before (.jump kind n :: rest) m =>
    match Walk.behind n ls with
    | none => .lost
    | some dest =>
      match takes kind m with
      | some taken => .before (if taken then dest else rest) m
      | none => .faulted .illegal
  | stand => stand

/-- Where the machine stands after so many steps. -/
def proceed (ls : Lines) : Nat → Stand → Stand
  | 0, stand => stand
  | n + 1, stand => proceed ls n (advance ls stand)

/-- Whether the machine comes from one stand to another. -/
def Reaches (ls : Lines) (a b : Stand) : Prop := ∃ n, proceed ls n a = b

section Reaching

variable {ls rest dest : Lines} {a b c : Stand} {m m' : Machine}

/-- Steps in a row are steps. -/
theorem proceed_add (n k : Nat) (a : Stand) :
    proceed ls (n + k) a = proceed ls k (proceed ls n a) := by
  induction n generalizing a with
  | zero => rw [Nat.zero_add, proceed]
  | succ n ih => rw [Nat.succ_add, proceed, ih, proceed]

theorem Reaches.refl (ls : Lines) (a : Stand) : Reaches ls a a := ⟨0, rfl⟩

theorem Reaches.trans (hab : Reaches ls a b) (hbc : Reaches ls b c) : Reaches ls a c := by
  obtain ⟨n, hn⟩ := hab
  obtain ⟨k, hk⟩ := hbc
  refine ⟨n + k, ?_⟩
  rw [proceed_add, hn, hk]

theorem Reaches.step (h : advance ls a = b) : Reaches ls a b := ⟨1, h⟩

/-- The run of a function that was left is over. -/
theorem proceed_left (n : Nat) (m : Machine) : proceed ls n (.left m) = .left m := by
  induction n with
  | zero => rfl
  | succ n ih =>
      rw [proceed]
      exact ih

/-- However long a run that leaves the function goes on, it leaves it with
the same machine. -/
theorem Reaches.unique (h : Reaches ls a (.left m)) (h' : Reaches ls a (.left m')) :
    m = m' := by
  obtain ⟨n, hn⟩ := h
  obtain ⟨k, hk⟩ := h'
  have hleft : proceed ls (n + k) a = .left m := by
    rw [proceed_add, hn, proceed_left]
  have hleft' : proceed ls (k + n) a = .left m' := by
    rw [proceed_add, hk, proceed_left]
  rw [Nat.add_comm, hleft'] at hleft
  injection hleft.symm

/-- What an instruction does that neither leaves nor returns. -/
theorem advance_insn {i : Instr} (h : m.step i = .ok m') :
    advance ls (.before (.insn i :: rest) m) = .before rest m' := by
  cases i <;> first | cases h; done | skip
  all_goals
    unfold advance
    simp only [h]

/-- A jump goes where its label is, or on, as the flags say. -/
theorem advance_jump {kind : Jump} {n : Nat} {taken : Bool}
    (hdest : Walk.behind n ls = some dest) (htaken : takes kind m = some taken) :
    advance ls (.before (.jump kind n :: rest) m)
      = .before (if taken then dest else rest) m := by
  unfold advance
  simp only [hdest, htaken]

end Reaching

-- ==================================================== runs of outlines

/-- The runs of an outline from a machine to the end of the function. -/
inductive Runs : Outline → Machine → Machine → Prop
  | insn {i : Instr} {k : Outline} {m m₁ m' : Machine} :
      m.step i = .ok m₁ → Runs k m₁ m' → Runs (.insn i :: k) m m'
  | leave {k : Outline} {m : Machine} : Runs (.leave :: k) m m
  | fork {other : Option Nat} {done : Nat} {closed : Bool} {first second k : Outline}
      {m m' : Machine} {flags : Flags} :
      m.flags = some flags → Runs ((if flags.zero then second else first) ++ k) m m' →
      Runs (.fork other done closed first second :: k) m m'
  | forever {enter check : Nat} {body k : Outline} {m m' : Machine} :
      Runs (body ++ .cycle none enter check body :: k) m m' →
      Runs (.cycle none enter check body :: k) m m'
  | round {test : Code} {enter check : Nat} {body k : Outline} {m m₁ m' : Machine}
      {flags : Flags} :
      exec test m = .ok m₁ → m₁.flags = some flags →
      Runs (if flags.zero then k else body ++ .cycle (some test) enter check body :: k) m₁ m' →
      Runs (.cycle (some test) enter check body :: k) m m'

/-- Instructions in front of what is run. -/
theorem Runs.code {code : Code} {k : Outline} {m m₁ m' : Machine}
    (hcode : exec code m = .ok m₁) (h : Runs k m₁ m') : Runs (Flow.ofCode code ++ k) m m' := by
  induction code generalizing m with
  | nil =>
      cases hcode
      exact h
  | cons i code ih =>
      rw [exec_cons] at hcode
      obtain ⟨m₂, hstep, hrest⟩ := except_bind_ok.1 hcode
      exact .insn hstep (ih hrest)

-- ==================================================== following a walk

section Following

variable {ls : Lines} {answers : Nat → Bool}

/-- A walk asks no less in more steps. -/
theorem Walk.asked_le (n : Nat) (w : Walk) : w.asked ≤ (Walk.run ls answers n w).asked := by
  induction n generalizing w with
  | zero => exact Nat.le_refl _
  | succ n ih =>
      refine Nat.le_trans ?_ (ih _)
      unfold Walk.step
      repeat' split
      all_goals first | exact Nat.le_refl _ | exact Nat.le_add_right _ _

/-- Where a walk comes without a test, the machine comes that executes what
the walk met. -/
theorem reaches_walk {n asked : Nat} {code code' : Lines} {trace met : Code} {m m' : Machine}
    (hrun : Walk.run ls answers n ⟨.before code, asked, trace⟩
      = ⟨.before code', asked, trace ++ met⟩)
    (hexec : exec met m = .ok m') : Reaches ls (.before code m) (.before code' m') := by
  induction n generalizing code trace met m with
  | zero =>
      obtain ⟨hpoint, -, htrace⟩ : Point.before code = .before code' ∧ asked = asked
          ∧ trace = trace ++ met := by
        injection hrun with hpoint hasked htrace
        exact ⟨hpoint, hasked, htrace⟩
      cases hpoint
      rw [List.self_eq_append_right.1 htrace] at hexec
      cases hexec
      exact .refl ls _
  | succ n ih =>
      have hhalt : ∀ w : Walk, w.point = .ended ∨ w.point = .lost →
          Walk.run ls answers n w ≠ ⟨.before code', asked, trace ++ met⟩ := by
        intro w hw heq
        rw [Walk.run_halted hw] at heq
        subst heq
        exact hw.elim nofun nofun
      rw [Walk.run] at hrun
      cases code with
      | nil => exact absurd hrun (hhalt _ (Or.inr rfl))
      | cons line rest =>
          cases line with
          | label l => exact (Reaches.step rfl).trans (ih hrun hexec)
          | epilogue => exact absurd hrun (hhalt _ (Or.inl rfl))
          | insn i =>
              -- what is met first is the instruction
              have hstep : Walk.step ls answers ⟨.before (.insn i :: rest), asked, trace⟩
                  = ⟨.before rest, asked, trace ++ [i]⟩ := rfl
              rw [hstep] at hrun
              have hmet := @Walk.trace_run ls answers n ⟨.before rest, asked, trace ++ [i]⟩
              rw [hrun] at hmet
              obtain ⟨met', hmet'⟩ := hmet
              rw [List.append_assoc, List.append_cancel_left_eq] at hmet'
              subst hmet'
              obtain ⟨m₁, hfirst, hrest⟩ := except_bind_ok.1 ((exec_cons i met' m).symm.trans hexec)
              rw [← List.append_assoc] at hrun
              exact (Reaches.step (advance_insn hfirst)).trans (ih hrun hrest)
          | jump kind l =>
              cases hdest : Walk.behind l ls with
              | none =>
                  refine absurd hrun (hhalt _ (Or.inr ?_))
                  unfold Walk.step
                  simp only [hdest]
              | some dest =>
                  rw [step_jump hdest] at hrun
                  have hasked := @Walk.asked_le ls answers n
                    ⟨.before (if Walk.taken kind (answers asked) then dest else rest),
                      asked + Walk.uses kind, trace⟩
                  rw [hrun] at hasked
                  have hasked : asked + Walk.uses kind ≤ asked := hasked
                  cases kind with
                  | jmp => exact (Reaches.step (advance_jump hdest rfl)).trans (ih hrun hexec)
                  | je => exact absurd hasked (Nat.not_succ_le_self asked)
                  | jne => exact absurd hasked (Nat.not_succ_le_self asked)

variable {code : Lines} {o k : Outline} {asked : Nat} {trace met : Code} {m m' : Machine}

/-- Where a walk asks, it has met what the course has met, and the machine
jumps as its flags say. -/
theorem advance_asking {flags : Flags} (hflags : m.flags = some flags)
    (hanswer : answers asked = !flags.zero)
    (h : Together ls (Walk.step ls answers ⟨.before code, asked, trace⟩)
      ⟨some k, asked + 1, met⟩) :
    trace = met ∧ ∃ code', advance ls (.before code m) = .before code' m ∧ Follows ls code' k := by
  generalize hstep : Walk.step ls answers ⟨.before code, asked, trace⟩ = w at h
  cases h with
  | before hfollows =>
      unfold Walk.step at hstep
      cases code with
      | nil => injection hstep with hpoint; cases hpoint
      | cons line rest =>
          cases line with
          | label l =>
              injection hstep with _ hasked
              exact absurd hasked (Nat.ne_of_lt (Nat.lt_succ_self asked))
          | epilogue => injection hstep with hpoint; cases hpoint
          | insn i =>
              injection hstep with _ hasked
              exact absurd hasked (Nat.ne_of_lt (Nat.lt_succ_self asked))
          | jump kind l =>
              cases hdest : Walk.behind l ls with
              | none =>
                  simp only [hdest] at hstep
                  injection hstep with hpoint
                  cases hpoint
              | some dest =>
                  simp only [hdest] at hstep
                  injection hstep with hpoint hasked htrace
                  cases hpoint
                  have htakes : takes kind m = some (Walk.taken kind (answers asked)) := ?_
                  · exact ⟨htrace, _, advance_jump hdest htakes, hfollows⟩
                  rw [hanswer]
                  cases kind with
                  | jmp => rfl
                  | je =>
                      show m.flags.map (·.zero) = some (!!flags.zero)
                      rw [hflags, Bool.not_not]
                      rfl
                  | jne =>
                      show m.flags.map (fun flags => !flags.zero) = _
                      rw [hflags]
                      rfl

variable (answers) (h : Follows ls code o) (nodup : (labels ls).Nodup)

include h nodup

/-- A step of the course without a test. -/
theorem reaches_silent (hcourse : Course.step answers ⟨some o, 0, []⟩ = ⟨some k, 0, met⟩)
    (hexec : exec met m = .ok m') :
    ∃ code', Reaches ls (.before code m) (.before code' m') ∧ Follows ls code' k := by
  have hpaces : Paces ls answers 0 [] code o := paces_of_follows nodup h
  obtain ⟨n, last, trace, hrun, hlast⟩ := hpaces
  rw [hcourse] at hlast
  generalize hstep : Walk.step ls answers ⟨.before last, 0, trace⟩ = w at hlast
  cases hlast with
  | @before code' _ _ _ hfollows =>
      have hall : Walk.run ls answers (n + 1) ⟨.before code, 0, []⟩
          = ⟨.before code', 0, [] ++ met⟩ := by
        rw [Walk.run_add, hrun]
        exact hstep
      exact ⟨code', reaches_walk hall hexec, hfollows⟩

/-- A step of the course that asks for what the flags tell. -/
theorem reaches_asking {flags : Flags}
    (hcourse : Course.step answers ⟨some o, 0, []⟩ = ⟨some k, 1, met⟩)
    (hexec : exec met m = .ok m') (hflags : m'.flags = some flags)
    (hanswer : answers 0 = !flags.zero) :
    ∃ code', Reaches ls (.before code m) (.before code' m') ∧ Follows ls code' k := by
  have hpaces : Paces ls answers 0 [] code o := paces_of_follows nodup h
  obtain ⟨n, last, trace, hrun, hlast⟩ := hpaces
  rw [hcourse] at hlast
  obtain ⟨rfl, code', hadvance, hfollows⟩ := advance_asking hflags hanswer hlast
  have hrun : Walk.run ls answers n ⟨.before code, 0, []⟩ = ⟨.before last, 0, [] ++ trace⟩ := hrun
  exact ⟨code', (reaches_walk hrun hexec).trans (.step hadvance), hfollows⟩

/-- The last step of the course. -/
theorem reaches_leaving (hcourse : Course.step answers ⟨some o, 0, []⟩ = ⟨none, 0, []⟩) :
    Reaches ls (.before code m) (.left m) := by
  have hpaces : Paces ls answers 0 [] code o := paces_of_follows nodup h
  obtain ⟨n, last, trace, hrun, hlast⟩ := hpaces
  rw [hcourse] at hlast
  generalize hstep : Walk.step ls answers ⟨.before last, 0, trace⟩ = w at hlast
  cases hlast with
  | ended =>
      have hend : ∃ rest, last = .epilogue :: rest ∧ trace = [] := by
        unfold Walk.step at hstep
        cases last with
        | nil => injection hstep with hpoint; cases hpoint
        | cons line rest =>
            cases line with
            | label l => injection hstep with hpoint; cases hpoint
            | epilogue =>
                injection hstep with _ _ htrace
                exact ⟨rest, rfl, htrace⟩
            | insn i => injection hstep with hpoint; cases hpoint
            | jump kind l =>
                dsimp only at hstep
                split at hstep <;> (injection hstep with hpoint; cases hpoint)
      obtain ⟨rest, rfl, rfl⟩ := hend
      have hrun : Walk.run ls answers n ⟨.before code, 0, []⟩
          = ⟨.before (.epilogue :: rest), 0, [] ++ []⟩ := hrun
      exact (reaches_walk hrun (exec_nil m)).trans (.step rfl)

end Following

/-- Where lines follow an outline, the machine leaves the function as the
outline says. -/
theorem Follows.reaches {ls code : Lines} {o : Outline} {m m' : Machine}
    (nodup : (labels ls).Nodup) (h : Follows ls code o) (hruns : Runs o m m') :
    Reaches ls (.before code m) (.left m') := by
  induction hruns generalizing code with
  | @insn i k m m₁ m' hstep _ ih =>
      obtain ⟨code', hreach, hfollows⟩ := reaches_silent (fun _ => false) h nodup rfl
        (exec_step hstep [])
      exact hreach.trans (ih hfollows)
  | leave => exact reaches_leaving (fun _ => false) h nodup rfl
  | @fork other done closed first second k m m' flags hflags _ ih =>
      obtain ⟨code', hreach, hfollows⟩ := reaches_asking (fun _ => !flags.zero) h nodup
        rfl (exec_nil m) hflags rfl
      refine hreach.trans (ih ?_)
      cases hzero : flags.zero <;> rw [hzero] at hfollows <;> exact hfollows
  | @forever enter check body k m m' _ ih =>
      obtain ⟨code', hreach, hfollows⟩ := reaches_silent (fun _ => false) h nodup rfl
        (exec_nil m)
      exact hreach.trans (ih hfollows)
  | @round test enter check body k m m₁ m' flags hexec hflags _ ih =>
      obtain ⟨code', hreach, hfollows⟩ := reaches_asking (fun _ => !flags.zero) h nodup
        rfl hexec hflags rfl
      refine hreach.trans (ih ?_)
      cases hzero : flags.zero <;> rw [hzero] at hfollows <;> exact hfollows

end MiniC.Codegen
