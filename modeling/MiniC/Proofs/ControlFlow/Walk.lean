/-
Two ways to run a function whose tests are answered from outside, and what it
means that they tell the same story.

# Walks

A walk goes over lines: it falls through labels, follows jumps and stops at an
epilogue; it is lost when it steps past the last line or comes to a jump
whose label is not defined. It looks at no flag: whether a jump is taken is
answered from outside, in order.

# Courses

A course goes over an outline and knows of no label: it takes one way of a fork,
and a cycle's body as long as the answers say so. Both collect the instructions
they meet, and the answers are used up in order by the tests they meet, so the
same answers may be given to both.

# Telling the story

If each step of the course is made up for by one or more steps of the walk,
the walk tells the course's story and never gets lost (`tells_of_steps`). It
takes at least one, so that a walk does not stand still while the course goes
on; and a course that goes on for ever is followed for ever.
Consumed by the proof that generated lines follow their outline.
-/
import MiniC.Proofs.ControlFlow.Labels

namespace MiniC.Codegen

open Asm Line

-- ================================================================ walks

/-- Where a walk stands: before lines, at an epilogue, or nowhere. -/
inductive Point where
  | before (rest : Lines)
  | ended
  | lost
deriving DecidableEq

/-- A walk over lines: where it stands, how many tests were answered, and
the instructions met so far. -/
structure Walk where
  point : Point
  asked : Nat
  trace : Code

namespace Walk

/-- The lines behind a label. -/
def behind (n : Nat) : Lines → Option Lines
  | [] => none
  | line :: rest => if line = .label n then some rest else behind n rest

/-- Whether a jump is taken, given the answer to the test before it. -/
def taken : Jump → Bool → Bool
  | .jmp, _ => true
  | .je, answer => !answer
  | .jne, answer => answer

/-- How many answers a jump uses up. -/
def uses : Jump → Nat
  | .jmp => 0
  | .je => 1
  | .jne => 1

/-- One step over the lines of a function. -/
def step (ls : Lines) (answers : Nat → Bool) (w : Walk) : Walk :=
  match w.point with
  | .ended => w
  | .lost => w
  | .before [] => { w with point := .lost }
  | .before (.insn i :: rest) => { w with point := .before rest, trace := w.trace ++ [i] }
  | .before (.label _ :: rest) => { w with point := .before rest }
  | .before (.epilogue :: _) => { w with point := .ended }
  | .before (.jump kind n :: rest) =>
    match behind n ls with
    | none => { w with point := .lost }
    | some dest =>
      let point := .before (if taken kind (answers w.asked) then dest else rest)
      { w with point, asked := w.asked + uses kind }

/-- The walk after so many steps. -/
def run (ls : Lines) (answers : Nat → Bool) : Nat → Walk → Walk
  | 0, w => w
  | n + 1, w => run ls answers n (step ls answers w)

/-- A walk at the first line. -/
def start (ls : Lines) : Walk := ⟨.before ls, 0, []⟩

end Walk

-- ============================================================== courses

/-- A course through an outline: what is left to do, if the function was not
left, how many tests were answered, and the instructions met so far. -/
structure Course where
  todo : Option Outline
  asked : Nat
  trace : Code

namespace Course

/-- One step through an outline. -/
def step (answers : Nat → Bool) (c : Course) : Course :=
  match c.todo with
  | none => c
  | some [] => { c with todo := none }
  | some (.insn i :: k) => { c with todo := some k, trace := c.trace ++ [i] }
  | some (.leave :: _) => { c with todo := none }
  | some (.fork _ _ _ first second :: k) =>
    let way := if answers c.asked then first else second
    { c with todo := some (way ++ k), asked := c.asked + 1 }
  | some (.cycle none enter check body :: k) =>
    { c with todo := some (body ++ .cycle none enter check body :: k) }
  | some (.cycle (some test) enter check body :: k) =>
    let todo := if answers c.asked then body ++ .cycle (some test) enter check body :: k else k
    { todo := some todo, asked := c.asked + 1, trace := c.trace ++ test }

/-- The course after so many steps. -/
def run (answers : Nat → Bool) : Nat → Course → Course
  | 0, c => c
  | n + 1, c => run answers n (step answers c)

/-- A course at the beginning of an outline. -/
def start (o : Outline) : Course := ⟨some o, 0, []⟩

end Course

/-- Whether a walk and a course have met the same instructions and tests,
and are both at their end or both not. -/
structure Abreast (w : Walk) (c : Course) : Prop where
  asked : w.asked = c.asked
  trace : w.trace = c.trace
  ended : w.point = .ended ↔ c.todo = none
  found : w.point ≠ .lost

-- ================================================== walks in more steps

namespace Walk

variable {ls : Lines} {answers : Nat → Bool}

/-- Steps in a row are steps. -/
theorem run_add (m n : Nat) (w : Walk) :
    run ls answers (m + n) w = run ls answers n (run ls answers m w) := by
  induction m generalizing w with
  | zero => rw [Nat.zero_add, run]
  | succ m ih => rw [Nat.succ_add, run, ih, run]

/-- A walk that has come to its end, or got lost, stays there. -/
theorem run_halted {w : Walk} (h : w.point = .ended ∨ w.point = .lost) (n : Nat) :
    run ls answers n w = w := by
  induction n with
  | zero => rfl
  | succ n ih =>
      rw [run]
      have hstep : step ls answers w = w := by
        unfold step
        rcases h with h | h <;> rw [h]
      rw [hstep, ih]

/-- A step forgets nothing that was met. -/
theorem trace_step (w : Walk) : w.trace <+: (step ls answers w).trace := by
  unfold step
  split
  all_goals try exact List.prefix_refl _
  · exact List.prefix_append _ _
  · split <;> exact List.prefix_refl _

/-- Nor do several. -/
theorem trace_run (n : Nat) (w : Walk) : w.trace <+: (run ls answers n w).trace := by
  induction n generalizing w with
  | zero => exact List.prefix_refl _
  | succ n ih => exact (trace_step w).trans (ih (step ls answers w))

end Walk

-- ===================================================== telling the story

/-- What it means that the walk over lines tells the story of an outline,
whatever the answers: it never gets lost; what the course meets the walk
meets; and the walk meets nothing else, and ends only where the course
ends. -/
def Tells (ls : Lines) (o : Outline) : Prop :=
  ∀ answers : Nat → Bool,
    (∀ m, (Walk.run ls answers m (.start ls)).point ≠ .lost)
    ∧ (∀ n, ∃ m, Abreast (Walk.run ls answers m (.start ls)) (Course.run answers n (.start o)))
    ∧ ∀ m, ∃ n,
        (Walk.run ls answers m (.start ls)).trace <+: (Course.run answers n (.start o)).trace
        ∧ ((Walk.run ls answers m (.start ls)).point = .ended →
          Abreast (Walk.run ls answers m (.start ls)) (Course.run answers n (.start o)))

/-- A relation that one step of the course and at least one step of the walk
preserve holds again and again along the two. -/
theorem run_related {R : Walk → Course → Prop} {ls : Lines} {answers : Nat → Bool}
    (hstep : ∀ w c, R w c →
      ∃ m, R (Walk.run ls answers (m + 1) w) (Course.step answers c))
    (n : Nat) {w : Walk} {c : Course} (h : R w c) :
    ∃ m, n ≤ m ∧ R (Walk.run ls answers m w) (Course.run answers n c) := by
  induction n generalizing w c with
  | zero => exact ⟨0, Nat.le_refl 0, h⟩
  | succ n ih =>
      obtain ⟨m, hm⟩ := hstep w c h
      obtain ⟨k, hk, hrun⟩ := ih hm
      refine ⟨m + 1 + k, by omega, ?_⟩
      rw [Walk.run_add]
      exact hrun

/-- If the course can be followed step by step, the walk tells its story. -/
theorem tells_of_steps {R : Walk → Course → Prop} {ls : Lines} {o : Outline}
    (hstart : R (.start ls) (.start o)) (habreast : ∀ w c, R w c → Abreast w c)
    (hstep : ∀ answers w c, R w c →
      ∃ m, R (Walk.run ls answers (m + 1) w) (Course.step answers c)) :
    Tells ls o := by
  intro answers
  have hrun : ∀ n, ∃ m, n ≤ m ∧
      Abreast (Walk.run ls answers m (.start ls)) (Course.run answers n (.start o)) := by
    intro n
    obtain ⟨m, hle, hR⟩ := run_related (hstep answers) n hstart
    exact ⟨m, hle, habreast _ _ hR⟩
  refine ⟨?_, ?_, ?_⟩
  · -- a walk lost now is lost when the course has made as many steps
    intro m hlost
    obtain ⟨k, hle, hab⟩ := hrun m
    obtain ⟨d, rfl⟩ := Nat.exists_eq_add_of_le hle
    rw [Walk.run_add, Walk.run_halted (Or.inr hlost)] at hab
    exact hab.found hlost
  · intro n
    obtain ⟨m, -, hab⟩ := hrun n
    exact ⟨m, hab⟩
  · intro m
    obtain ⟨k, hle, hab⟩ := hrun m
    obtain ⟨d, rfl⟩ := Nat.exists_eq_add_of_le hle
    rw [Walk.run_add] at hab
    refine ⟨m, ?_, ?_⟩
    · rw [← hab.trace]
      exact Walk.trace_run d _
    · intro hended
      rw [Walk.run_halted (Or.inl hended)] at hab
      exact hab

end MiniC.Codegen
