/-
Pushes and pops in a list of lines.

# Counting

The lines are read from the front with a count of the pushes of rax that are still
open; a pop closes one. Where control may come from elsewhere or go elsewhere (at a
label, a jump or the end of a function) none may be open. So a count at a line does not
depend on the way by which control came there, which is what a list of lines has to
offer instead of a run.

# Consolidation and frames

Whether lines are nested in that way does not depend on labels: leaving out a label or
a jump leaves out a line at which nothing is open, and all other lines count as before
(`nesting_mergeLabels`). Setting up the frame puts lines in front that neither push rax
nor pop it, and turns an epilogue into instructions that unwind the stack as a whole
(`nesting_withFrame`). The same is said of the instructions among the lines, which
consolidation leaves as they are.

Consumed by the proof that generated code keeps to its frame.
-/
import MiniC.Proofs.ControlFlow.Assembly

namespace MiniC.Asm

-- =============================================================== nesting

/-- Whether an instruction takes the frame of its function down. -/
def Instr.unwinds : Instr → Bool
  | .leave => true
  | .ret => true
  | .pop .rbp => true
  | _ => false

namespace Line

/-- The pushes of rax that are open behind a line, given how many are open
before it, if the line may stand there. -/
def nest (n : Nat) : Line Instr → Option Nat
  | .insn (.push .rax) => some (n + 1)
  | .insn (.pop .rax) => if n = 0 then none else some (n - 1)
  | .insn i => if i.unwinds && n != 0 then none else some n
  | .label _ => if n = 0 then some 0 else none
  | .jump _ _ => if n = 0 then some 0 else none
  | .epilogue => if n = 0 then some 0 else none

/-- The pushes of rax that are open behind lines. -/
def nesting : Nat → List (Line Instr) → Option Nat
  | n, [] => some n
  | n, line :: rest => (line.nest n).bind fun k => nesting k rest

theorem nesting_cons {n k : Nat} {line : Line Instr} {rest : List (Line Instr)} :
    nesting n (line :: rest) = some k ↔ ∃ j, line.nest n = some j ∧ nesting j rest = some k :=
  Option.bind_eq_some_iff

/-- Lines that follow each other are counted one behind the other. -/
theorem nesting_append {n k : Nat} {a b : List (Line Instr)} :
    nesting n (a ++ b) = some k ↔ ∃ j, nesting n a = some j ∧ nesting j b = some k := by
  induction a generalizing n with
  | nil =>
      constructor
      · intro h
        exact ⟨n, rfl, h⟩
      · rintro ⟨j, hj, h⟩
        cases hj
        exact h
  | cons line rest ih =>
      rw [List.cons_append, nesting_cons]
      constructor
      · rintro ⟨i, hi, h⟩
        obtain ⟨j, hj, hb⟩ := ih.1 h
        exact ⟨j, nesting_cons.2 ⟨i, hi, hj⟩, hb⟩
      · rintro ⟨j, hj, hb⟩
        obtain ⟨i, hi, hrest⟩ := nesting_cons.1 hj
        exact ⟨i, hi, ih.2 ⟨j, hrest, hb⟩⟩

/-- Where a label stands nothing is open. -/
theorem nesting_label {m n k : Nat} {rest : List (Line Instr)}
    (h : nesting m (.label n :: rest) = some k) : m = 0 ∧ nesting 0 rest = some k := by
  obtain ⟨j, hj, hrest⟩ := nesting_cons.1 h
  have hj : (if m = 0 then some 0 else none) = some j := hj
  split at hj
  · rename_i hm
    cases hj
    exact ⟨hm, hrest⟩
  · cases hj

/-- Where a jump stands nothing is open. -/
theorem nesting_jump {m n k : Nat} {kind : Jump} {rest : List (Line Instr)}
    (h : nesting m (.jump kind n :: rest) = some k) : m = 0 ∧ nesting 0 rest = some k :=
  nesting_label (n := n) h

/-- Lines that are nested in themselves in a row. -/
theorem nested_append {a b : List (Line Instr)} (ha : nesting 0 a = some 0)
    (hb : nesting 0 b = some 0) : nesting 0 (a ++ b) = some 0 :=
  nesting_append.2 ⟨0, ha, hb⟩

-- ======================================================== consolidation

/-- Lines of which labels and jumps are dropped or sent elsewhere. -/
theorem nesting_redirect (links : List (Nat × Nat)) {ls : List (Line Instr)} {n k : Nat}
    (h : nesting n ls = some k) : nesting n (redirect links ls) = some k := by
  induction ls generalizing n with
  | nil => exact h
  | cons line rest ih =>
      cases line with
      | label m =>
          obtain ⟨rfl, hrest⟩ := nesting_label h
          rw [redirect_label]
          split
          · exact ih hrest
          · exact nesting_cons.2 ⟨0, rfl, ih hrest⟩
      | jump kind m =>
          obtain ⟨rfl, hrest⟩ := nesting_jump h
          exact nesting_cons.2 ⟨0, rfl, ih hrest⟩
      | insn i =>
          obtain ⟨j, hj, hrest⟩ := nesting_cons.1 h
          exact nesting_cons.2 ⟨j, hj, ih hrest⟩
      | epilogue =>
          obtain ⟨j, hj, hrest⟩ := nesting_cons.1 h
          exact nesting_cons.2 ⟨j, hj, ih hrest⟩

/-- Leaving out jumps keeps lines nested. -/
theorem nesting_dropJumps {ls : List (Line Instr)} {n k : Nat} (h : nesting n ls = some k) :
    nesting n (dropJumps ls) = some k := by
  induction ls generalizing n with
  | nil => exact h
  | cons line rest ih =>
      have hkeep : nesting n (line :: dropJumps rest) = some k := by
        obtain ⟨j, hj, hrest⟩ := nesting_cons.1 h
        exact nesting_cons.2 ⟨j, hj, ih hrest⟩
      unfold dropJumps
      split
      · split
        · obtain ⟨rfl, hrest⟩ := nesting_jump h
          exact ih hrest
        · exact hkeep
      · exact hkeep

/-- Consolidation keeps lines nested. -/
theorem nesting_mergeLabels {ls : List (Line Instr)} {n k : Nat} (h : nesting n ls = some k) :
    nesting n (mergeLabels ls) = some k :=
  nesting_dropJumps (nesting_redirect _ h)

/-- The instructions of lines, in order. -/
def code {ι : Type} (ls : List (Line ι)) : List ι :=
  ls.filterMap fun
    | .insn i => some i
    | _ => none

theorem code_append {ι : Type} (a b : List (Line ι)) : code (a ++ b) = code a ++ code b :=
  List.filterMap_append

/-- An instruction of some lines is one of them. -/
theorem mem_code {ι : Type} {ls : List (Line ι)} {i : ι} : i ∈ code ls ↔ .insn i ∈ ls := by
  refine List.mem_filterMap.trans ⟨?_, fun h => ⟨_, h, rfl⟩⟩
  rintro ⟨line, hline, heq⟩
  cases line <;> cases heq
  exact hline

theorem code_redirect {ι : Type} (links : List (Nat × Nat)) (ls : List (Line ι)) :
    code (redirect links ls) = code ls := by
  induction ls with
  | nil => rfl
  | cons line rest ih =>
      cases line with
      | label n =>
          rw [redirect_label]
          split
          · exact ih
          · exact ih
      | insn i => exact congrArg (i :: ·) ih
      | jump kind n => exact ih
      | epilogue => exact ih

theorem code_dropJumps {ι : Type} (ls : List (Line ι)) : code (dropJumps ls) = code ls := by
  induction ls with
  | nil => rfl
  | cons line rest ih =>
      have hkeep : code (line :: dropJumps rest) = code (line :: rest) := by
        cases line with
        | insn i => exact congrArg (i :: ·) ih
        | _ => exact ih
      unfold dropJumps
      split
      · split
        · exact ih
        · exact hkeep
      · exact hkeep

/-- Consolidation drops and adds no instructions and leaves them in their
order. -/
theorem code_mergeLabels {ι : Type} (ls : List (Line ι)) : code (mergeLabels ls) = code ls :=
  (code_dropJumps _).trans (code_redirect _ ls)

/-- Consolidation adds no instruction. -/
theorem insn_mem_mergeLabels {ι : Type} {ls : List (Line ι)} {i : ι}
    (h : .insn i ∈ mergeLabels ls) : .insn i ∈ ls :=
  mem_code.1 (code_mergeLabels ls ▸ mem_code.2 h)

end Line

end MiniC.Asm

namespace MiniC.Codegen

open Asm Line

-- ================================================================ frames

/-- What an epilogue restores the base pointer with. -/
def restoring (reserved : Option Nat) : Instr := if reserved.isSome then .leave else .pop .rbp

/-- The instruction that reserves room. -/
def reserving (n : Nat) : Instr := .alu .sub (reg .qword .rsp) (.imm n)

/-- The instructions that set a frame up. -/
def entry (reserved : Option Nat) : Code :=
  [.push .rbp, .mov (reg .qword .rbp) (reg .qword .rsp)] ++ (reserved.map reserving).toList

/-- A function sets up its frame with three instructions at most. -/
theorem mem_entry {reserved : Option Nat} {i : Instr} (h : i ∈ entry reserved) :
    i = .push .rbp ∨ i = .mov (reg .qword .rbp) (reg .qword .rsp)
      ∨ ∃ n, reserved = some n ∧ i = reserving n := by
  rcases List.mem_cons.1 h with h | h
  · exact Or.inl h
  rcases List.mem_cons.1 h with h | h
  · exact Or.inr (Or.inl h)
  · obtain ⟨n, hn, rfl⟩ := Option.map_eq_some_iff.1 (Option.mem_toList.1 h)
    exact Or.inr (Or.inr ⟨n, hn, rfl⟩)

/-- The lines of a function are its entry, and its body with the epilogues
resolved. -/
theorem withFrame_eq (reserved : Option Nat) (body : Lines) :
    withFrame reserved body
      = lines (entry reserved) ++ restored (restoring reserved) (mergeLabels body) := by
  cases reserved <;> rfl

theorem restored_cons (restore : Instr) (line : Line Instr) (rest : Lines) :
    restored restore (line :: rest) = restored restore [line] ++ restored restore rest := by
  unfold restored
  rw [List.flatMap_cons, List.flatMap_singleton]

/-- Giving the frame back keeps lines nested. -/
theorem nesting_restored (reserved : Option Nat) {ls : Lines} {n k : Nat}
    (h : nesting n ls = some k) : nesting n (restored (restoring reserved) ls) = some k := by
  induction ls generalizing n with
  | nil => exact h
  | cons line rest ih =>
      obtain ⟨j, hj, hrest⟩ := nesting_cons.1 h
      rw [restored_cons]
      have hline : nesting n (restored (restoring reserved) [line]) = some j := by
        cases line with
        | epilogue =>
            have hj : (if n = 0 then some 0 else none) = some j := hj
            split at hj
            · rename_i hn
              cases hj
              subst hn
              cases reserved <;> rfl
            · cases hj
        | _ => exact nesting_cons.2 ⟨j, hj, rfl⟩
      exact nesting_append.2 ⟨j, hline, ih hrest⟩

/-- A function is nested if its body is. -/
theorem nesting_withFrame (reserved : Option Nat) {body : Lines} (h : nesting 0 body = some 0) :
    nesting 0 (withFrame reserved body) = some 0 := by
  rw [withFrame_eq]
  refine nested_append ?_ (nesting_restored reserved (nesting_mergeLabels h))
  cases reserved <;> rfl

/-- The instructions of a function beside those of its body set its frame up
and take it down. -/
theorem insn_mem_withFrame {reserved : Option Nat} {body : Lines} {i : Instr}
    (h : .insn i ∈ withFrame reserved body) :
    i ∈ entry reserved ∨ .insn i ∈ body ∨ i = restoring reserved ∨ i = .ret := by
  rw [withFrame_eq] at h
  rcases List.mem_append.1 h with h | h
  · obtain ⟨j, hj, heq⟩ := List.mem_map.1 h
    cases heq
    exact Or.inl hj
  · unfold restored at h
    obtain ⟨line, hline, hin⟩ := List.mem_flatMap.1 h
    cases line with
    | epilogue =>
        simp only [List.mem_cons, List.not_mem_nil, or_false, Line.insn.injEq] at hin
        exact Or.inr (Or.inr hin)
    | _ =>
        rw [← List.mem_singleton.1 hin] at hline
        exact Or.inr (Or.inl (insn_mem_mergeLabels hline))

end MiniC.Codegen
