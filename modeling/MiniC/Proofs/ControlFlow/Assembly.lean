/-
The labels of assembled functions. Spills, the frame and the implicit
return define no label and jump nowhere, and consolidation keeps what
matters about labels, so the lines of a function have the labels and jumps
of its body's outline: no label is defined twice, and every jump finds its
label exactly when the body is settled (`functions_labels`).

# Why the condition

The condition is not idle. The jump over the other side of an if is left out where the
first side ends in an epilogue, and the label behind both is left out where each side
returns somewhere; these are different questions. In `abandonedReturn` both arms
return and the first has an assignment behind its return, so the jump over the second
arm is kept while the label it goes to is left out. `plainReturn` is the same program
without the assignment. A body is settled if none of its ifs is of that kind
(`allSettled`), which is a question about the source alone.

# From bodies to programs

A function is its spills, its body and what follows the body, set up with a frame;
none of these touches a label (`labels_withFrame`). The functions of a program are
generated one after the other, each with labels of its own, and the lines of data add
none.
-/
import MiniC.Pipeline
import MiniC.Proofs.ControlFlow.Resolution

namespace MiniC.Codegen

open Asm Steps Line

variable {env : Env}

-- ============================================================= one body

theorem labels_fallOff (body : List Stmt) : labels (fallOff body) = [] := by
  unfold fallOff
  split <;> rfl

theorem targets_fallOff (body : List Stmt) : targets (fallOff body) = [] := by
  unfold fallOff
  split <;> rfl

/-- Labels of a body are distinct, and its jumps find them exactly when its
statements are settled. -/
theorem bodyLines_labels {decl : FunctionDecl} {s t : State} {ls : Lines}
    (h : bodyLines env decl s = .ok (ls, t)) :
    (labels ls).Nodup ∧ (Resolved ls ↔ allSettled decl.body = true) := by
  obtain ⟨spills, o, u, -, ho, rfl⟩ := bodyLines_ok h
  unfold Resolved
  simp only [labels_append, targets_append, lines, labels_map_insn, targets_map_insn,
    labels_fallOff, targets_fallOff, List.append_nil, List.nil_append]
  exact ⟨(outlines_within decl.body ho).nodup, outlines_resolved decl.body ho⟩

-- ============================================================== frames

/-- The epilogues of a function resolved. -/
def restored (restore : Instr) (ls : Lines) : Lines :=
  ls.flatMap fun
    | .epilogue => [.insn restore, .insn .ret]
    | line => [line]

/-- Giving the frame back in front of a return changes no label. -/
theorem labels_restored (restore : Instr) (ls : Lines) :
    labels (restored restore ls) = labels ls := by
  unfold restored
  induction ls with
  | nil => rfl
  | cons line ls ih =>
      rw [List.flatMap_cons, labels_append, ih]
      cases line <;> rfl

theorem targets_restored (restore : Instr) (ls : Lines) :
    targets (restored restore ls) = targets ls := by
  unfold restored
  induction ls with
  | nil => rfl
  | cons line ls ih =>
      rw [List.flatMap_cons, targets_append, ih]
      cases line <;> rfl

/-- Setting up the frame leaves the labels that consolidation leaves. -/
theorem labels_withFrame (reserved : Option Nat) (body : Lines) :
    labels (withFrame reserved body) = labels (mergeLabels body) := by
  cases reserved with
  | none => exact labels_restored (.pop .rbp) (mergeLabels body)
  | some size => exact labels_restored .leave (mergeLabels body)

/-- Setting up the frame leaves the jumps that consolidation leaves. -/
theorem targets_withFrame (reserved : Option Nat) (body : Lines) :
    targets (withFrame reserved body) = targets (mergeLabels body) := by
  cases reserved with
  | none => exact targets_restored (.pop .rbp) (mergeLabels body)
  | some size => exact targets_restored .leave (mergeLabels body)

-- ============================================================ functions

/-- What is said of the lines of a declared function: its labels are
distinct, and its jumps find them exactly when its body is settled. -/
def WellLabelled (decl : FunctionDecl) (ls : Lines) : Prop :=
  (labels ls).Nodup ∧ (Resolved ls ↔ allSettled decl.body = true)

/-- The labels of a generated function are distinct, and resolved if it is settled. -/
theorem function_wellLabelled {program : Program} {types : List (String × Ty)}
    {noRedZone : Bool} {strings strings' : StringPool} {decl : FunctionDecl} {ls : Lines}
    (h : function program types noRedZone strings decl = .ok (ls, strings')) :
    WellLabelled decl ls := by
  obtain ⟨body, t, reserved, hbody, rfl⟩ := function_ok h
  obtain ⟨nodup, hresolved⟩ := bodyLines_labels hbody
  refine ⟨?_, ?_⟩
  · rw [labels_withFrame]
    exact nodup_labels_mergeLabels nodup
  · unfold Resolved
    rw [labels_withFrame, targets_withFrame]
    exact (resolved_mergeLabels nodup).trans hresolved

/-- Functions are assembled in order, each from its declaration. -/
theorem functions_wellLabelled {program : Program} {noRedZone : Bool} :
    ∀ (decls : List FunctionDecl) {asm asm' : Assembly} {strings strings' : StringPool},
      functions program noRedZone decls asm strings = .ok (asm', strings') →
      ∃ fns, asm'.functions = asm.functions ++ fns
        ∧ fns.map Prod.fst = decls.map (·.name)
        ∧ ∀ pair ∈ decls.zip fns, WellLabelled pair.1 pair.2.2
  | [], asm, asm', strings, strings', h => by
      cases h
      exact ⟨[], (List.append_nil _).symm, rfl, nofun⟩
  | decl :: rest, asm, asm', strings, strings', h => by
      unfold functions at h
      obtain ⟨⟨body, strings''⟩, hbody, h⟩ := except_bind_ok.1 h
      obtain ⟨fns, hfns, hnames, hall⟩ := functions_wellLabelled rest h
      refine ⟨(decl.name, body) :: fns, ?_, ?_, ?_⟩
      · rw [hfns, List.append_assoc]
        rfl
      · rw [List.map_cons, List.map_cons, hnames]
      · intro pair hpair
        rw [List.zip_cons_cons] at hpair
        rcases List.mem_cons.1 hpair with rfl | hpair
        · exact function_wellLabelled hbody
        · exact hall pair hpair

theorem global_functions {program : Program} {decl : VariableDecl} {asm asm' : Assembly}
    {strings strings' : StringPool}
    (h : global program decl asm strings = .ok (asm', strings')) :
    asm'.functions = asm.functions := by
  unfold global at h
  obtain ⟨⟨size, align⟩, -, h⟩ := except_bind_ok.1 h
  dsimp only at h
  repeat' split at h
  all_goals try cases h
  all_goals try rfl
  all_goals
    simp only [except_bind_ok] at h
    obtain ⟨lit, -, n, -, h⟩ := h
    cases h
    rfl

/-- The globals of a program are no functions. -/
theorem globals_functions {program : Program} :
    ∀ (decls : List VariableDecl) {asm asm' : Assembly} {strings strings' : StringPool},
      globals program decls asm strings = .ok (asm', strings') → asm'.functions = asm.functions
  | [], asm, asm', strings, strings', h => by
      cases h
      rfl
  | decl :: rest, asm, asm', strings, strings', h => by
      unfold globals at h
      obtain ⟨⟨asm'', strings''⟩, hdecl, h⟩ := except_bind_ok.1 h
      rw [globals_functions rest h, global_functions hdecl]

end MiniC.Codegen

namespace MiniC

open Asm Line

/-- In an assembled program every function has distinct labels, and every
one of its jumps finds its label exactly when the function's body is
settled. -/
theorem functions_labels {p : Program} {noRedZone : Bool} {asm : Assembly}
    (h : p.generate noRedZone = .ok asm) :
    asm.functions.map Prod.fst = p.functions.map (·.name)
      ∧ ∀ decl name ls, (decl, name, ls) ∈ p.functions.zip asm.functions →
        (labels ls).Nodup ∧ (Resolved ls ↔ Codegen.allSettled decl.body = true) := by
  unfold Program.generate at h
  split at h
  · rename_i hempty
    cases h
    have hfunctions : p.functions = [] := by
      unfold Program.functions
      rw [List.isEmpty_iff.1 hempty]
      rfl
    rw [hfunctions]
    exact ⟨rfl, fun _ _ _ => nofun⟩
  · split at h
    · cases h
    · obtain ⟨⟨asm₁, strings₁⟩, hglobals, h⟩ := Steps.except_bind_ok.1 h
      obtain ⟨⟨asm₂, strings₂⟩, hfunctions, h⟩ := Steps.except_bind_ok.1 h
      cases h
      obtain ⟨fns, hfns, hnames, hall⟩ := Codegen.functions_wellLabelled _ hfunctions
      rw [Codegen.globals_functions _ hglobals] at hfns
      have hfns : asm₂.functions = fns := hfns
      show asm₂.functions.map Prod.fst = _ ∧ _
      rw [hfns]
      refine ⟨hnames, fun decl name ls hmem => ?_⟩
      exact hall _ hmem

/-- A function whose arms both return, the first with dead code behind its
return. -/
def abandonedReturn : String :=
  "int main() { int a = 1; if (a) { return 1; a = 2; } else { return 2; } }"

/-- The same function without the dead code. -/
def plainReturn : String :=
  "int main() { int a = 1; if (a) { return 1; } else { return 2; } }"

/-- The labels and jumps of the functions assembled from a text, if it is
accepted and assembled. -/
def functionLabels (source : String) : Option (List (List Nat × List Nat)) := do
  let program ← (frontend source (.empty false)).1.toOption
  let asm ← (program.generate false).toOption
  return asm.functions.map fun fn => (labels fn.2, targets fn.2)

theorem functionLabels_some {source : String} {found : List (List Nat × List Nat)}
    (h : functionLabels source = some found) :
    ∃ program asm, (frontend source (.empty false)).1 = .ok program
      ∧ program.generate false = .ok asm
      ∧ asm.functions.map (fun fn => (labels fn.2, targets fn.2)) = found := by
  unfold functionLabels at h
  obtain ⟨program, hfront, h⟩ := Option.bind_eq_some_iff.1 h
  obtain ⟨asm, hgen, h⟩ := Option.bind_eq_some_iff.1 h
  exact ⟨program, asm, Steps.toOption_some.1 hfront, Steps.toOption_some.1 hgen,
    Option.some.inj h⟩

/-- With the dead code the text is accepted and assembled, and its function
jumps to a label that it does not define. -/
theorem abandonedReturn_unresolved :
    ∃ program asm, (frontend abandonedReturn (.empty false)).1 = .ok program
      ∧ program.generate false = .ok asm
      ∧ ∃ fn ∈ asm.functions, ¬ Resolved fn.2 := by
  have h : functionLabels abandonedReturn = some [([1], [1, 0])] := by decide +kernel
  obtain ⟨program, asm, hfront, hgen, hfns⟩ := functionLabels_some h
  obtain ⟨fn, hmem, hfn⟩ := List.mem_map.1 (hfns ▸ List.mem_cons_self)
  refine ⟨program, asm, hfront, hgen, fn, hmem, fun hresolved => ?_⟩
  have hlabels := congrArg Prod.fst hfn
  have htargets := congrArg Prod.snd hfn
  dsimp only at hlabels htargets
  unfold Resolved at hresolved
  rw [hlabels, htargets] at hresolved
  exact absurd (hresolved 0 (by decide)) (by decide)

/-- Without the dead code the one jump of the function finds its label, and
`functions_labels` says so of its lines. -/
theorem plainReturn_labels :
    ∃ (program : Program) (asm : Assembly),
      (frontend plainReturn (.empty false)).1 = .ok program
      ∧ program.generate false = .ok asm
      ∧ asm.functions.map (fun fn => (labels fn.2, targets fn.2)) = [([1], [1])]
      ∧ asm.functions.map Prod.fst = program.functions.map (·.name)
      ∧ ∀ decl name ls, (decl, name, ls) ∈ program.functions.zip asm.functions →
        (labels ls).Nodup ∧ (Resolved ls ↔ Codegen.allSettled decl.body = true) := by
  have h : functionLabels plainReturn = some [([1], [1])] := by decide +kernel
  obtain ⟨program, asm, hfront, hgen, hfns⟩ := functionLabels_some h
  exact ⟨program, asm, hfront, hgen, hfns, functions_labels hgen⟩

end MiniC
