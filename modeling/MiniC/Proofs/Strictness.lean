/-
A strict report only escalates (`frontend_escalates`).

# One account

The front end does the same whatever is in the report that it is given, and adds
the same to it (`frontend_eq`): it never looks at the report but to see whether
there is an error in the end. What it does on its own, with nothing reported, is
`settled`; both runs of a source text are that, with one list of diagnostics.

# Two reports

A strict report keeps what is added with warnings turned into errors, any other
one keeps it as it is. So the two runs differ in their entries by that, and in
whether an error is among them, which is what success hangs on. A run that
aborts gives the number of its errors, and there is one at least
(`settled_tallied`): a text that is no program is an error itself.
Consumed by the accounts of remarks and of constant conditions.
-/
import MiniC.Pipeline
import MiniC.Proofs.Parser.Remarks
import MiniC.Proofs.Reporting

namespace MiniC

-- ================================================================ reports

/-- A diagnostic as a strict report keeps it. -/
def Diagnostic.escalated (d : Diagnostic) : Diagnostic :=
  match d.severity with
  | .warning => { d with severity := .error }
  | .error => d
  | .note => d

namespace Report

/-- A strict report escalates what it keeps. -/
theorem admitted_strict : admitted true = Diagnostic.escalated := by
  funext d
  unfold admitted Diagnostic.escalated
  cases hd : d.severity <;> rfl

/-- Whether a list of diagnostics has an error in it. -/
def Faulty (ds : List Diagnostic) : Prop := ∃ d ∈ ds, d.severity = .error

/-- A report has errors if there is one among its entries. -/
theorem hasErrors_iff (r : Report) : r.hasErrors = true ↔ Faulty r.entries := by
  unfold hasErrors errors count
  rw [decide_eq_true_eq, gt_iff_lt, List.countP_pos_iff]
  simp only [beq_iff_eq]
  exact Iff.rfl

/-- A diagnostic of a strict report is an error if it was one or a warning. -/
theorem escalated_error (d : Diagnostic) :
    d.escalated.severity = .error ↔ d.severity = .error ∨ d.severity = .warning := by
  unfold Diagnostic.escalated
  cases hd : d.severity <;> simp [hd]

end Report

-- ============================================================== front ends

namespace Parser

/-- A parse comes to the same whatever was reported before, and reports the
same. -/
theorem parse_eq (tokens : List Token) :
    ∃ result ds, (∀ r, parse tokens r = (result, r.append ds))
      ∧ ∀ p, result = .ok p → p.Says ds := by
  cases program_tells tokens (.empty false) with
  | answers p t ds hspoken h =>
      refine ⟨.ok p, ds, fun r => ?_, fun q hq => Except.ok.inj hq ▸ hspoken⟩
      have hprogram : program (initial tokens r) = .ok p (t.reporting (r.append ds)) := h r
      unfold parse outcome
      rw [hprogram]
      rfl
  | stops e t ds h =>
      have hprogram (r : Report) :
          program (initial tokens r) = .error e (t.reporting (r.append ds)) := h r
      cases e with
      | fault e =>
          refine ⟨.error e, ds, fun r => ?_, nofun⟩
          unfold parse outcome
          rw [hprogram]
          rfl
      | stuck =>
          refine ⟨.error (.unexpectedEof "declaration" t.last), ds, fun r => ?_, nofun⟩
          unfold parse outcome
          rw [hprogram]
          rfl

end Parser

/-- What a run of the front end comes to that adds these diagnostics, with the
program if the tokens are one. -/
def settled (result : Except ParseError Program) (report : Report) :
    Except CompileError Program :=
  match result with
  | .ok p => if report.hasErrors then .error (.aborted report.errors) else .ok p
  | .error _ => .error (.aborted report.errors)

/-- The front end comes to the same whatever was reported before, and adds the
same; only whether it aborts hangs on the report. Where the tokens are no
program, an error is among what it adds. -/
theorem frontend_eq (source : String) :
    ∃ result ds, (∀ r, frontend source r = (settled result (r.append ds), r.append ds))
      ∧ ∀ e, result = .error e → Report.Faulty ds := by
  obtain ⟨result, ds, hparse, -⟩ := Parser.parse_eq (tokenize source).1
  cases result with
  | ok p =>
      refine ⟨.ok p, (tokenize source).2 ++ ds, fun r => ?_, nofun⟩
      unfold frontend settled
      dsimp only
      rw [hparse, Parser.append_append]
      dsimp only
      split <;> rfl
  | error e =>
      refine ⟨.error e, (tokenize source).2 ++ ds ++ [e.diagnostic], fun r => ?_, fun _ _ => ?_⟩
      · unfold frontend
        dsimp only
        rw [hparse, Parser.append_append, ← Parser.append_append _ _ [e.diagnostic]]
        rfl
      · exact ⟨e.diagnostic, List.mem_append_right _ List.mem_cons_self, rfl⟩

-- =================================================================== runs

/-- Whether a run succeeds exactly if its report has no error, and aborts with
the number of its errors otherwise, of which there is one at least. -/
structure Tallied (run : Except CompileError Program × Report) : Prop where
  success : (∃ p, run.1 = .ok p) ↔ ¬ Report.Faulty run.2.entries
  failure : ∀ e, run.1 = .error e →
    e = .aborted (run.2.entries.filter (·.severity = .error)).length
      ∧ 1 ≤ (run.2.entries.filter (·.severity = .error)).length

/-- The errors of a report are counted among its entries. -/
theorem Report.errors_eq (r : Report) :
    r.errors = (r.entries.filter (·.severity = .error)).length := by
  unfold errors count
  rw [List.countP_eq_length_filter]
  rfl

/-- A run succeeds exactly if it has no error, and else it counts its errors. -/
theorem settled_tallied {result : Except ParseError Program} {report : Report}
    (h : ∀ e, result = .error e → Report.Faulty report.entries) :
    Tallied (settled result report, report) := by
  by_cases hfaulty : Report.Faulty report.entries
  · have haborted : settled result report = .error (.aborted report.errors) := by
      unfold settled
      cases result with
      | error e => rfl
      | ok p => exact if_pos (report.hasErrors_iff.2 hfaulty)
    rw [haborted]
    refine ⟨⟨nofun, fun hnot => absurd hfaulty hnot⟩, fun e he => ?_⟩
    have hpos : 0 < report.errors := of_decide_eq_true (report.hasErrors_iff.2 hfaulty)
    rw [report.errors_eq] at he hpos
    cases he
    exact ⟨rfl, hpos⟩
  · cases result with
    | error e => exact absurd (h e rfl) hfaulty
    | ok p =>
        have hok : settled (.ok p) report = .ok p :=
          if_neg fun herrors => hfaulty (report.hasErrors_iff.1 herrors)
        rw [hok]
        exact ⟨⟨fun _ => hfaulty, fun _ => ⟨p, rfl⟩⟩, nofun⟩

/-- An error stays one in whatever report it is kept. -/
theorem Report.Faulty.admitted {ds : List Diagnostic} (h : Faulty ds) (strict : Bool) :
    Faulty (ds.map (Report.admitted strict)) := by
  obtain ⟨d, hd, herror⟩ := h
  refine ⟨_, List.mem_map_of_mem hd, ?_⟩
  unfold Report.admitted
  split <;> first | rfl | exact herror

/-- A strict run of the front end differs from any other one in its warnings,
which are errors, and in nothing else. A run succeeds exactly if none of its
diagnostics is an error, so a strict one does if the other has no warning
either; both then read the same program. A run that fails aborts with the number
of its errors, which is not zero. -/
theorem frontend_escalates (source : String) :
    (frontend source (.empty true)).2.entries
        = (frontend source (.empty false)).2.entries.map Diagnostic.escalated
      ∧ ((∃ p, (frontend source (.empty false)).1 = .ok p)
        ↔ ∀ d ∈ (frontend source (.empty false)).2.entries, d.severity ≠ .error)
      ∧ ((∃ p, (frontend source (.empty true)).1 = .ok p)
        ↔ ∀ d ∈ (frontend source (.empty false)).2.entries,
          d.severity ≠ .error ∧ d.severity ≠ .warning)
      ∧ (∀ p q, (frontend source (.empty false)).1 = .ok p →
        (frontend source (.empty true)).1 = .ok q → p = q)
      ∧ ∀ strict e, (frontend source (.empty strict)).1 = .error e → ∃ n,
        e = .aborted n ∧ 1 ≤ n
          ∧ n = ((frontend source (.empty strict)).2.entries.filter
            (·.severity = .error)).length := by
  obtain ⟨result, ds, hrun, hfaulty⟩ := frontend_eq source
  have hentries (strict : Bool) :
      (frontend source (.empty strict)).2.entries = ds.map (Report.admitted strict) := by
    rw [hrun]
    exact Report.entries_append _ _
  have htallied (strict : Bool) : Tallied (frontend source (.empty strict)) := by
    rw [hrun]
    refine settled_tallied fun e he => ?_
    rw [Report.entries_append]
    exact (hfaulty e he).admitted strict
  have hlenient : (frontend source (.empty false)).2.entries = ds := by
    rw [hentries]
    exact List.map_id _
  have hstrict : (frontend source (.empty true)).2.entries
      = (frontend source (.empty false)).2.entries.map Diagnostic.escalated := by
    rw [hentries, hlenient, Report.admitted_strict]
  refine ⟨hstrict, ?_, ?_, fun p q hp hq => ?_, fun strict e he => ?_⟩
  · rw [(htallied false).success]
    unfold Report.Faulty
    simp only [not_exists, not_and]
  · rw [(htallied true).success, hstrict]
    unfold Report.Faulty
    simp only [List.mem_map, exists_exists_and_eq_and, Report.escalated_error, not_exists, not_and,
      not_or]
  · have hsettled {strict : Bool} {p : Program} (h : (frontend source (.empty strict)).1 = .ok p) :
        result = .ok p := by
      rw [hrun] at h
      unfold settled at h
      split at h
      · split at h
        · cases h
        · exact congrArg _ (Except.ok.inj h)
      · cases h
    exact Except.ok.inj ((hsettled hp).symm.trans (hsettled hq))
  · obtain ⟨h, hpos⟩ := (htallied strict).failure e he
    exact ⟨_, h, hpos, rfl⟩

/-- A text with a warning and a note and no error. -/
def narrowed : String := "char c = 1000; int main() { while (0) c = 1; }"

/-- `narrowed` is a program, and none to a strict run, which counts the one
warning. -/
theorem narrowed_escalates :
    (∃ p, (frontend narrowed (.empty false)).1 = .ok p)
      ∧ (frontend narrowed (.empty true)).1 = .error (.aborted 1) := by
  have hentries : (frontend narrowed (.empty false)).2.entries
      = [⟨.warning, "narrowing conversion from 'int' to 'char'", ⟨1, 10, 9⟩⟩,
        ⟨.note, "condition is always false", ⟨1, 36, 35⟩⟩] := by
    decide +kernel
  obtain ⟨hstrict, hlenient, hsuccess, -, hfailure⟩ := frontend_escalates narrowed
  refine ⟨hlenient.2 (by rw [hentries]; decide), ?_⟩
  cases hrun : (frontend narrowed (.empty true)).1 with
  | ok p =>
      have hnone := hsuccess.1 ⟨p, hrun⟩
      rw [hentries] at hnone
      exact absurd hnone (by decide)
  | error e =>
      obtain ⟨n, he, -, hn⟩ := hfailure true e hrun
      rw [hstrict, hentries] at hn
      have hone : n = 1 := hn.trans (by decide)
      rw [he, hone]

end MiniC
