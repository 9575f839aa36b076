/-
The compiler from end to end: the front end turns a text into a program and
a report, and fails exactly when the report has an error; the two back ends
work on the program independently of each other. Consumed by the command
line.
-/
import MiniC.Codegen.Program
import MiniC.Lowering.Program
import MiniC.Parser.Declaration
import MiniC.Token.Lexer

namespace MiniC

/-- Why a compilation fails: the report has so many errors, or a back end
gave up. -/
inductive CompileError where
  | aborted (errors : Nat)
  | lower (e : LowerError)
  | gen (e : GenError)
deriving DecidableEq, Repr

/-- The failure in words. -/
def CompileError.message : CompileError → String
  | .aborted errors => s!"compilation aborted with {errors} error(s)"
  | .lower e => "internal error while lowering: " ++ e.message
  | .gen e => e.message

/-- What a compilation produces. -/
structure Artifacts where
  program : Program
  module : Option IR.Module
  assembly : Asm.Assembly

/-- Reads a program. Everything found on the way is reported, a fault of
the grammar last. -/
def frontend (source : String) (report : Report) : Except CompileError Program × Report :=
  let (tokens, faults) := tokenize source
  let (result, report) := parse tokens (report.append faults)
  match result with
  | .error e =>
    let report := report.push e.diagnostic
    (.error (.aborted report.errors), report)
  | .ok program =>
    if report.hasErrors then (.error (.aborted report.errors), report) else (.ok program, report)

/-- What the back ends make of a program; the intermediate representation
only on demand. -/
def backend (program : Program) (noRedZone lower : Bool) : Except CompileError Artifacts := do
  let module ← if lower then some <$> program.lower.mapError .lower else pure none
  let assembly ← (program.generate noRedZone).mapError .gen
  return ⟨program, module, assembly⟩

/-- Compiles a text. -/
def compile (source : String) (noRedZone lower : Bool) (report : Report) :
    Except CompileError Artifacts × Report :=
  match frontend source report with
  | (.ok program, report) => (backend program noRedZone lower, report)
  | (.error e, report) => (.error e, report)

end MiniC
