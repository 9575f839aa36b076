/-
A run of the command: the options are read, the file is compiled, and what
was asked for is printed or written. Diagnostics, warnings and failures go
to the second stream, trees and code to the first. The assembly of an empty
program is not written. Consumed by the program's entry point.
-/
import MiniC.CommandLine.Host
import MiniC.CommandLine.Options
import MiniC.IR.Printer
import MiniC.Pipeline
import MiniC.Program.Outline
import MiniC.Text.Disarmed

namespace MiniC.CommandLine

-- ================================================================ stages

/-- The steps whose time is shown on demand. -/
inductive Stage where
  | frontend
  | lowering
  | codegen
  | output
deriving DecidableEq, Repr

/-- The name of a stage. -/
def Stage.label : Stage → String
  | .frontend => "frontend"
  | .lowering => "lowering"
  | .codegen => "codegen"
  | .output => "output"

/-- The line that shows a stage's time, the name set to the right of ten
columns. -/
def Stage.timing (stage : Stage) (elapsed : String) : String :=
  let pad := String.ofList (List.replicate (10 - stage.label.length) ' ')
  pad ++ stage.label ++ ": " ++ elapsed ++ " ms\n"

/-- Why a run ends early. An aborted one has shown its diagnostics. -/
inductive Failure where
  | aborted
  | file (path : String) (e : FileError)
  | compile (e : CompileError)
deriving DecidableEq, Repr

/-- The failure in words, if there is anything left to say. -/
def Failure.message? : Failure → Option String
  | .aborted => none
  | .file path e => some (path ++ ": " ++ e.message)
  | .compile e => some e.message

/-- A failed compilation as the end of a run. -/
def Failure.ofCompile : CompileError → Failure
  | .aborted _ => .aborted
  | e => .compile e

-- ================================================================= steps

variable {m : Type → Type} [Monad m]

/-- A step of a run, which collects the times of its stages. -/
abbrev Step (m : Type → Type) (α : Type) : Type :=
  ExceptT Failure (StateT (List (Stage × String)) m) α

/-- An action of the host as a step. -/
def act {α : Type} (action : m α) : Step m α := monadLift action

/-- Goes on with a result or ends the run. -/
def orFail {ε α : Type} (toFailure : ε → Failure) : Except ε α → Step m α
  | .ok a => return a
  | .error e => throw (toFailure e)

/-- Carries out a stage and notes its time. -/
def timed {α : Type} (host : Host m) (stage : Stage) (action : m α) : Step m α := do
  let (a, elapsed) ← act (host.measure action)
  modify (· ++ [(stage, elapsed)])
  return a

/-- A computation as an action, carried out when the action is. -/
def compute {α : Type} (f : Unit → α) : m α := do
  let start ← pure ()
  return f start

/-- Shows the diagnostics and their summary, unless there are none. -/
def showReport (host : Host m) (options : Options) (source : String) (report : Report) :
    Step m Unit :=
  if report.isEmpty then return ()
  else
    let shown := report.render options.file source options.colour
    act (host.complain (shown ++ report.summary ++ "\n"))

/-- Reads the program from its file. -/
def load (host : Host m) (options : Options) : Step m Program := do
  let source ← orFail (.file options.file) (← act (host.read options.file))
  let (result, report) ←
    timed host .frontend (compute fun _ => frontend source (.empty options.strict))
  showReport host options source report
  orFail .ofCompile result

/-- Prints the lowered program. -/
def printLowered (host : Host m) (program : Program) : Step m Unit := do
  let result ← timed host .lowering (compute fun _ => program.lower)
  let module ← orFail (fun e => .compile (.lower e)) result
  act (host.print module.render)

/-- Where the assembly is written: next to the input unless told. -/
def outputPath (options : Options) : String :=
  (options.value? .output).getD (Path.withExtension options.file "asm")

/-- Prints the assembly, or writes it if there is any. -/
def deliver (host : Host m) (options : Options) (assembly : Asm.Assembly) : Step m Unit := do
  let text := assembly.render !options.has .unformatted
  if options.has .printAssembly then act (host.print text)
  else if !assembly.isEmpty then
    let path := outputPath options
    orFail (.file path) (← timed host .output (host.write path text))

/-- Compiles the file and prints what was asked for, in this order: the
tree, the lowered program, the assembly. -/
def compileFile (host : Host m) (options : Options) : Step m Unit := do
  let program ← load host options
  if options.has .dumpTree then act (host.print program.outline.render)
  if options.has .dumpLowered then printLowered host program
  let result ← timed host .codegen (compute fun _ => program.generate options.noRedZone)
  let assembly ← orFail (fun e => .compile (.gen e)) result
  deliver host options assembly

-- =================================================================== run

/-- The line of a warning. It repeats arguments, and must not command the
terminal by them. -/
def warningLine (text : String) : String := "WARN compiler: " ++ Text.disarm text ++ "\n"

/-- Says what is odd about the options, unless told to be quiet. -/
def warn (host : Host m) (options : Options) : m Unit :=
  if options.has .quiet then return ()
  else options.warnings.forM fun text => host.complain (warningLine text)

/-- Runs the command on its options; the result is its exit code. Times are
shown only after a success. -/
def runOptions (host : Host m) (options : Options) : m Nat := do
  warn host options
  let (result, times) ← (compileFile host options).run.run []
  match result with
  | .ok () =>
    if options.has .timing then
      times.forM fun (stage, elapsed) => host.complain (stage.timing elapsed)
    return 0
  | .error failure =>
    if let some message := failure.message? then host.complain ("error: " ++ message ++ "\n")
    return 1

/-- Runs the command; the result is its exit code. -/
def run (host : Host m) (args : List String) : m Nat :=
  match Options.ofArgs args with
  | .ok options => runOptions host options
  | .error e => do
    host.complain ("error: " ++ e.message ++ "\n")
    return 1

/-- What a run in memory leaves behind: its exit code, what it printed, and
the files it changed. -/
structure Outcome where
  exit : Nat
  stdout : String
  stderr : String
  changed : List (String × String)
deriving DecidableEq, Repr

/-- Runs the command on files in memory. -/
def runOn (files : Files) (elapsed : String) (args : List String) : Outcome :=
  let (exit, after) := (run (Surroundings.host elapsed) args).run (.start files)
  ⟨exit, after.stdout, after.stderr, files.changes after.files⟩

end MiniC.CommandLine
