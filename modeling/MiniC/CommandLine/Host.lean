/-
What a run of the command needs from its surroundings: files, two streams
to print on, and a way to measure how long a step takes. The run is written
against this interface, so that it can be carried out on the system or on
files in memory. Consumed by the run and by the program's entry point.
-/
import MiniC.CommandLine.Files

namespace MiniC.CommandLine

/-- The surroundings of a run. Measuring an action yields its result and
the time it took in milliseconds, as text. -/
structure Host (m : Type → Type) where
  read : String → m (Except FileError String)
  write : String → String → m (Except FileError Unit)
  print : String → m Unit
  complain : String → m Unit
  measure : {α : Type} → m α → m (α × String)

-- ============================================================= in memory

/-- Surroundings as a value: the files, and what was printed so far. -/
structure Surroundings where
  files : Files
  stdout : String
  stderr : String
deriving DecidableEq, Repr

namespace Surroundings

/-- Nothing is printed yet. -/
def start (files : Files) : Surroundings := ⟨files, "", ""⟩

/-- Writes a file, if the files allow it. -/
def write (s : Surroundings) (path text : String) : Except FileError Unit × Surroundings :=
  match s.files.write path text with
  | .ok files => (.ok (), { s with files })
  | .error e => (.error e, s)

/-- The host that works on such a value; every action is said to take the
given time. -/
def host (elapsed : String) : Host (StateM Surroundings) where
  read path := do return (← get).files.read path
  write path text := modifyGet fun s => s.write path text
  print text := modify fun s => { s with stdout := s.stdout ++ text }
  complain text := modify fun s => { s with stderr := s.stderr ++ text }
  measure action := do return (← action, elapsed)

end Surroundings

end MiniC.CommandLine
