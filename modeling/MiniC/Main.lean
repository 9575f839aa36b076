/-
The program's entry point: the command, run on the system's files and
streams. Everything it decides is decided by the run; here the system's
errors are named and texts are moved.
-/
import MiniC.CommandLine.Run

namespace MiniC.CommandLine

/-- The system's number for an error, which some of its calls negate. -/
def errorNumber (code : UInt32) : UInt32 := if 0x80000000 ≤ code then 0 - code else code

/-- The system's error under its own name. -/
def fileErrorOf : IO.Error → FileError
  | .noFileOrDirectory _ _ _ => .notFound
  | .noSuchThing _ _ _ => .notFound
  | .resourceBusy _ _ => .busy
  | .invalidArgument _ code details =>
    if errorNumber code = 36 then .nameTooLong else .other details
  | .inappropriateType _ code details =>
    if errorNumber code = 20 then .notDirectory
    else if errorNumber code = 21 then .isDirectory
    else .other details
  | e => .other (toString e)

/-- An action of the system with its error caught. -/
def caught {α : Type} (action : IO α) : IO (Except FileError α) := do
  match ← action.toBaseIO with
  | .ok a => return .ok a
  | .error e => return .error (fileErrorOf e)

/-- Reads a text file. -/
def readText (path : String) : IO (Except FileError String) := do
  match ← caught (IO.FS.readBinFile path) with
  | .error e => return .error e
  | .ok bytes =>
    match String.fromUTF8? bytes with
    | some text => return .ok text
    | none => return .error .notText

/-- Writes a text file beside its final place and moves it there. -/
def writeText (path text : String) : IO (Except FileError Unit) := do
  let draft := Path.sibling path ".draft"
  match ← caught (IO.FS.writeFile draft text *> IO.FS.rename draft path) with
  | .ok () => return .ok ()
  | .error e =>
    let _ ← caught (IO.FS.removeFile draft)
    return .error e

/-- Nanoseconds as milliseconds with three decimals. -/
def milliseconds (nanoseconds : Nat) : String :=
  let micro := toString (nanoseconds / 1000 % 1000)
  let pad := String.ofList (List.replicate (3 - micro.length) '0')
  toString (nanoseconds / 1000000) ++ "." ++ pad ++ micro

/-- Measures an action by the system's clock. -/
def measured {α : Type} (action : IO α) : IO (α × String) := do
  let start ← IO.monoNanosNow
  let a ← action
  let stop ← IO.monoNanosNow
  return (a, milliseconds (stop - start))

/-- The system as the surroundings of a run. -/
def systemHost : Host IO where
  read := readText
  write := writeText
  print := IO.print
  complain := IO.eprint
  measure := measured

end MiniC.CommandLine

/-- Runs the command on the program's arguments. -/
def main (args : List String) : IO UInt32 := do
  let code ← MiniC.CommandLine.run MiniC.CommandLine.systemHost args
  return code.toUInt32
