/-
What the compiler tells its user about a source text: single diagnostics,
how one is shown beside the line it is about, and the report that collects
the diagnostics of one compilation unit. A strict report turns warnings
into errors as they arrive. Consumed by the lexer, the parser and the
command line.
-/
import MiniC.Position

namespace MiniC

/-- How grave a diagnostic is. -/
inductive Severity where
  | error
  | warning
  | note
deriving DecidableEq, Repr

namespace Severity

/-- The word that stands before the message. -/
def word : Severity → String
  | .error => "error"
  | .warning => "warning"
  | .note => "note"

/-- The terminal colour of the word and of the caret. -/
def tint : Severity → String
  | .error => "\x1b[1;31m"
  | .warning => "\x1b[1;35m"
  | .note => "\x1b[1;36m"

end Severity

/-- A message about a place in the source. -/
structure Diagnostic where
  severity : Severity
  message : String
  pos : Position
deriving DecidableEq, Repr

-- ============================================== one diagnostic, shown

/-- The lines of a text. A line ends at a newline, which takes a carriage
return right before it along; no empty line follows the last newline. -/
def sourceLines : List Char → List (List Char)
  | [] => []
  | '\n' :: cs => [] :: sourceLines cs
  | '\r' :: '\n' :: cs => [] :: sourceLines cs
  | c :: cs =>
    match sourceLines cs with
    | [] => [[c]]
    | line :: rest => (c :: line) :: rest

namespace Diagnostic

/-- The text before the caret: one character for each character of the
line in front of the column, a tab where the line has a tab. -/
def caretPad (line : List Char) (column : Nat) : List Char :=
  (line.take (column - 1)).map fun c => if c = '\t' then '\t' else ' '

/-- The source line a diagnostic is about, if the text has that line. -/
def sourceLine? (d : Diagnostic) (source : List Char) : Option (List Char) :=
  if d.pos.line = 0 then none else (sourceLines source)[d.pos.line - 1]?

/-- File, place, severity and message, then the source line with a caret
under the column. The second half is left out when there is no such line. -/
def render (d : Diagnostic) (file source : String) (colour : Bool) : String :=
  let bold := if colour then "\x1b[1m" else ""
  let reset := if colour then "\x1b[0m" else ""
  let tint := if colour then d.severity.tint else ""
  let place := s!"{bold}{file}:{d.pos.line}:{d.pos.column}: "
  let head := s!"{place}{tint}{d.severity.word}:{reset} {d.message}{reset}\n"
  match d.sourceLine? source.toList with
  | none => head
  | some line =>
    let shown := String.ofList line
    let pad := String.ofList (caretPad line d.pos.column)
    head ++ s!"{shown}\n{pad}{tint}^{reset}\n"

end Diagnostic

-- ================================================= a unit's diagnostics

/-- The diagnostics of one compilation unit in the order they arose. In a
strict report a warning counts as an error. -/
structure Report where
  entries : List Diagnostic
  strict : Bool
deriving DecidableEq, Repr

namespace Report

/-- A report with nothing in it yet. -/
def empty (strict : Bool) : Report := ⟨[], strict⟩

/-- The form in which a report keeps a diagnostic. -/
def admitted (strict : Bool) (d : Diagnostic) : Diagnostic :=
  if strict && d.severity == .warning then { d with severity := .error } else d

/-- Adds a diagnostic at the end. -/
def push (r : Report) (d : Diagnostic) : Report :=
  { r with entries := r.entries ++ [admitted r.strict d] }

/-- Adds several diagnostics in order. -/
def append (r : Report) (ds : List Diagnostic) : Report :=
  ds.foldl push r

/-- How many entries have the given severity. -/
def count (r : Report) (s : Severity) : Nat :=
  r.entries.countP (·.severity == s)

/-- How many entries are errors. -/
def errors (r : Report) : Nat := r.count .error

/-- Whether an error was reported. -/
def hasErrors (r : Report) : Bool := r.errors > 0

/-- Whether nothing was reported. -/
def isEmpty (r : Report) : Bool := r.entries.isEmpty

/-- A count with its noun, in the plural unless the count is one. -/
def counted (n : Nat) (noun : String) : String :=
  let ending := if n = 1 then "" else "s"
  s!"{n} {noun}{ending}"

/-- The line that closes the shown diagnostics. -/
def summary (r : Report) : String :=
  let e := counted (r.count .error) "error"
  let w := counted (r.count .warning) "warning"
  let n := counted (r.count .note) "note"
  s!"{e}, {w} and {n} generated."

/-- All entries, shown one after the other. -/
def render (r : Report) (file source : String) (colour : Bool) : String :=
  String.join (r.entries.map fun d => d.render file source colour)

end Report

end MiniC
