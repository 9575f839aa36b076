/-
Nested data as indented text: a word stands on its line, a group opens with
its bracket, has each of its items on lines of its own, indented and
followed by a comma, and closes at the margin; an empty group stays on one
line. Consumed by the outline of a program.
-/

namespace MiniC

/-- Nested data ready to be written. -/
inductive Outline where
  | word (text : String)
  | field (label : String) (value : Outline)
  | group (opening closing : String) (items : List Outline)

namespace Outline

-- ================================================================ shapes

/-- A sequence in square brackets. -/
def list (items : List Outline) : Outline := .group "[" "]" items

/-- A named value in parentheses. -/
def wrapped (name : String) (value : Outline) : Outline := .group (name ++ "(") ")" [value]

/-- A named record of labelled fields. -/
def record (name : String) (fields : List (String × Outline)) : Outline :=
  .group (name ++ " \x7b") "\x7d" (fields.map fun f => .field f.1 f.2)

/-- A value that may be missing. -/
def optional : Option Outline → Outline
  | some value => wrapped "Some" value
  | none => .word "None"

-- ================================================================= lines

/-- Puts a text in front of the first line. -/
def headed (text : String) : List String → List String
  | [] => [text]
  | line :: rest => (text ++ line) :: rest

/-- Puts a comma behind the last line. -/
def closed : List String → List String
  | [] => []
  | [line] => [line ++ ","]
  | line :: rest => line :: closed rest

mutual

/-- The lines of nested data. -/
def lines : Outline → List String
  | .word text => [text]
  | .field label value => headed (label ++ ": ") value.lines
  | .group opening closing [] => [opening ++ closing]
  | .group opening closing (item :: items) =>
    opening :: (linesOfAll (item :: items)).map ("    " ++ ·) ++ [closing]

/-- The lines of the items of a group. -/
def linesOfAll : List Outline → List String
  | [] => []
  | item :: items => closed item.lines ++ linesOfAll items

end

/-- The text of nested data, every line ended. -/
def render (o : Outline) : String := String.join (o.lines.map (· ++ "\n"))

end Outline

end MiniC
