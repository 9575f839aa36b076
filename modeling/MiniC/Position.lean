/-
Places in a source text. A position counts lines and columns from one and
bytes from zero; columns count the bytes of the line, so a character that
takes three bytes moves the column by three. Consumed by every module
that reports something about the text.
-/

namespace MiniC

/-- A place in the source: line and column from one, byte offset from zero. -/
structure Position where
  line : Nat
  column : Nat
  offset : Nat
deriving DecidableEq, Repr

namespace Position

/-- The place before the first character. -/
def start : Position := ⟨1, 1, 0⟩

/-- The place of something that stands in no source text. -/
def nowhere : Position := ⟨0, 0, 0⟩

/-- The place after one character: a newline opens a line, every other
character moves the column by its size in bytes. -/
def advance (p : Position) (c : Char) : Position :=
  if c = '\n' then ⟨p.line + 1, 1, p.offset + 1⟩
  else ⟨p.line, p.column + c.utf8Size, p.offset + c.utf8Size⟩

/-- The place after a stretch of text. -/
def advanceAll (p : Position) (cs : List Char) : Position :=
  cs.foldl advance p

@[simp] theorem advanceAll_nil (p : Position) : p.advanceAll [] = p := rfl

@[simp] theorem advanceAll_cons (p : Position) (c : Char) (cs : List Char) :
    p.advanceAll (c :: cs) = (p.advance c).advanceAll cs := rfl

@[simp] theorem advanceAll_append (p : Position) (cs ds : List Char) :
    p.advanceAll (cs ++ ds) = (p.advanceAll cs).advanceAll ds :=
  List.foldl_append

/-- Line and column, as a reader cites them. -/
def render (p : Position) : String := s!"{p.line}:{p.column}"

end Position

end MiniC
