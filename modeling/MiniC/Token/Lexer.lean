/-
From text to tokens. The text is first cut into consecutive pieces, each of
them blank, a word of the language, or something faulty; the pieces are
then placed in the source, which gives tokens and diagnostics their
positions. Nothing stops the cutting: a faulty piece is skipped with an
error and the rest is read on. Consumed by the front end.
-/
import MiniC.Diagnostic
import MiniC.Token

namespace MiniC

/-- What can be wrong with a stretch of source text. -/
inductive LexicalFault where
  | unknownEscape (c : Char)
  | characterLength
  | unterminatedCharacter
  | unterminatedString
  | unexpected (c : Char)
deriving DecidableEq, Repr

namespace LexicalFault

/-- The first byte of a character's encoding, as a character of its own. -/
def firstByte (c : Char) : Char :=
  match String.utf8EncodeChar c with
  | [] => c
  | byte :: _ => Char.ofNat byte.toNat

/-- The fault in words. An escape is cited by its first byte. -/
def message : LexicalFault → String
  | .unknownEscape c => "unknown escape sequence '\\" ++ String.singleton (firstByte c) ++ "'"
  | .characterLength => "character literal must contain exactly one character"
  | .unterminatedCharacter => "unterminated character literal"
  | .unterminatedString => "unterminated string literal"
  | .unexpected c => "unexpected character '" ++ String.singleton c ++ "'"

end LexicalFault

/-- A stretch of source text and what was read from it. A fault is found
behind the given number of the piece's characters. -/
structure Piece where
  chars : List Char
  lexeme : Option Lexeme
  faults : List (Nat × LexicalFault)
deriving DecidableEq, Repr

namespace Piece

/-- A piece with nothing to report. -/
def blank (chars : List Char) : Piece := ⟨chars, none, []⟩

/-- A piece that is one word. -/
def word (chars : List Char) (lexeme : Lexeme) : Piece := ⟨chars, some lexeme, []⟩

-- ======================================================== quoted texts

/-- The text after an opening quote: what was consumed, the closing quote
included, the characters it stands for, and whether it was closed. -/
structure Quoted where
  consumed : List Char
  value : List Char
  faults : List (Nat × LexicalFault)
  closed : Bool
  rest : List Char
deriving DecidableEq, Repr

/-- The character an escape stands for. -/
def escape? : Char → Option Char
  | 'n' => some '\n'
  | 't' => some '\t'
  | 'r' => some '\r'
  | '0' => some (Char.ofNat 0)
  | '\\' => some '\\'
  | '\'' => some '\''
  | '"' => some '"'
  | _ => none

/-- Puts consumed characters in front, standing for one character. -/
def Quoted.extend (q : Quoted) (consumed : List Char) (value : Char)
    (faults : List (Nat × LexicalFault)) : Quoted :=
  { q with
    consumed := consumed ++ q.consumed
    value := value :: q.value
    faults := faults ++ q.faults.map fun f => (f.1 + consumed.length, f.2) }

/-- Reads up to the closing quote. A line's end leaves the text unclosed; an
unknown escape stands for the escaped character. -/
def readQuoted (quote : Char) : List Char → Quoted
  | [] => ⟨[], [], [], false, []⟩
  | ['\\'] => ⟨['\\'], [], [], false, []⟩
  | '\\' :: c :: cs =>
    match escape? c with
    | some value => (readQuoted quote cs).extend ['\\', c] value []
    | none => (readQuoted quote cs).extend ['\\', c] c [(1, .unknownEscape c)]
  | c :: cs =>
    if c = '\n' then ⟨[], [], [], false, c :: cs⟩
    else if c = quote then ⟨[c], [], [], true, cs⟩
    else (readQuoted quote cs).extend [c] c []

/-- The piece of a quoted text: `read` turns its value into a word or says
what is wrong with it. -/
def ofQuoted (quote : Char) (q : Quoted) (unterminated : LexicalFault)
    (read : List Char → Except LexicalFault Lexeme) : Piece :=
  let inner := q.faults.map fun f => (f.1 + 1, f.2)
  let outcome := if q.closed then read q.value else .error unterminated
  match outcome with
  | .ok lexeme => ⟨quote :: q.consumed, some lexeme, inner⟩
  | .error fault => ⟨quote :: q.consumed, none, inner ++ [(0, fault)]⟩

/-- A string literal may hold anything. -/
def readString (value : List Char) : Except LexicalFault Lexeme :=
  .ok (.literal .string (String.ofList value))

/-- A character literal holds one byte, whose code is its text. -/
def readCharacter : List Char → Except LexicalFault Lexeme
  | [c] =>
    if c.utf8Size = 1 then .ok (.literal .char (toString c.toNat)) else .error .characterLength
  | _ => .error .characterLength

-- ============================================================= numbers

/-- Whether a text starts with a digit. -/
def startsWithDigit : List Char → Bool
  | c :: _ => c.isDigit
  | [] => false

/-- Splits off digits with at most one point; a comma may stand between two
digits in front of the point. -/
def splitNumber : Bool → List Char → List Char × List Char
  | _, [] => ([], [])
  | seenPoint, c :: cs =>
    if c.isDigit then
      let (digits, rest) := splitNumber seenPoint cs
      (c :: digits, rest)
    else if c = '.' && !seenPoint then
      let (digits, rest) := splitNumber true cs
      (c :: digits, rest)
    else if c = ',' && !seenPoint && startsWithDigit cs then
      let (digits, rest) := splitNumber seenPoint cs
      (c :: digits, rest)
    else ([], c :: cs)

/-- The number that a text starts with: a float if an `f` ends it, else a
double if it has a point, else an integer. -/
def readNumber (cs : List Char) : Piece × List Char :=
  let (spelled, rest) := splitNumber false cs
  let text := String.ofList (spelled.filter (· ≠ ','))
  match rest with
  | 'f' :: rest => (word (spelled ++ ['f']) (.literal .float text), rest)
  | rest =>
    let kind := if spelled.contains '.' then LiteralKind.double else .int
    (word spelled (.literal kind text), rest)

-- =============================================================== words

/-- Whether a character may start an identifier. -/
def startsIdent (c : Char) : Bool := c = '_' || c.isAlpha

/-- Whether a character may continue an identifier. -/
def continuesIdent (c : Char) : Bool := c = '_' || c.isAlphanum

/-- The lexeme of an identifier-like word: a truth value, a keyword or an
identifier. -/
def lexemeOfWord (w : String) : Lexeme :=
  if w = "true" then .literal .bool "1"
  else if w = "false" then .literal .bool "0"
  else
    match Keyword.ofSpelling? w with
    | some k => .keyword k
    | none => .ident w

/-- The symbol of two characters. -/
def symbolOfTwo? : Char → Char → Option Symbol
  | '=', '=' => some .eq
  | '!', '=' => some .ne
  | '<', '=' => some .le
  | '>', '=' => some .ge
  | '+', '=' => some .addAssign
  | '+', '+' => some .incr
  | '-', '=' => some .subAssign
  | '-', '-' => some .decr
  | '-', '>' => some .arrow
  | '*', '=' => some .mulAssign
  | '/', '=' => some .divAssign
  | ':', ':' => some .scope
  | _, _ => none

/-- The symbol of one character. -/
def symbolOfOne? : Char → Option Symbol
  | '=' => some .assign
  | '!' => some .excl
  | '<' => some .lt
  | '>' => some .gt
  | '+' => some .add
  | '-' => some .sub
  | '*' => some .mul
  | '/' => some .div
  | ':' => some .colon
  | '.' => some .dot
  | '(' => some .lparen
  | ')' => some .rparen
  | '[' => some .lsquare
  | ']' => some .rsquare
  | '\x7b' => some .lcurly
  | '\x7d' => some .rcurly
  | ';' => some .semicolon
  | ',' => some .comma
  | _ => none

/-- The symbol that a text starts with, the longer one if two fit; a
character that starts nothing is a fault of its own. -/
def readSymbol (c : Char) (cs : List Char) : Piece × List Char :=
  let one :=
    match symbolOfOne? c with
    | some s => (word [c] (.symbol s), cs)
    | none => (⟨[c], none, [(0, .unexpected c)]⟩, cs)
  match cs with
  | d :: rest =>
    match symbolOfTwo? c d with
    | some s => (word [c, d] (.symbol s), rest)
    | none => one
  | [] => one

-- ========================================================== all pieces

/-- Whether a character separates words and means nothing else. -/
def isBlank (c : Char) : Bool := c = ' ' || c = '\n' || c = '\r' || c = '\t'

/-- The first piece of a text that starts with `c`, and the text behind. -/
def next (c : Char) (cs : List Char) : Piece × List Char :=
  if isBlank c then (blank [c], cs)
  else if startsIdent c then
    let w := c :: cs.takeWhile continuesIdent
    (word w (lexemeOfWord (String.ofList w)), cs.dropWhile continuesIdent)
  else if c.isDigit || (c = '.' && startsWithDigit cs) then readNumber (c :: cs)
  else if c = '\'' then
    let q := readQuoted c cs
    (ofQuoted c q .unterminatedCharacter readCharacter, q.rest)
  else if c = '"' then
    let q := readQuoted c cs
    (ofQuoted c q .unterminatedString readString, q.rest)
  else if c = '/' && cs.head? = some '/' then
    (blank (c :: cs.takeWhile (· ≠ '\n')), cs.dropWhile (· ≠ '\n'))
  else readSymbol c cs

/-- Cuts a text into at most `fuel` pieces. -/
def cut : Nat → List Char → List Piece
  | 0, _ => []
  | _, [] => []
  | fuel + 1, c :: cs =>
    let (piece, rest) := next c cs
    piece :: cut fuel rest

/-- Cuts a text into its pieces. Every piece has at least one character, so
there are no more pieces than characters. -/
def ofText (cs : List Char) : List Piece := cut cs.length cs

-- ============================================================ placement

/-- Each piece with the place of its first character. -/
def place : Position → List Piece → List (Position × Piece)
  | _, [] => []
  | pos, p :: ps => (pos, p) :: place (pos.advanceAll p.chars) ps

/-- The token of a placed piece, if it is a word. -/
def token? (pos : Position) (p : Piece) : Option Token :=
  p.lexeme.map fun l => ⟨l, pos⟩

/-- The errors of a placed piece, each at the place of its fault. -/
def diagnostics (pos : Position) (p : Piece) : List Diagnostic :=
  p.faults.map fun f => ⟨.error, f.2.message, pos.advanceAll (p.chars.take f.1)⟩

end Piece

/-- The tokens of a source text and the errors found on the way. -/
def tokenize (source : String) : List Token × List Diagnostic :=
  let placed := Piece.place .start (Piece.ofText source.toList)
  (placed.filterMap fun p => p.2.token? p.1, placed.flatMap fun p => p.2.diagnostics p.1)

/-- A text that is written out is cut as its characters. To evaluate it so, its bytes
need not be decoded. -/
theorem tokenize_written {source : String} {cs : List Char} (h : source = String.ofList cs) :
    tokenize source
      = ((Piece.place .start (Piece.ofText cs)).filterMap fun p => p.2.token? p.1,
        (Piece.place .start (Piece.ofText cs)).flatMap fun p => p.2.diagnostics p.1) := by
  rw [h, tokenize, String.toList_ofList]

end MiniC
