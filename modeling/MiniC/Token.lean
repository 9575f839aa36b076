/-
The words of the source language. A lexeme is a keyword, a literal with its
text, an identifier or a symbol; a token is a lexeme at a place. The text
of a literal is its value in plain spelling: digits without grouping commas
and without the `f` of a float, `1` or `0` for a truth value, the code of a
character, the bytes of a string after its escapes. Consumed by the lexer
and the parser.
-/
import MiniC.Operator
import MiniC.Position
import MiniC.Ty

namespace MiniC

/-- The reserved words, truth values apart. -/
inductive Keyword where
  | void
  | bool
  | char
  | short
  | int
  | long
  | float
  | double
  | string
  | structWord
  | classWord
  | publicWord
  | protectedWord
  | privateWord
  | returnWord
  | ifWord
  | elseWord
  | whileWord
deriving DecidableEq, Repr

/-- The kinds of literal. -/
inductive LiteralKind where
  | int
  | float
  | double
  | bool
  | char
  | string
deriving DecidableEq, Repr

/-- Operators and punctuation. -/
inductive Symbol where
  | assign
  | add
  | sub
  | mul
  | div
  | lt
  | gt
  | le
  | ge
  | eq
  | ne
  | excl
  | addAssign
  | subAssign
  | mulAssign
  | divAssign
  | incr
  | decr
  | arrow
  | scope
  | dot
  | comma
  | semicolon
  | colon
  | lparen
  | rparen
  | lcurly
  | rcurly
  | lsquare
  | rsquare
deriving DecidableEq, Repr

/-- A word of the language, wherever it stands. -/
inductive Lexeme where
  | keyword (k : Keyword)
  | literal (kind : LiteralKind) (text : String)
  | ident (name : String)
  | symbol (s : Symbol)
deriving DecidableEq, Repr

/-- A word at the place of its first character. -/
structure Token where
  lexeme : Lexeme
  pos : Position
deriving DecidableEq, Repr

-- =========================================================== keywords

namespace Keyword

/-- The word itself. -/
def spelling : Keyword → String
  | .void => "void"
  | .bool => "bool"
  | .char => "char"
  | .short => "short"
  | .int => "int"
  | .long => "long"
  | .float => "float"
  | .double => "double"
  | .string => "string"
  | .structWord => "struct"
  | .classWord => "class"
  | .publicWord => "public"
  | .protectedWord => "protected"
  | .privateWord => "private"
  | .returnWord => "return"
  | .ifWord => "if"
  | .elseWord => "else"
  | .whileWord => "while"

/-- Every keyword. -/
def all : List Keyword :=
  [.void, .bool, .char, .short, .int, .long, .float, .double, .string, .structWord, .classWord,
    .publicWord, .protectedWord, .privateWord, .returnWord, .ifWord, .elseWord, .whileWord]

/-- The keyword with the given spelling. -/
def ofSpelling? (word : String) : Option Keyword :=
  all.find? (·.spelling == word)

/-- The type a keyword names. -/
def ty? : Keyword → Option Ty
  | .void => some .void
  | .bool => some .bool
  | .char => some .char
  | .short => some .short
  | .int => some .int
  | .long => some .long
  | .float => some .float
  | .double => some .double
  | .string => some .string
  | _ => none

end Keyword

-- =========================================================== literals

namespace LiteralKind

/-- The type of a literal of this kind. -/
def ty : LiteralKind → Ty
  | .int => .int
  | .float => .float
  | .double => .double
  | .bool => .bool
  | .char => .char
  | .string => .string

/-- What a message calls a literal of this kind. -/
def describe : LiteralKind → String
  | .int => "integer literal"
  | .float => "float literal"
  | .double => "double literal"
  | .bool => "boolean literal"
  | .char => "character literal"
  | .string => "string literal"

end LiteralKind

-- ============================================================ symbols

namespace Symbol

/-- The symbol itself. -/
def spelling : Symbol → String
  | .assign => "="
  | .add => "+"
  | .sub => "-"
  | .mul => "*"
  | .div => "/"
  | .lt => "<"
  | .gt => ">"
  | .le => "<="
  | .ge => ">="
  | .eq => "=="
  | .ne => "!="
  | .excl => "!"
  | .addAssign => "+="
  | .subAssign => "-="
  | .mulAssign => "*="
  | .divAssign => "/="
  | .incr => "++"
  | .decr => "--"
  | .arrow => "->"
  | .scope => "::"
  | .dot => "."
  | .comma => ","
  | .semicolon => ";"
  | .colon => ":"
  | .lparen => "("
  | .rparen => ")"
  | .lcurly => "\x7b"
  | .rcurly => "\x7d"
  | .lsquare => "["
  | .rsquare => "]"

/-- The symbol in quotes, as a message cites it. -/
def describe (s : Symbol) : String := "'" ++ s.spelling ++ "'"

/-- The binary operator a symbol stands for between two operands. -/
def binaryOp? : Symbol → Option BinaryOp
  | .assign => some .assign
  | .addAssign => some (.compound .add)
  | .subAssign => some (.compound .sub)
  | .mulAssign => some (.compound .mul)
  | .divAssign => some (.compound .div)
  | .add => some (.arith .add)
  | .sub => some (.arith .sub)
  | .mul => some (.arith .mul)
  | .div => some (.arith .div)
  | .lt => some (.compare .lt)
  | .gt => some (.compare .gt)
  | .le => some (.compare .le)
  | .ge => some (.compare .ge)
  | .eq => some (.compare .eq)
  | .ne => some (.compare .ne)
  | _ => none

/-- The accessor a symbol stands for behind an object. -/
def accessor? : Symbol → Option Accessor
  | .dot => some .dot
  | .arrow => some .arrow
  | .scope => some .scope
  | _ => none

end Symbol

-- ============================================================ lexemes

namespace Lexeme

/-- The text that a literal or an identifier carries. -/
def text? : Lexeme → Option String
  | .literal _ text => some text
  | .ident name => some name
  | _ => none

/-- Whether the lexeme is a literal. -/
def isLiteral : Lexeme → Bool
  | .literal _ _ => true
  | _ => false

/-- Whether the lexeme is the keyword of a built-in type. -/
def isTypeName : Lexeme → Bool
  | .keyword k => k.ty?.isSome
  | _ => false

/-- The type that a lexeme names or that a literal has. -/
def ty? : Lexeme → Option Ty
  | .keyword k => k.ty?
  | .literal kind _ => some kind.ty
  | _ => none

/-- The binary operator that a lexeme stands for. -/
def binaryOp? : Lexeme → Option BinaryOp
  | .symbol s => s.binaryOp?
  | _ => none

/-- What a message calls the sort of lexeme this is, without its text. -/
def sort : Lexeme → String
  | .keyword k => "'" ++ k.spelling ++ "'"
  | .literal kind _ => kind.describe
  | .ident _ => "identifier"
  | .symbol s => s.describe

/-- What a message calls this very lexeme. -/
def describe (l : Lexeme) : String :=
  match l.text? with
  | some text => l.sort ++ " '" ++ text ++ "'"
  | none => l.sort

end Lexeme

end MiniC
