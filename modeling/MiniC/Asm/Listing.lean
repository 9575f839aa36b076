/-
The text of an assembled program: reserved room, data and functions in
their sections, behind a start routine that calls `main` and exits with its
result. A program with nothing in it has no text at all. Consumed by code
generation and the command line.
-/
import MiniC.Asm.Instr
import MiniC.Asm.Line

namespace MiniC.Asm

-- ====================================================== data definitions

/-- Room for a global without a value: one cell of a width, or bytes. -/
inductive Reservation where
  | cell (name : String) (width : Width)
  | bytes (name : String) (count : Nat)
deriving DecidableEq, Repr

/-- A global with a value: the address of a string, a number, or the bytes
of a string, which a zero ends. -/
inductive Datum where
  | address (name label : String)
  | integer (name : String) (width : Width) (n : Int)
  | real (name : String) (width : Width) (text : String)
  | string (name : String) (bytes : List UInt8)
deriving DecidableEq, Repr

/-- The name a reservation defines. -/
def Reservation.name : Reservation → String
  | .cell name _ => name
  | .bytes name _ => name

/-- The name a datum defines. -/
def Datum.name : Datum → String
  | .address name _ => name
  | .integer name _ _ => name
  | .real name _ _ => name
  | .string name _ => name

/-- A reservation as it is written. -/
def Reservation.render : Reservation → String
  | .cell name width => name ++ ": " ++ width.reserveWord ++ " 1"
  | .bytes name count => name ++ ": resb " ++ toString count

/-- A datum as it is written. -/
def Datum.render : Datum → String
  | .address name label => name ++ ": dq " ++ label
  | .integer name width n => name ++ ": " ++ width.dataWord ++ " " ++ toString n
  | .real name width text => name ++ ": " ++ width.dataWord ++ " " ++ text
  | .string name bytes =>
    name ++ ": db " ++ String.join (bytes.map fun b => "0x" ++ Text.hex 2 b.toNat ++ ", ") ++ "0"

-- ============================================================== listings

/-- A program in lines of text. -/
structure Listing where
  bss : List String
  data : List String
  functions : List (String × List (Line String))
deriving DecidableEq, Repr

namespace Listing

/-- Whether there is nothing to list. -/
def isEmpty (l : Listing) : Bool := l.bss.isEmpty && l.data.isEmpty && l.functions.isEmpty

/-- The routine that control starts at. -/
def startRoutine : List String :=
  ["xor rbp, rbp", "call main", "mov edi, eax", "mov eax, 60", "syscall"]

/-- The text lines of a line; labels stand at the margin, the rest is
indented. A bare epilogue restores the frame. -/
def lineTexts (indent : String) : Line String → List String
  | .label n => [labelName n ++ ":"]
  | .jump kind n => [indent ++ kind.mnemonic ++ " " ++ labelName n]
  | .insn text => [indent ++ text]
  | .epilogue => [indent ++ "leave", indent ++ "ret"]

/-- The text lines of a function, an empty line before them. -/
def functionTexts (indent : String) (f : String × List (Line String)) : List String :=
  "" :: (f.1 ++ ":") :: f.2.flatMap (lineTexts indent)

/-- The text lines of a listing that is not empty. -/
def texts (l : Listing) (indent : String) : List String :=
  ["global _start", "section .bss"] ++ l.bss ++ ["section .data"] ++ l.data
    ++ ["section .text", "_start:"] ++ startRoutine.map (indent ++ ·)
    ++ l.functions.flatMap (functionTexts indent)

/-- The text of a listing; formatting indents instructions. -/
def render (l : Listing) (formatted : Bool) : String :=
  if l.isEmpty then ""
  else String.join ((l.texts (if formatted then "    " else "")).map (· ++ "\n"))

end Listing

-- ============================================================== programs

/-- A generated program. -/
structure Assembly where
  bss : List Reservation
  data : List Datum
  functions : List (String × List (Line Instr))
deriving DecidableEq, Repr

namespace Assembly

/-- A program with nothing in it. -/
def empty : Assembly := ⟨[], [], []⟩

/-- The program in lines of text. -/
def listing (a : Assembly) : Listing where
  bss := a.bss.map Reservation.render
  data := a.data.map Datum.render
  functions := a.functions.map fun f => (f.1, f.2.map (Line.map Instr.render))

/-- Whether there is nothing in the program. -/
def isEmpty (a : Assembly) : Bool := a.listing.isEmpty

/-- The text of the program. -/
def render (a : Assembly) (formatted : Bool) : String := a.listing.render formatted

end Assembly

end MiniC.Asm
