/-
Machine integers as ranges of the unbounded ones: which numbers fit in 64
or 32 signed bits, how a number wraps into fewer bytes, and the decimal
texts that denote a 64-bit number. Consumed by constant folding, by both
back ends and by the reader of literals.
-/

namespace MiniC.Integer

-- ============================================================== ranges

/-- Whether a number fits in 64 signed bits. -/
def fitsLong (n : Int) : Bool := -0x8000000000000000 ≤ n && n < 0x8000000000000000

/-- Whether a number fits in 32 signed bits. -/
def fitsInt (n : Int) : Bool := -0x80000000 ≤ n && n < 0x80000000

/-- A number, if it fits in 64 signed bits. -/
def checked (n : Int) : Option Int := if fitsLong n then some n else none

/-- The number of the given byte size that agrees with `n` on the low
bytes, read as two's complement. -/
def wrap (bytes : Nat) (n : Int) : Int := n.bmod (Nat.pow 2 (8 * bytes))

-- =============================================================== texts

/-- The value of a run of decimal digits. -/
def ofDigits (cs : List Char) : Nat :=
  cs.foldl (fun n c => 10 * n + (c.toNat - '0'.toNat)) 0

/-- A number written with at least one digit and nothing else. -/
def natOfText? (cs : List Char) : Option Nat :=
  if cs.isEmpty || !cs.all Char.isDigit then none else some (ofDigits cs)

/-- An optional sign, then the text it stands before. -/
def splitSign : List Char → Bool × List Char
  | '+' :: cs => (false, cs)
  | '-' :: cs => (true, cs)
  | cs => (false, cs)

/-- A 64-bit number written as an optional sign and digits. -/
def ofText? (text : String) : Option Int := do
  let (negative, digits) := splitSign text.toList
  let n ← natOfText? digits
  checked (if negative then -(n : Int) else n)

end MiniC.Integer
