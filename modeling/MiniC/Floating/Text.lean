/-
Floating point numbers as text. Reading takes a sign, digits with a point
among them and a power of ten, or the names of infinity and of no number,
and rounds to the nearest double. Writing gives the shortest decimal that
reads back, positional where the number is of ordinary size. Consumed by
constant folding and by both back ends.
-/
import MiniC.Floating.Shortest
import MiniC.Integer

namespace MiniC.Floating

-- ============================================================= reading

/-- The power of ten after a significand: nothing, or a mark, an optional
sign and digits. -/
def readExponent : List Char → Option Int
  | [] => some 0
  | c :: cs =>
    if c = 'e' || c = 'E' then
      let (negative, digits) := Integer.splitSign cs
      (Integer.natOfText? digits).map fun n => if negative then -(n : Int) else n
    else none

/-- A number beyond the doubles on either side is decided by its size. The
magnitude is the count of digits in front of the point. -/
def ofDecimal (significand : Nat) (exponent : Int) : Nat :=
  let magnitude : Int := (Nat.toDigits 10 significand).length + exponent
  if significand = 0 || magnitude < -400 then 0
  else if 400 < magnitude then double.infinityBits
  else
    let (n, d) := Interval.point significand exponent
    double.nearest n d

/-- Digits with at most one point and at least one digit, then an optional
power of ten; the bits of the nearest double. -/
def readMagnitude (cs : List Char) : Option Nat := do
  let (whole, rest) := cs.span Char.isDigit
  let (fraction, rest) :=
    match rest with
    | '.' :: rest => rest.span Char.isDigit
    | rest => ([], rest)
  if whole.isEmpty && fraction.isEmpty then none
  else
    let e ← readExponent rest
    some (ofDecimal (Integer.ofDigits (whole ++ fraction)) (e - fraction.length))

/-- The bits of a value that is written by name, in any case. -/
def readName (cs : List Char) : Option Nat :=
  match String.ofList (cs.map Char.toLower) with
  | "inf" => some double.infinityBits
  | "infinity" => some double.infinityBits
  | "nan" => some (double.encode .nan)
  | _ => none

/-- The double nearest to the number a text denotes. -/
def ofText? (text : String) : Option Float :=
  let (negative, cs) := Integer.splitSign text.toList
  (readMagnitude cs <|> readName cs).map fun bits =>
    Float.ofBits (bits + if negative then double.signBit else 0).toUInt64

-- ============================================================= writing

/-- Where positional writing ends: a number is written with a power of ten
when its first digit stands more than `largest` places in front of the
point or more than `smallest` zeros behind it. -/
structure Style where
  largest : Int
  smallest : Int
deriving DecidableEq, Repr

/-- Numbers from 0.0001 up to, but not including, 10^16 are positional. -/
def style : Style := ⟨16, 3⟩

/-- A decimal in positional writing, at least one digit on each side of the
point. -/
def positional (digits : List Char) (exponent : Int) : List Char :=
  if 0 ≤ exponent then digits ++ List.replicate exponent.natAbs '0' ++ ['.', '0']
  else
    let places := exponent.natAbs
    if places < digits.length then
      digits.take (digits.length - places) ++ '.' :: digits.drop (digits.length - places)
    else ['0', '.'] ++ List.replicate (places - digits.length) '0' ++ digits

/-- A decimal with one digit in front of the point and a power of ten; the
point is left out when no digit follows it. -/
def scientific (digits : List Char) (exponent : Int) : List Char :=
  let power := exponent + digits.length - 1
  let mantissa :=
    match digits with
    | [] => []
    | [d] => [d]
    | d :: ds => d :: '.' :: ds
  mantissa ++ 'e' :: (toString power).toList

/-- A positive decimal as the style has it. -/
def Decimal.render (d : Decimal) : String :=
  let digits := Nat.toDigits 10 d.significand
  let magnitude : Int := digits.length + d.exponent
  String.ofList <|
    if -style.smallest ≤ magnitude ∧ magnitude ≤ style.largest then positional digits d.exponent
    else scientific digits d.exponent

/-- A datum of a format in its shortest writing. -/
def Format.render (f : Format) : Datum → String
  | .nan => "NaN"
  | .infinite negative => if negative then "-inf" else "inf"
  | .finite negative m e =>
    let sign := if negative then "-" else ""
    if m = 0 then sign ++ "0.0" else sign ++ (f.shortest m e).render

/-- A double in its shortest writing. -/
def doubleText (x : Float) : String := double.render (datumOf x)

/-- The single nearest to a double, in its shortest writing. -/
def singleText (x : Float) : String :=
  single.render (single.decode (single.encode (datumOf x)))

end MiniC.Floating
