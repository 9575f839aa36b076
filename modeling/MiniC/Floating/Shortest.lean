/-
The shortest decimal of a binary floating point number: the fewest digits
that lie closer to it than to any other number of its format, and of those
the decimal nearest to the number, the larger one on a tie. Consumed by
the writer of floating point texts.
-/
import MiniC.Floating.Format

namespace MiniC.Floating

/-- A positive decimal, `significand * 10 ^ exponent`. -/
structure Decimal where
  significand : Nat
  exponent : Int
deriving DecidableEq, Repr

/-- The positive numbers that round to a given one, as fractions over one
denominator; the ends belong to it when `closed`. -/
structure Interval where
  lower : Nat
  value : Nat
  upper : Nat
  denominator : Nat
  closed : Bool
deriving DecidableEq, Repr

/-- The interval of `m * 2 ^ e`: half way to the neighbours, where the
neighbour below a power of two is twice as near as the one above. -/
def Format.interval (f : Format) (m : Nat) (e : Int) : Interval :=
  let nearBelow := m = Nat.pow 2 f.fractionBits ∧ f.leastExponent < e
  let (unit, denominator) := Format.scale 1 1 (e - 2)
  { lower := (4 * m - if nearBelow then 1 else 2) * unit
    value := 4 * m * unit
    upper := (4 * m + 2) * unit
    denominator
    closed := m % 2 = 0 }

namespace Interval

/-- Whether the fraction `num / den` lies in the interval. -/
def contains (i : Interval) (num den : Nat) : Bool :=
  let scaled := num * i.denominator
  if i.closed then i.lower * den ≤ scaled && scaled ≤ i.upper * den
  else i.lower * den < scaled && scaled < i.upper * den

/-- A whole number times a power of ten, as numerator and denominator. -/
def point (s : Nat) (k : Int) : Nat × Nat :=
  if k < 0 then (s, Nat.pow 10 k.natAbs) else (s * Nat.pow 10 k.natAbs, 1)

/-- The multiple of `10 ^ k` in the interval that is nearest to its value,
looked for among the value's two neighbours on that grid. -/
def onGrid? (i : Interval) (k : Int) : Option Nat :=
  let (unit, den) := point 1 k
  let below := i.value * den / (i.denominator * unit)
  let above := below + 1
  let holds (s : Nat) : Bool := let (n, d) := point s k; i.contains n d
  -- Twice the distance from the lower neighbour, against one grid step.
  let low := 2 * (i.value * den - below * (i.denominator * unit))
  let step := i.denominator * unit
  if holds below && (low < step || !holds above) then some below
  else if holds above then some above
  else none

/-- The power of ten just above the value. -/
def magnitude (i : Interval) : Int :=
  -- The count of decimal digits of the quotient, or of its reciprocal.
  let whole := i.value / i.denominator
  if 0 < whole then (Nat.toDigits 10 whole).length
  else
    let inverse := (i.denominator - 1) / i.value
    1 - (Nat.toDigits 10 inverse).length

end Interval

/-- Drops trailing zeros of a significand; `fuel` bounds their number. -/
def Decimal.trim : Nat → Decimal → Decimal
  | 0, d => d
  | fuel + 1, d =>
    if d.significand % 10 = 0 ∧ d.significand ≠ 0 then
      trim fuel ⟨d.significand / 10, d.exponent + 1⟩
    else d

/-- The shortest decimal of the positive number `m * 2 ^ e` of a format. No
number of a format needs more than seventeen digits. -/
def Format.shortest (f : Format) (m : Nat) (e : Int) : Decimal :=
  let i := f.interval m e
  let grid (digits : Nat) : Int := i.magnitude - digits
  let found := (List.range 17).findSome? fun n =>
    (i.onGrid? (grid (n + 1))).map fun s => Decimal.mk s (grid (n + 1))
  (found.getD ⟨m, 0⟩).trim 20

end MiniC.Floating
