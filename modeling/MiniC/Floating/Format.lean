/-
Binary floating point formats in exact arithmetic: taking the bits of a
number apart into a significand and a power of two, and rounding a positive
fraction to the nearest number of a format, a tie going to the even
significand. The two formats are single and double precision. Consumed by
the reader and the writer of floating point texts.
-/

namespace MiniC.Floating

/-- A binary interchange format: how many bits of fraction it stores, how
many of exponent, and the power of two of its least positive number. -/
structure Format where
  fractionBits : Nat
  exponentBits : Nat
  leastExponent : Int
deriving DecidableEq, Repr

/-- Double precision. -/
def double : Format := ⟨52, 11, -1074⟩

/-- Single precision. -/
def single : Format := ⟨23, 8, -149⟩

/-- What a bit pattern denotes. A finite magnitude is
`significand * 2 ^ exponent`; zero has significand zero. -/
inductive Datum where
  | nan
  | infinite (negative : Bool)
  | finite (negative : Bool) (significand : Nat) (exponent : Int)
deriving DecidableEq, Repr

namespace Format

/-- The least bit pattern of an infinity: all exponent bits set. -/
def infinityBits (f : Format) : Nat := (Nat.pow 2 f.exponentBits - 1) * Nat.pow 2 f.fractionBits

/-- The bit of the sign. -/
def signBit (f : Format) : Nat := Nat.pow 2 (f.fractionBits + f.exponentBits)

/-- Takes a bit pattern apart. -/
def decode (f : Format) (bits : Nat) : Datum :=
  let fraction := bits % Nat.pow 2 f.fractionBits
  let biased := bits / Nat.pow 2 f.fractionBits % Nat.pow 2 f.exponentBits
  let negative := f.signBit ≤ bits
  if biased = Nat.pow 2 f.exponentBits - 1 then
    if fraction = 0 then .infinite negative else .nan
  else if biased = 0 then .finite negative fraction f.leastExponent
  else .finite negative (Nat.pow 2 f.fractionBits + fraction) (f.leastExponent + (biased - 1))

/-- A quotient rounded to the nearest whole number, a tie to the even one. -/
def roundDiv (num den : Nat) : Nat :=
  let q := num / den
  let twice := 2 * (num % den)
  if twice < den then q
  else if twice = den then q + q % 2
  else q + 1

/-- A fraction scaled by a power of two, as numerator and denominator. -/
def scale (num den : Nat) (e : Int) : Nat × Nat :=
  if e < 0 then (num, den * Nat.pow 2 e.natAbs) else (num * Nat.pow 2 e.natAbs, den)

/-- The exponent at which the positive fraction `num / den` has just as
many significand bits as the format keeps, and never less than the least. -/
def exponentOf (f : Format) (num den : Nat) : Int :=
  let guess : Int := (num.log2 : Int) - den.log2 - f.fractionBits - 1
  let (n, d) := scale num den (-guess)
  let exact := if n / d < Nat.pow 2 (f.fractionBits + 1) then guess else guess + 1
  max exact f.leastExponent

/-- The bits of the number nearest to the positive fraction `num / den`,
infinity if the fraction is beyond the largest one. -/
def nearest (f : Format) (num den : Nat) : Nat :=
  if num = 0 then 0
  else
    let e := f.exponentOf num den
    let (n, d) := scale num den (-e)
    -- A significand with its top bit set carries into the exponent field.
    let bits := (e - f.leastExponent).toNat * Nat.pow 2 f.fractionBits + roundDiv n d
    min bits f.infinityBits

/-- The bits of a datum; a finite one is rounded to the format. -/
def encode (f : Format) : Datum → Nat
  | .nan => f.infinityBits + Nat.pow 2 (f.fractionBits - 1)
  | .infinite negative => f.infinityBits + if negative then f.signBit else 0
  | .finite negative m e =>
    let (n, d) := scale m 1 e
    f.nearest n d + if negative then f.signBit else 0

end Format

-- ======================================================= machine values

/-- The datum that a double precision value holds. -/
def datumOf (x : Float) : Datum := double.decode x.toBits.toNat

/-- The double precision value nearest to a datum. -/
def ofDatum (d : Datum) : Float := Float.ofBits (double.encode d).toUInt64

/-- The double precision value nearest to a whole number. -/
def ofInt (n : Int) : Float := ofDatum (.finite (n < 0) n.natAbs 0)

/-- The whole part of a value, clamped to 64 signed bits; what is no
number counts as zero. -/
def toLong (x : Float) : Int :=
  match datumOf x with
  | .nan => 0
  | .infinite negative => if negative then -0x8000000000000000 else 0x7fffffffffffffff
  | .finite negative m e =>
    let (n, d) := Format.scale m 1 e
    let whole : Int := (n / d : Nat)
    max (-0x8000000000000000) (min 0x7fffffffffffffff (if negative then -whole else whole))

end MiniC.Floating
