/-!
# `InfluenceDiagrams.Numeric.Binary64` — the exact value of a double

A finite double is `± mantissa · 2 ^ exponent` for natural `mantissa` and integer `exponent`. Reading
it off the bits and writing it back needs no floating-point operation, so everything that prints or
rounds a double starts here and is integer arithmetic from then on.

## Contents
- **`Dyadic`** — sign, mantissa, exponent; `Dyadic.num`/`Dyadic.den` give the magnitude as a fraction.
- **`roundHalfEven`** — a quotient of natural numbers rounded to an integer.
- **`Binary64.decode?`** — the dyadic a double stands for; none for an infinity or a NaN.
- **`Binary64.ofQuotient`** — the double nearest to a quotient of two integers, rounded once.
- **`Binary64.nearestInteger`** — an integer as a double would keep it.
- **`Binary64.floor?`** — the greatest integer not above a double.
-/

namespace InfluenceDiagrams

/-- The number `mantissa · 2 ^ exponent`, with its sign; a zero keeps its sign as well. -/
structure Dyadic where
  negative : Bool
  mantissa : Nat
  exponent : Int
  deriving Repr, DecidableEq

namespace Dyadic

/-- Numerator of the magnitude: the power of two belongs here when its exponent is not negative. -/
def num (x : Dyadic) : Nat := x.mantissa * Nat.pow 2 x.exponent.toNat

/-- Denominator of the magnitude: the power of two belongs here when its exponent is negative. -/
def den (x : Dyadic) : Nat := Nat.pow 2 (-x.exponent).toNat

/-- The greatest integer not above the number; division of integers by `den` rounds down. -/
def floor (x : Dyadic) : Int :=
  (if x.negative then -(x.num : Int) else x.num) / (x.den : Int)

end Dyadic

/-- The quotient rounded to an integer, halves to the even neighbour. -/
def roundHalfEven (num den : Nat) : Nat :=
  let q := num / den
  let twice := 2 * (num % den)
  if twice < den then q else if den < twice then q + 1 else if q % 2 = 0 then q else q + 1

namespace Binary64

/-! ## Reading -/

/-- The biased exponent of a double, bits 52 to 62. -/
def biasedExponent (x : Float) : Nat := ((x.toBits >>> 52) &&& 0x7FF).toNat

/-- The stored fraction of a double, bits 0 to 51. -/
def fraction (x : Float) : Nat := (x.toBits &&& 0xFFFFFFFFFFFFF).toNat

/-- The sign bit of a double, bit 63. -/
def signBit (x : Float) : Bool := (x.toBits >>> 63) == 1

/-- The dyadic a double stands for. A normal double has the hidden bit `2 ^ 52`, a subnormal one does
not, and both share the least exponent `-1074`. -/
def decode? (x : Float) : Option Dyadic :=
  let e := biasedExponent x
  if e = 0x7FF then none
  else if e = 0 then some ⟨signBit x, fraction x, -1074⟩
  else some ⟨signBit x, Nat.pow 2 52 + fraction x, (e : Int) - 1075⟩

/-- The greatest integer not above a double; none for an infinity or a NaN. -/
def floor? (x : Float) : Option Int := (decode? x).map Dyadic.floor

/-! ## Rounding -/

/-- The exponent of two of the leading digit of a positive fraction: `2 ^ e ≤ num / den < 2 ^ (e + 1)`.
Comparing the lengths leaves two candidates, and one comparison decides. -/
def leadingBit (num den : Nat) : Int :=
  let e := (num.log2 : Int) - den.log2
  if den * Nat.pow 2 e.toNat ≤ num * Nat.pow 2 (-e).toNat then e else e - 1

/-- The double `mantissa · 2 ^ exponent` for an exponent from `-1074` on and a mantissa of 53 digits at
most, with all 53 unless the exponent is the least. Adding the mantissa to the exponent's field carries
its leading digit over, so all such numbers follow each other as their bits do; beyond the greatest
double stands the infinity. -/
def pack (mantissa : Nat) (exponent : Int) : Float :=
  let bits := (exponent + 1074).toNat * 0x10000000000000 + mantissa
  Float.ofBits (UInt64.ofNat (min bits 0x7FF0000000000000))

/-- The double nearest to a positive fraction, of two equally near the one with the even mantissa. -/
def ofFraction (num den : Nat) : Float :=
  let unit := max (leadingBit num den - 52) (-1074)
  pack (roundHalfEven (num * Nat.pow 2 (-unit).toNat) (den * Nat.pow 2 unit.toNat)) unit

/-- The double nearest to a quotient of two integers; infinite beyond the range of doubles. -/
def ofQuotient (n d : Int) : Float :=
  if n = 0 then 0.0
  else if (decide (n < 0)) == (decide (d < 0)) then ofFraction n.natAbs d.natAbs
  else -(ofFraction n.natAbs d.natAbs)

/-- The double nearest to an integer, of two equally near the one with an even last digit, while the
integer is within the range of doubles: 53 binary digits are kept. -/
def nearestInteger (n : Int) : Int :=
  let unit := Nat.pow 2 (n.natAbs.log2 - 52)
  n.sign * (roundHalfEven n.natAbs unit * unit : Nat)

end Binary64
end InfluenceDiagrams
