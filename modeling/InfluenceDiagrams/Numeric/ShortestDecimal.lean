import InfluenceDiagrams.Numeric.Binary64

/-!
# `InfluenceDiagrams.Numeric.ShortestDecimal` — the text of a double

A double is written with the fewest digits that read back as the same double; among numbers with that
many digits the nearest one is taken. The search is exact: the numbers that round to a double form an
interval of reals, and for 1, 2, …, 17 digits the two neighbours of the double on that decimal grid
are tested against the interval.

## Contents
- **`Decimal`** — digits and a power of ten.
- **`Nat` helpers** — the number of decimal digits, the place of the leading digit of a fraction.
- **`shortest`** — the digits of a double.
- **`Decimal.text`** — positional notation for leading digits from `10 ^ -4` up to `10 ^ 15`, exponent
  notation elsewhere.
- **`Binary64.text`** — the text of any double.
- **`Binary64.roundPlaces`, `Binary64.roundDigits`** — the double nearest to a number cut to so many
  places or digits.
-/

namespace InfluenceDiagrams

/-- The number `digits · 10 ^ exponent`. -/
structure Decimal where
  digits : Nat
  exponent : Int
  deriving Repr, DecidableEq

/-! ## Digits of natural numbers -/

/-- How many decimal digits a number has; zero has one. -/
def decimalLength (n : Nat) : Nat := (Nat.toDigits 10 n).length

/-- Multiply by a power of ten when its exponent is not negative. -/
def scaleUp (n : Nat) (e : Int) : Nat := n * Nat.pow 10 e.toNat

/-- The exponent of ten of the leading digit of a positive fraction: `10 ^ e ≤ num / den < 10 ^ (e + 1)`.
Comparing the digit counts leaves two candidates, and one comparison decides. -/
def leadingPlace (num den : Nat) : Int :=
  let e := (decimalLength num : Int) - decimalLength den
  if scaleUp den e ≤ scaleUp num (-e) then e else e - 1

/-- Move trailing zeros of the digits into the exponent. -/
def Decimal.trim (d : Decimal) : Decimal :=
  let kept := ((Nat.toDigits 10 d.digits).reverse.dropWhile (· == '0')).reverse
  let dropped := decimalLength d.digits - kept.length
  if kept.isEmpty then ⟨0, 0⟩ else ⟨d.digits / Nat.pow 10 dropped, d.exponent + dropped⟩

/-! ## The shortest digits -/

/-- The interval of reals that round to a positive dyadic, as bounds `low`, `high` and the value
itself over one denominator. The ends belong to it when `closed`. -/
structure RoundingInterval where
  low : Nat
  value : Nat
  high : Nat
  den : Nat
  closed : Bool

/-- Half a unit to either side; below a power of two the neighbour is half as far away, so a quarter of
a unit. The ends round to the even mantissa. -/
def roundingInterval (x : Dyadic) : RoundingInterval :=
  let gap := if x.mantissa = Nat.pow 2 52 ∧ -1074 < x.exponent then 1 else 2
  let m := 4 * x.mantissa
  let up := Nat.pow 2 (x.exponent - 2).toNat
  ⟨(m - gap) * up, m * up, (m + 2) * up, Nat.pow 2 (2 - x.exponent).toNat, x.mantissa % 2 = 0⟩

/-- Whether the multiple `c` of `10 ^ place` rounds to the value of the interval. -/
def RoundingInterval.holds (r : RoundingInterval) (c : Nat) (place : Int) : Bool :=
  let here := scaleUp c place * r.den
  let low := scaleUp r.low (-place)
  let high := scaleUp r.high (-place)
  if r.closed then decide (low ≤ here) && decide (here ≤ high)
  else decide (low < here) && decide (here < high)

/-- The best multiple of `10 ^ place` that rounds to the value, if one does: the nearer of the two
neighbours, the even one of two equally near. -/
def RoundingInterval.onGrid (r : RoundingInterval) (place : Int) : Option Decimal :=
  let num := scaleUp r.value (-place)
  let den := scaleUp r.den place
  let c := num / den
  let near := roundHalfEven num den
  let far := if near = c then c + 1 else c
  if r.holds near place then some ⟨near, place⟩
  else if r.holds far place then some ⟨far, place⟩
  else none

/-- The first grid, from `digits` digits on, that has a number rounding to the value. Seventeen digits
always have one, so `grids` counts the grids left. -/
def RoundingInterval.search (r : RoundingInterval) (lead : Int) : (grids digits : Nat) → Decimal
  | 0, digits => ⟨roundHalfEven (scaleUp r.value (digits - lead)) (scaleUp r.den (lead - digits)),
      lead - digits⟩
  | grids + 1, digits =>
      match r.onGrid (lead - digits) with
      | some d => d
      | none => r.search lead grids (digits + 1)

/-- The shortest decimal that reads back as a positive dyadic. -/
def Dyadic.shortest (x : Dyadic) : Decimal :=
  let r := roundingInterval x
  (r.search (leadingPlace r.value r.den) 17 0).trim

/-! ## Notation -/

/-- Digits that stand before the point at most, and zeros that follow it at most, in positional
notation. -/
structure DecimalStyle where
  wholeDigits : Int
  leadingZeros : Int

/-- Numbers are positional from `0.0001` up to sixteen digits before the point. -/
def DecimalStyle.plain : DecimalStyle := ⟨16, 4⟩

/-- The text of a positive decimal. Positional text always shows a digit on both sides of the point;
an exponent has a sign and at least two digits. -/
def Decimal.text (style : DecimalStyle) (d : Decimal) : String :=
  let ds := Nat.toDigits 10 d.digits
  let point : Int := ds.length + d.exponent
  if -style.leadingZeros < point ∧ point ≤ style.wholeDigits then
    if point ≤ 0 then
      "0." ++ String.ofList (List.replicate (-point).toNat '0' ++ ds)
    else if (ds.length : Int) ≤ point then
      String.ofList (ds ++ List.replicate (point - ds.length).toNat '0') ++ ".0"
    else
      String.ofList (ds.take point.toNat) ++ "." ++ String.ofList (ds.drop point.toNat)
  else
    let e := point - 1
    let fraction := if ds.length ≤ 1 then "" else "." ++ String.ofList (ds.drop 1)
    let size := toString e.natAbs
    String.ofList (ds.take 1) ++ fraction ++ "e" ++ (if e < 0 then "-" else "+")
      ++ (if size.length < 2 then "0" ++ size else size)

namespace Binary64

/-- The text of a double: the shortest decimal that reads back, or the name of a value that is not
finite. -/
def text (x : Float) : String :=
  match decode? x with
  | none => if x.isNaN then "nan" else if signBit x then "-inf" else "inf"
  | some d =>
      (if d.negative then "-" else "") ++
        (if d.mantissa = 0 then "0.0" else d.shortest.text .plain)

/-- The double nearest to a decimal. -/
def ofDecimal (negative : Bool) (d : Decimal) : Float :=
  let x := Float.ofScientific (scaleUp d.digits d.exponent) true (-d.exponent).toNat
  if negative then -x else x

/-- Round the exact value of a double to a multiple of `10 ^ place`, halves to even, and take the
nearest double. -/
def roundAt (place : Dyadic → Int) (x : Float) : Float :=
  match decode? x with
  | none => x
  | some d =>
      if d.mantissa = 0 then x
      else
        let p := place d
        ofDecimal d.negative ⟨roundHalfEven (scaleUp d.num (-p)) (scaleUp d.den p), p⟩

/-- Round to so many places after the point. -/
def roundPlaces (places : Nat) : Float → Float := roundAt fun _ => -(places : Int)

/-- Round to so many digits. -/
def roundDigits (digits : Nat) : Float → Float :=
  roundAt fun d => leadingPlace d.num d.den - (digits - 1)

end Binary64
end InfluenceDiagrams
