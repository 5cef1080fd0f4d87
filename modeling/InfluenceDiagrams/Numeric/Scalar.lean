import InfluenceDiagrams.Numeric.Binary64

/-!
# `InfluenceDiagrams.Numeric.Scalar` — the numbers a diagram is computed with

Probabilities, utilities and coefficients are elements of a type with the class `Scalar`. Two
instances run: `Float`, whose operations round, and `Rat`, whose operations are exact. Every
definition of the library is written once over `Scalar`, so a statement about exact arithmetic is a
statement about the definitions that run on doubles.

## Contents
- **`Scalar`** — the operations: arithmetic, the two comparisons, equality, integers and their
  quotients, finiteness, floor.
- **`SquareRoot`** — the one further operation that the standard deviation needs.
- **Derived operations** — absolute value, a half, ratios of integers, nearest integer with halves to
  even, comparison with an integer, left-to-right sums.
-/

namespace InfluenceDiagrams

/-- The operations on numbers that diagrams, strategies and programs use. Comparison and equality are
those of the type itself: on doubles a NaN is neither below, above nor equal to anything. -/
class Scalar (α : Type) extends
    Zero α, One α, Add α, Sub α, Mul α, Div α, Neg α, LT α, LE α, BEq α where
  /-- Whether one number is below another can be tested. -/
  decidableLT : DecidableLT α
  /-- Whether one number is at most another can be tested. -/
  decidableLE : DecidableLE α
  /-- The number nearest to an integer. -/
  ofInt : Int → α
  /-- The number nearest to the quotient of two integers, the second of them not zero. -/
  ofQuotient : Int → Int → α
  /-- Neither infinite nor a NaN. -/
  finite : α → Bool
  /-- The greatest integer not above a finite number. -/
  floor? : α → Option Int

attribute [reducible, instance] Scalar.decidableLT Scalar.decidableLE

/-- Numbers with a square root, which is only taken of numbers that are not negative. -/
class SquareRoot (α : Type) where
  /-- The square root. -/
  sqrt : α → α

instance : Scalar Float where
  zero := 0.0
  one := 1.0
  decidableLT := inferInstance
  decidableLE := inferInstance
  ofInt := Float.ofInt
  ofQuotient := Binary64.ofQuotient
  finite := Float.isFinite
  floor? := Binary64.floor?

instance : SquareRoot Float := ⟨Float.sqrt⟩

instance : Scalar Rat where
  zero := Rat.ofInt 0
  one := Rat.ofInt 1
  decidableLT := inferInstance
  decidableLE := inferInstance
  ofInt := Rat.ofInt
  ofQuotient := Rat.divInt
  finite := fun _ => true
  floor? := fun x => some x.floor

namespace Scalar

variable {α : Type} [Scalar α]

/-- The number without its sign. -/
def abs (x : α) : α := if x < 0 then -x else x

/-- One half. -/
def half : α := 1 / ofInt 2

/-- The quotient of two integers; none when the divisor is zero. -/
def ratio? (n d : Int) : Option α := if d = 0 then none else some (ofQuotient n d)

/-- The quotient of two numbers; none when the divisor is zero. -/
def quotient? (x y : α) : Option α := if y == 0 then none else some (x / y)

/-- The integer nearest to a finite number, the even one of two equally near. -/
def nearestInt? (x : α) : Option Int :=
  (floor? x).map fun n =>
    let rest := x - ofInt n
    if rest < half then n
    else if half < rest then n + 1
    else if n % 2 = 0 then n else n + 1

/-- Whether an integer is at most a number, compared exactly. An infinity is above or below all
integers, and nothing compares with a NaN. -/
def intAtMost (n : Int) (x : α) : Bool :=
  match floor? x with
  | some m => decide (n ≤ m)
  | none => decide (0 < x)

/-- Sum from zero, left to right. -/
def sum (xs : List α) : α := xs.foldl (· + ·) 0

/-- Running sums of the prefixes that start with each entry, left to right. -/
def runningSums (start : α) : List α → List α
  | [] => []
  | x :: xs => (start + x) :: runningSums (start + x) xs

/-- The least of a list, the first one of equals; none of nothing. -/
def least? : List α → Option α
  | [] => none
  | x :: xs => some (xs.foldl (fun best y => if y < best then y else best) x)

/-- The greatest of a list, the first one of equals; none of nothing. -/
def greatest? : List α → Option α
  | [] => none
  | x :: xs => some (xs.foldl (fun best y => if best < y then y else best) x)

end Scalar
end InfluenceDiagrams
