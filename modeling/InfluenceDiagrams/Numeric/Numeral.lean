import InfluenceDiagrams.Numeric.Scalar

/-!
# `InfluenceDiagrams.Numeric.Numeral` — numbers as they were given

The entries of tables and the values of variables are given as integers of any size, as truth values, or
as other numbers. What was given is kept, because rounding and messages tell the three apart, and is read
as a number where one is computed with. An integer may be too large for that.

## Contents
- **`Numeral`** — the three kinds.
- **`Numeral.number`, `Numeral.inRange`** — the number that a numeral stands for, and whether it has one.
- **`Numeral.isZero`, `Numeral.isOne`** — tests that no size affects.
-/

namespace InfluenceDiagrams

/-- A number as it was given. -/
inductive Numeral (α : Type) where
  | int (n : Int)
  | bool (b : Bool)
  | real (x : α)
  deriving Repr

namespace Numeral

variable {α : Type} [Scalar α]

/-- The number that a numeral stands for. -/
def number : Numeral α → α
  | int n => Scalar.ofInt n
  | bool b => if b then 1 else 0
  | real x => x

/-- Whether a numeral is within the range of numbers; only an integer can be too large. -/
def inRange : Numeral α → Bool
  | int n => Scalar.finite (Scalar.ofInt n : α)
  | _ => true

/-- The integer that a numeral is, if it is one. -/
def int? : Numeral α → Option Int
  | int n => some n
  | _ => none

/-- A numeral as an integer, a truth value being zero or one. -/
def asInt : Numeral α → Numeral α
  | bool b => int (if b then 1 else 0)
  | e => e

/-- Whether a numeral is a number other than an integer. -/
def isReal : Numeral α → Bool
  | real _ => true
  | _ => false

/-- Whether a numeral is zero. -/
def isZero : Numeral α → Bool
  | int n => n == 0
  | bool b => !b
  | real x => x == 0

/-- Whether a numeral is one. -/
def isOne : Numeral α → Bool
  | int n => n == 1
  | bool b => b
  | real x => x == 1

end Numeral
end InfluenceDiagrams
