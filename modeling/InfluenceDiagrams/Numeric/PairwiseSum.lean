import InfluenceDiagrams.Numeric.Scalar

/-!
# `InfluenceDiagrams.Numeric.PairwiseSum` — sums with a bounded rounding error

Moments and tail masses are summed over blocks: eight running sums over a block of up to 128 entries,
and longer lists are halved at a multiple of eight. The total is added to zero, so that it is never a
negative zero. In exact arithmetic this is the sum of the list; in rounding arithmetic the order is part
of the result.

## Contents
- **`laneSums`** — eight running sums over full groups of eight, and the entries left over.
- **`blockSum`** — the sum of a list of at most 128 entries.
- **`halvedSum`** — the sum of the halves of a longer list.
- **`pairwiseSum`** — the sum of any list, from zero.
-/

namespace InfluenceDiagrams

variable {α : Type} [Scalar α]

/-- Add full groups of eight entries to eight running sums; returns the sums and the rest, which is
shorter than eight. -/
def laneSums (lanes xs : List α) : List α × List α :=
  if 8 ≤ xs.length then
    laneSums (List.zipWith (· + ·) lanes (xs.take 8)) (xs.drop 8)
  else (lanes, xs)
termination_by xs.length
decreasing_by simp only [List.length_drop]; omega

/-- Add eight numbers two by two. -/
def joinLanes : List α → α
  | [a, b, c, d, e, f, g, h] => ((a + b) + (c + d)) + ((e + f) + (g + h))
  | xs => Scalar.sum xs

/-- Sum of a block: left to right below eight entries, in eight lanes from there on. -/
def blockSum (xs : List α) : α :=
  if xs.length < 8 then Scalar.sum xs
  else
    let (lanes, rest) := laneSums (xs.take 8) (xs.drop 8)
    rest.foldl (· + ·) (joinLanes lanes)

/-- Sum over blocks of up to 128 entries; longer lists are halved at a multiple of eight. -/
def halvedSum (xs : List α) : α :=
  if 128 < xs.length then
    let h := xs.length / 2 - xs.length / 2 % 8
    halvedSum (xs.take h) + halvedSum (xs.drop h)
  else blockSum xs
termination_by xs.length
decreasing_by
  · simp only [List.length_take]; omega
  · simp only [List.length_drop]; omega

/-- Sum of a list from zero: the entries are summed over blocks first. -/
def pairwiseSum (xs : List α) : α := 0 + halvedSum xs

end InfluenceDiagrams
