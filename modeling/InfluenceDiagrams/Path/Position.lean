/-!
# `InfluenceDiagrams.Path.Position` — positions counted from either end

Nodes index paths and states index tables. A position that is not negative counts from the front; a
negative one counts from the back, so `-1` is the last place. Any other position is out of range.

## Contents
- **`position?`** — the place a position denotes in a sequence of given length.
- **`nth?`, `replace?`** — reading and writing a list at a position.
-/

namespace InfluenceDiagrams

/-- The place that position `k` denotes among `n` places. -/
def position? (n : Nat) (k : Int) : Option Nat :=
  if 0 ≤ k then
    if k < n then some k.toNat else none
  else if 0 ≤ k + n then some (k + n).toNat else none

theorem position?_natCast {n k : Nat} (h : k < n) : position? n (k : Int) = some k := by
  simp only [position?, Int.natCast_nonneg, if_true, Int.toNat_natCast, Int.ofNat_lt, h]

theorem position?_lt {n : Nat} {k : Int} {i : Nat} (h : position? n k = some i) : i < n := by
  unfold position? at h
  split at h <;> split at h <;> simp only [Option.some.injEq, reduceCtorEq] at h <;> omega

/-- The entry of a list at a position. -/
def nth? {β : Type} (xs : List β) (k : Int) : Option β :=
  (position? xs.length k).bind (xs[·]?)

/-- The list with its entry at a position replaced. -/
def replace? {β : Type} (xs : List β) (k : Int) (x : β) : Option (List β) :=
  (position? xs.length k).map (xs.set · x)

end InfluenceDiagrams
