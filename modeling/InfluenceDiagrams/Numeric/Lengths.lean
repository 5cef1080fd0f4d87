/-!
# `InfluenceDiagrams.Numeric.Lengths` — how long lists can be

How long a list can be depends on what counts its entries, and not on the numbers that are computed with. The two are
kept apart: whatever lists states or paths does it for the lengths in scope. Lists have any length where nothing else is
said; on a machine with words of 64 bits, a length fits a signed one. The memory that a list takes is left out.

## Contents
- **`Lengths`** — the greatest length, if there is one; **`Lengths.unbounded`**, **`Lengths.words`**.
- **`Lengths.admits`** — whether there can be a list of so many entries.
- **`Lengths.counts`** — whether a number can be asked for as a length.
-/

namespace InfluenceDiagrams

/-- The lengths that lists can have. -/
class Lengths where
  /-- The greatest of them, if there is one. -/
  greatest? : Option Nat

namespace Lengths

/-- Lists of any length. -/
@[reducible] def unbounded : Lengths := ⟨none⟩

/-- Lengths that fit signed words of 64 bits. -/
@[reducible] def words : Lengths := ⟨some 0x7fffffffffffffff⟩

instance (priority := low) : Lengths := unbounded

variable [Lengths]

/-- Whether there can be a list of so many entries; a negative number stands for the empty list. -/
def admits (n : Int) : Bool := greatest?.all fun g => decide (n ≤ g)

/-- Whether a number can be asked for as a length. A word that holds the greatest length holds as many negative
numbers as lengths. -/
def counts (n : Int) : Bool := greatest?.all fun g => decide (-g - 1 ≤ n) && decide (n ≤ g)

end Lengths
end InfluenceDiagrams
