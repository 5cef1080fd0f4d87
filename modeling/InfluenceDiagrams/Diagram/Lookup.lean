import InfluenceDiagrams.Diagram.Table
import InfluenceDiagrams.Fault
import InfluenceDiagrams.Numeric.Words

/-!
# `InfluenceDiagrams.Diagram.Lookup` — the dimensions of tables, and looking up entries

A table that is made of nested lists, of values or by chance has a bounded number of dimensions, and more
are a fault wherever a table is made.

An index into a table is out of range as soon as one of its positions is, or if there are too many of
them. No table has places beyond the signed words, so the positions of an index are put into such words
first, in order: of those that do not fit, the first one decides. If it fits an unsigned word, it is too
large, and otherwise out of range.

## Contents
- **`Table.maxRank`**, **`Table.checkRank`** — how many dimensions a table can have.
- **`indexFault`** — why an index selects nothing.
- **`Table.lookup`, `Table.selected`** — the entry at an index, and what an index selects.
- **`Table.lookup_of_get?`** — an index in range is never at fault.
-/

namespace InfluenceDiagrams

variable {α β : Type}

/-- The most dimensions that a table can have. This is the limit of arrays in NumPy 2; in NumPy 1 it is 32. -/
def Table.maxRank : Nat := 64

/-- Whether there can be a table of so many dimensions. -/
def Table.checkRank (rank : Nat) : Except (Fault α) Unit :=
  if rank ≤ maxRank then .ok () else .error .tooManyDimensions

theorem Table.checkRank_ok {rank : Nat} (h : rank ≤ maxRank) : checkRank (α := α) rank = .ok () := if_pos h

theorem Table.checkRank_error {rank : Nat} (h : maxRank < rank) :
    checkRank (α := α) rank = .error .tooManyDimensions := if_neg (Nat.not_le_of_lt h)

/-- Why an index selects nothing from a table. -/
def indexFault (index : List State) : Fault α :=
  match index.find? fun k => !fitsSigned k with
  | some k => if fitsUnsigned k then .overflow else .outOfRange
  | none => .outOfRange

namespace Table

/-- The entry at an index. -/
def lookup (t : Table β) (index : List State) : Except (Fault α) β :=
  orFault (indexFault index) (t.get? index)

/-- What an index selects, which may have too few positions. -/
def selected (t : Table β) (index : List State) : Except (Fault α) (Selection β) :=
  orFault (indexFault index) (t.select? index)

theorem lookup_of_get? {t : Table β} {index : List State} {x : β} (h : t.get? index = some x) :
    t.lookup (α := α) index = .ok x := by
  rw [lookup, h]
  rfl

end Table
end InfluenceDiagrams
