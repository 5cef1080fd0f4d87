import InfluenceDiagrams.Diagram.Lookup

/-!
# `InfluenceDiagrams.Diagram.Written` — tables as they are written

In a document a table is written as nested lists of integers, truth values and other numbers. Tables of
probabilities and utilities are read as numbers. Tables of strategies keep their entries as they were
written, as far as entries of different kinds can stand in one table.

## Contents
- **`Written`** — nested lists of entries.
- **`Written.numbers`** — the table of the numbers that the entries stand for.
- **`Numeral.unify`, `Written.entries`** — the table of the entries themselves, brought to one kind.
-/

namespace InfluenceDiagrams

variable {α : Type} [Scalar α]

namespace Numeral

/-- Bring entries to one kind. Integers of any size stay beside other entries. Otherwise one number that
is not an integer makes all entries such numbers, as do integers that need both kinds of word, and one
integer makes truth values integers. -/
def unify (es : List (Numeral α)) : Numeral α → Numeral α :=
  let ints := es.filterMap int?
  match WordKind.ofInts ints with
  | .unbounded => id
  | .double => fun e => real e.number
  | .signed | .unsigned =>
      if es.any isReal then fun e => real e.number else if ints.isEmpty then id else asInt

end Numeral

/-- A table as it is written. -/
abbrev Written (α : Type) := Nested (Numeral α)

namespace Written

/-- The table that is written; the lists must be neither ragged nor too deep. -/
def table (x : Written α) : Except (Fault α) (Table (Numeral α)) := do
  let t ← orFault .raggedTable x.rectangle?
  Table.checkRank t.rank
  .ok t

/-- The table of the numbers that the entries stand for. -/
def numbers (x : Written α) : Except (Fault α) (Table α) := do
  let t ← x.table
  if t.entries.all Numeral.inRange then .ok (t.map Numeral.number) else .error .overflow

/-- The table of the entries, brought to one kind. -/
def entries (x : Written α) : Except (Fault α) (Table (Numeral α)) :=
  x.table.map fun t => t.map (Numeral.unify t.entries)

end Written
end InfluenceDiagrams
