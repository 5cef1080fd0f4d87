import InfluenceDiagrams.Diagram.Probability
import InfluenceDiagrams.Path.Listing

/-!
# `InfluenceDiagrams.Diagram.Utility` — the utility of a path

Every value node has a table with the utility of the states it depends on. The utility of a path is
the sum of one entry per value node, in the order of the nodes, plus an offset. A shift wraps a
utility so that all paths have utility at least one, or at most minus one.

Nothing is asked of the dimensions of a table before a path is looked up. A table of too many dimensions
gives a part of itself to the sum; such a sum has no utility for its result, but it is formed as far as
the shapes of its parts match.

## Contents
- **`PathUtility`** — tables with an offset, or a shifted utility; `ofTables`, `ofWritten` make the
  former.
- **`PathUtility.addSelections`** — the sum of two selections.
- **`PathUtility.eval`, `PathUtility.offset`** — the utility of a path, the last offset.
- **`Shift`, `PathUtility.shift`** — the two shifts.
-/

namespace InfluenceDiagrams

/-- How a diagram gives utilities to paths. -/
inductive PathUtility (α : Type) where
  /-- The sum of table entries, then an offset. -/
  | tables (parts : List (InfoNode × Table α)) (offset : α)
  /-- Another utility, then an offset. -/
  | shifted (inner : PathUtility α) (offset : α)

/-- Which way a utility is shifted. -/
inductive Shift where
  /-- The least utility becomes one. -/
  | positive
  /-- The greatest utility becomes minus one. -/
  | negative
  deriving Repr, DecidableEq

namespace PathUtility

variable {α : Type}

/-- Value nodes with their tables, given side by side. -/
def ofTables (V : List InfoNode) (Y : List (Table α)) (offset : α) :
    Except (Fault α) (PathUtility α) :=
  if V.length = Y.length then .ok (.tables (V.zip Y) offset)
  else .error (.utilityTableCount Y.length V.length)

/-- The offset that is added last. -/
def offset : PathUtility α → α
  | tables _ t => t
  | shifted _ t => t

/-- What a path selects from one table. -/
def term (s : Path) (v : InfoNode) (y : Table α) : Except (Fault α) (Table.Selection α) :=
  (orFault .outOfRange (subPath? s v.info)).bind y.selected

variable [Scalar α] [Lengths]

/-- Value nodes with their tables as they are written. No table is read if there are not as many as
nodes. -/
def ofWritten (V : List InfoNode) (Y : List (Written α)) (offset : α) :
    Except (Fault α) (PathUtility α) :=
  if V.length = Y.length then (Y.mapM Written.numbers).bind fun Y => ofTables V Y offset
  else .error (.utilityTableCount Y.length V.length)

/-- The sum of two selections. An entry is added to every entry of a part. -/
def addSelections : Table.Selection α → Table.Selection α → Except (Fault α) (Table.Selection α)
  | .entry x, .entry y => .ok (.entry (x + y))
  | .part a, .entry _ => .ok (.part a)
  | .entry _, .part b => .ok (.part b)
  | .part a, .part b => (orFault .shapeMismatch (Table.stretch? a b)).map .part

/-- Add the selections from the remaining tables, left to right; each table is looked up just before its
selection is added. -/
def sumSelections (s : Path) (acc : Table.Selection α) :
    List (InfoNode × Table α) → Except (Fault α) (Table.Selection α)
  | [] => .ok acc
  | (v, y) :: rest => do
      let x ← term s v y
      sumSelections s (← addSelections acc x) rest

/-- The sum of the entries that a path selects, left to right. -/
def total (s : Path) (parts : List (InfoNode × Table α)) : Except (Fault α) α := do
  match ← sumSelections s (.entry 0) parts with
  | .entry x => .ok x
  | .part _ => .error .dimensionsLeft

/-- The utility of a path. -/
def eval : PathUtility α → Path → Except (Fault α) α
  | tables parts t, s => (total s parts).map (· + t)
  | shifted inner t, s => (eval inner s).map (· + t)

/-- The utilities of all paths over a state space, in the order of the paths. -/
def values (U : PathUtility α) (S : StateCounts) : Except (Fault α) (List α) := do
  let ss ← listPaths S .empty
  ss.mapM U.eval

/-- The offset that a shift adds, from the utilities of all paths. -/
def shiftAmount? (direction : Shift) (utilities : List α) : Option α :=
  match direction with
  | .positive => (Scalar.least? utilities).map fun u => -(u - 1)
  | .negative => (Scalar.greatest? utilities).map fun u => -(u + 1)

/-- Shift a utility over a state space, which must have a path. -/
def shift (U : PathUtility α) (S : StateCounts) (direction : Shift) :
    Except (Fault α) (PathUtility α) := do
  let utilities ← U.values S
  let t ← orFault .emptyExtremum (shiftAmount? direction utilities)
  .ok (.shifted U t)

end PathUtility
end InfluenceDiagrams
