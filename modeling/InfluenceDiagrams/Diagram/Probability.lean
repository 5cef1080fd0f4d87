import InfluenceDiagrams.Diagram.Written

/-!
# `InfluenceDiagrams.Diagram.Probability` — the probability of a path

Every chance node has a table with the probability of each of its states, given the states of the
nodes it depends on. The probability of a path is the product of one entry per chance node, in the
order of the nodes.

## Contents
- **`InfoNode`** — a node and the nodes whose states it depends on or observes.
- **`ProbabilityTables`** — chance nodes with their tables; `ofTables` checks the dimensions, and
  `ofWritten` reads the tables first.
- **`ProbabilityTables.eval`** — the product, which stops at a zero factor.
- **`PathProbability`** — tables, or any function of the path.
-/

namespace InfluenceDiagrams

/-- A node with its information set: the nodes it depends on, observes or adds up over. -/
structure InfoNode where
  index : Node
  info : List Node
  deriving Repr, DecidableEq

/-- Chance nodes with their probability tables, indexed by the information set and the own state. -/
structure ProbabilityTables (α : Type) where
  parts : List (InfoNode × Table α)

namespace ProbabilityTables

variable {α : Type}

/-- Whether each table has one dimension per observed node and one for the own state. -/
def checkRanks : List (InfoNode × Table α) → Except (Fault α) Unit
  | [] => .ok ()
  | (c, x) :: rest =>
      if x.rank = c.info.length + 1 then checkRanks rest
      else .error (.probabilityTableRank c.index (c.info.length + 1) x.rank)

/-- Chance nodes with their tables, given side by side. -/
def ofTables (C : List InfoNode) (X : List (Table α)) : Except (Fault α) (ProbabilityTables α) :=
  if C.length = X.length then (checkRanks (C.zip X)).map fun _ => ⟨C.zip X⟩
  else .error (.probabilityTableCount X.length C.length)

/-- Chance nodes with their tables as they are written. All tables are read before dimensions are
checked, and none if there are not as many as nodes. -/
def ofWritten [Scalar α] (C : List InfoNode) (X : List (Written α)) :
    Except (Fault α) (ProbabilityTables α) :=
  if C.length = X.length then (X.mapM Written.numbers).bind (ofTables C)
  else .error (.probabilityTableCount X.length C.length)

/-- The entry of one table that a path selects. -/
def factor (s : Path) (c : InfoNode) (x : Table α) : Except (Fault α) α := do
  let observed ← orFault .outOfRange (subPath? s c.info)
  let own ← orFault .outOfRange (nth? s c.index)
  x.lookup (observed ++ [own])

variable [Scalar α]

/-- Multiply a probability with the factors of the remaining nodes. A product that has become zero
stays zero, and the remaining tables are not looked at. -/
def product (s : Path) (p : α) : List (InfoNode × Table α) → Except (Fault α) α
  | [] => .ok p
  | (c, x) :: rest => do
      let f ← factor s c x
      if p * f == 0 then .ok 0 else product s (p * f) rest

/-- The probability of a path. -/
def eval (P : ProbabilityTables α) (s : Path) : Except (Fault α) α := product s 1 P.parts

/-- Whether some table has a zero entry. -/
def hasStructuralZeros (P : ProbabilityTables α) : Bool :=
  P.parts.any fun part => part.2.entries.any (· == 0)

/-- The least positive entry of all tables; zero when there is none. -/
def minPositive (P : ProbabilityTables α) : α :=
  let positive := P.parts.flatMap fun part => part.2.entries.filter fun x => decide (0 < x)
  (Scalar.least? positive).getD 0

end ProbabilityTables

/-- How a diagram gives probabilities to paths. -/
inductive PathProbability (α : Type) where
  /-- By the tables of the chance nodes. -/
  | tables (P : ProbabilityTables α)
  /-- By a function whose tables, if it has any, are out of sight. -/
  | function (f : Path → Except (Fault α) α)

/-- The probability of a path. -/
def PathProbability.eval {α : Type} [Scalar α] : PathProbability α → Path → Except (Fault α) α
  | .tables P, s => P.eval s
  | .function f, s => f s

end InfluenceDiagrams
