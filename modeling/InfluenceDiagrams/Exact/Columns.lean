import InfluenceDiagrams.Program.Problem

/-!
# `InfluenceDiagrams.Exact.Columns` — the columns of a problem by name

A problem is handed to a solver column by column, and a column is known by the name of its variable. Its
entries are the rows in which the name occurs, and the objective. Each variable hands in the column of
its name, so variables that share a name hand in the same entries of rows again, and a variable that was
met but occurs nowhere any more has no column.

## Contents
- **`rowEntries`, `objectiveEntries`** — the entries of a column.
- **`legible`** — whether every column has an entry, and no entry twice.
- **`occurs`** — whether a variable occurs in a problem.
-/

namespace InfluenceDiagrams.Exact

variable {α : Type}

/-- The number of constraints in which a name occurs. -/
def rowEntries (p : Problem α) (name : String) : Nat :=
  p.constraints.countP fun c => c.2.terms.any fun t => t.1.name == name

/-- The terms of the objective. -/
def objectiveTerms (p : Problem α) : List (Variable α × α) :=
  (p.objective.map LinearExpr.terms).getD []

/-- The number of terms of the objective with a name. -/
def objectiveEntries (p : Problem α) (name : String) : Nat :=
  (objectiveTerms p).countP fun t => t.1.name == name

/-- The number of variables that share a name. -/
def sharers (p : Problem α) (name : String) : Nat := p.met.countP fun v => v.name == name

/-- Whether the column of a name has an entry, and none twice. -/
def legibleColumn (p : Problem α) (name : String) : Bool :=
  let rows := rowEntries p name
  let objective := objectiveEntries p name
  decide (0 < rows + objective) && decide (objective ≤ 1) &&
    (decide (rows = 0) || decide (sharers p name ≤ 1))

/-- Whether all columns of a problem can be read. -/
def legible (p : Problem α) : Bool := p.met.all fun v => legibleColumn p v.name

/-- Whether a variable occurs in the objective or in a constraint. -/
def occurs (p : Problem α) (v : Variable α) : Bool :=
  (objectiveTerms p).any (fun t => t.1.key == v.key) ||
    p.constraints.any fun c => c.2.terms.any fun t => t.1.key == v.key

end InfluenceDiagrams.Exact
