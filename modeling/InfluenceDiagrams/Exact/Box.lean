import InfluenceDiagrams.Program.Problem

/-!
# `InfluenceDiagrams.Exact.Box` — bounded integer programs by position

For solving, the variables of a problem are known by their positions. Every variable has two bounds, so
the points that are still possible form a box. A row bounds a sum of multiples of variables from
below, from above, or both.

## Contents
- **`Tolerance`** — how far a row may be violated, a value be off an integer, a gain be ignored.
- **`Row`, `Box`, `BoxProgram`** — the nouns; `BoxProgram.ofProblem` reads a problem.
- **`Row.range`** — the least and greatest value of a row over a box.
-/

namespace InfluenceDiagrams.Exact

/-- How far a row may be violated, relative to its bound, how far a value may be off an integer, and
what share of the objective is too little to be a gain. -/
structure Tolerance (α : Type) where
  feasible : α
  integral : α
  gain : α

/-- A sum of multiples of variables between two bounds, either of which may be absent. -/
structure Row (α : Type) where
  terms : List (Nat × α)
  low : Option α
  high : Option α

/-- Bounds for every variable. -/
structure Box (α : Type) where
  lows : Array α
  highs : Array α

/-- A program whose objective is maximised: rows, the coefficients of the objective, and whether each
variable has to be an integer. -/
structure BoxProgram (α : Type) where
  rows : List (Row α)
  cost : List (Nat × α)
  integral : Array Bool
  box : Box α

variable {α : Type} [Scalar α]

/-- The violation that is accepted at a bound. -/
def Tolerance.at (tol : Tolerance α) (bound : α) : α := tol.feasible * (1 + Scalar.abs bound)

namespace Box

/-- The lower bound of a variable. -/
def low (b : Box α) (i : Nat) : α := b.lows.getD i 0

/-- The upper bound of a variable. -/
def high (b : Box α) (i : Nat) : α := b.highs.getD i 0

/-- The box with one variable held at a value. -/
def hold (b : Box α) (i : Nat) (x : α) : Box α := ⟨b.lows.setIfInBounds i x, b.highs.setIfInBounds i x⟩

/-- Whether the bounds of a variable meet, up to the tolerance. -/
def isFixed (b : Box α) (tol : Tolerance α) (i : Nat) : Bool :=
  decide (b.high i - b.low i ≤ tol.at (b.high i))

/-- The least and greatest value of a multiple of a variable. -/
def termRange (b : Box α) (t : Nat × α) : α × α :=
  if 0 < t.2 then (t.2 * b.low t.1, t.2 * b.high t.1) else (t.2 * b.high t.1, t.2 * b.low t.1)

end Box

/-- The least and greatest value of a row over a box. -/
def Row.range (r : Row α) (b : Box α) : α × α :=
  r.terms.foldl (fun acc t => (acc.1 + (b.termRange t).1, acc.2 + (b.termRange t).2)) (0, 0)

namespace BoxProgram

/-- Whether a variable has to be an integer. -/
def isInteger (p : BoxProgram α) (i : Nat) : Bool := p.integral.getD i false

/-- The variables that have to be integers. -/
def integers (p : BoxProgram α) : List Nat := (List.range p.integral.size).filter p.isInteger

/-- The value of the objective at a point. -/
def value (p : BoxProgram α) (point : Array α) : α :=
  p.cost.foldl (fun acc t => acc + t.2 * point.getD t.1 0) 0

/-- The coefficient of a variable in the objective. -/
def costOf (p : BoxProgram α) (i : Nat) : α :=
  match p.cost.find? fun t => t.1 == i with
  | some t => t.2
  | none => 0

/-- Replace variables by their positions; a variable that is not listed and a zero coefficient are left
out. -/
def positions (vs : List (Variable α)) (terms : List (Variable α × α)) : List (Nat × α) :=
  terms.filterMap fun t =>
    if t.2 == 0 then none else (vs.findIdx? fun v => v.key == t.1.key).map (·, t.2)

/-- The row of a constraint. -/
def rowOf (vs : List (Variable α)) (c : Constraint α) : Row α :=
  match c.relation with
  | .le => ⟨positions vs c.terms, none, some c.rhs⟩
  | .eq => ⟨positions vs c.terms, some c.rhs, some c.rhs⟩
  | .ge => ⟨positions vs c.terms, some c.rhs, none⟩

/-- The program of a problem over its variables in the order in which they were met. An objective to be
minimised changes its sign. -/
def ofProblem (p : Problem α) : BoxProgram α :=
  let vs := p.met
  let terms := (p.objective.map LinearExpr.terms).getD []
  let signed := match p.sense with
    | .maximize => terms
    | .minimize => terms.map fun t => (t.1, -t.2)
  { rows := p.constraints.map fun c => rowOf vs c.2
    cost := positions vs signed
    integral := (vs.map fun v => v.category == .integer).toArray
    box := ⟨(vs.map Variable.low).toArray, (vs.map Variable.high).toArray⟩ }

end BoxProgram
end InfluenceDiagrams.Exact
