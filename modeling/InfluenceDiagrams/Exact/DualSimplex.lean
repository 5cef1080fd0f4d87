import InfluenceDiagrams.Exact.Box

/-!
# `InfluenceDiagrams.Exact.DualSimplex` — the best point of a box that satisfies rows

Every variable has two bounds, so the point that puts each variable at its better bound has the
greatest objective. It may violate rows. The dual simplex method repairs one row after another and
gives up as little of the objective as it can each time; when no row is violated any more, the point
is optimal.

Of several rows the one whose variable has the smallest number is repaired, and of several equally good
ways the one with the smallest number is taken, so that no sequence of repairs comes back to its start.

The sums of the rows are variables themselves. At any time some variables are *free columns*, held at a
bound, and the others are *basic*, given as combinations of the columns.

## Contents
- **`Column`, `Basic`, `Tableau`** — the state; `Tableau.ofBox` starts at the better bounds.
- **`Tableau.violated?`, `Tableau.entering?`, `Tableau.solveFor`, `Tableau.pivot`** — one repair.
- **`Tableau.run`** — repairs until no row is violated; none if one cannot be repaired.
- **`Box.openVars`, `Row.holdsOn`, `Row.basic`** — what of a box and its rows a tableau is about.
- **`bestPoint`** — the best point of a box.
-/

namespace InfluenceDiagrams.Exact

/-- A variable held at a bound: its value, and how the objective grows with it. -/
structure Column (α : Type) where
  id : Nat
  low : Option α
  high : Option α
  value : α
  cost : α

/-- A variable given as a combination of the columns. -/
structure Basic (α : Type) where
  id : Nat
  low : Option α
  high : Option α
  coeffs : List α

/-- The columns and the basic variables. -/
structure Tableau (α : Type) where
  columns : List (Column α)
  basics : List (Basic α)

variable {α : Type} [Scalar α]

namespace Tableau

/-- The value of a combination of the columns. -/
def valueOf (t : Tableau α) (coeffs : List α) : α :=
  Scalar.sum (List.zipWith (fun a c => a * c.value) coeffs t.columns)

/-- The bound that a basic variable violates at value `x`, and whether it has to grow. -/
def violation? (tol : Tolerance α) (b : Basic α) (x : α) : Option (α × Bool) :=
  let above := b.high.bind fun h => if h + tol.at h < x then some (h, false) else none
  let below := b.low.bind fun l => if x < l - tol.at l then some (l, true) else none
  above.or below

/-- Whatever comes first by number: the violation that was found so far, or that of a basic variable. -/
def firstViolation (tol : Tolerance α) (t : Tableau α) (best : Option (Basic α × α × Bool)) (b : Basic α) :
    Option (Basic α × α × Bool) :=
  if best.any fun c => c.1.id < b.id then best
  else ((violation? tol b (t.valueOf b.coeffs)).map (b, ·)).or best

/-- The basic variable outside its bounds that comes first by number, with the bound that it violates
and whether it has to grow. -/
def violated? (tol : Tolerance α) (t : Tableau α) : Option (Basic α × α × Bool) :=
  t.basics.foldl (t.firstViolation tol) none

/-- Whether a column can move a combination in the wanted direction: it has room there, and its
coefficient has the right sign. -/
def helps (grow : Bool) (c : Column α) (a : α) : Bool :=
  let atLow := c.low.all fun l => l == c.value
  let fixed := c.low.any fun l => c.high.any fun h => l == h
  !fixed && (if atLow == grow then decide (0 < a) else decide (a < 0))

/-- A column that could repair a combination: the loss per unit, its number and its position. -/
structure Entering (α : Type) where
  loss : α
  id : Nat
  position : Nat

/-- The smaller loss, and of equal losses the smaller number. -/
def Entering.better (a b : Entering α) : Entering α :=
  if a.loss < b.loss || (!(b.loss < a.loss) && a.id < b.id) then a else b

/-- The position of the column that repairs a combination at the least loss per unit, the first by
number of equals. -/
def entering? (tol : Tolerance α) (t : Tableau α) (grow : Bool) (coeffs : List α) : Option Nat :=
  let candidates := (List.zipWith (fun a (c : Column α × Nat) =>
    if helps grow c.1 a && decide (tol.feasible < Scalar.abs a) then
      some (⟨Scalar.abs c.1.cost / Scalar.abs a, c.1.id, c.2⟩ : Entering α)
    else none) coeffs t.columns.zipIdx).filterMap id
  match candidates with
  | [] => none
  | e :: rest => some (rest.foldl Entering.better e).position

/-- Replace the column at position `j` in a combination by what it is equal to. -/
def substitute (j : Nat) (solved coeffs : List α) : List α :=
  let f := coeffs.getD j 0
  List.zipWith (fun (a : α × Nat) s => if a.2 = j then f * s else a.1 + f * s) coeffs.zipIdx solved

/-- A combination solved for the column at position `j`: what it was equal to takes the place of that column. -/
def solveFor (j : Nat) (coeffs : List α) : List α :=
  let a := coeffs.getD j 0
  coeffs.zipIdx.map fun x => if x.2 = j then 1 / a else -(x.1 / a)

/-- Exchange a basic variable, which goes to a bound, with the column at position `j`. -/
def pivot (t : Tableau α) (b : Basic α) (bound : α) (j : Nat) : Tableau α :=
  match t.columns[j]? with
  | none => t
  | some c =>
      let solved := solveFor j b.coeffs
      let costs := substitute j solved (t.columns.map Column.cost)
      let columns := List.zipWith (fun (c : Column α) cost => { c with cost := cost }) t.columns costs
      { columns := columns.set j ⟨b.id, b.low, b.high, bound, costs.getD j 0⟩
        basics := t.basics.map fun o =>
          if o.id = b.id then ⟨c.id, c.low, c.high, solved⟩
          else { o with coeffs := substitute j solved o.coeffs } }

/-- Repair up to so many times. -/
def run (tol : Tolerance α) : Nat → Tableau α → Option (Tableau α)
  | 0, _ => none
  | n + 1, t =>
      match t.violated? tol with
      | none => some t
      | some (b, bound, grow) =>
          (t.entering? tol grow b.coeffs).bind fun j => run tol n (t.pivot b bound j)

/-- The value of a variable, if the tableau has it. -/
def value? (t : Tableau α) (id : Nat) : Option α :=
  ((t.columns.find? fun c => c.id == id).map Column.value).or
    ((t.basics.find? fun b => b.id == id).map fun b => t.valueOf b.coeffs)

end Tableau

/-- The better bound of a variable. -/
def betterBound (p : BoxProgram α) (b : Box α) (i : Nat) : α :=
  if 0 < p.costOf i then b.high i else b.low i

/-- The variables of a box that are still open. -/
def Box.openVars (tol : Tolerance α) (b : Box α) : List Nat :=
  (List.range b.lows.size).filter fun i => !b.isFixed tol i

/-- The coefficient of a variable in a row. -/
def Row.coeffOf (r : Row α) (i : Nat) : α := ((r.terms.find? fun t => t.1 == i).map Prod.snd).getD 0

/-- Whether a row holds everywhere in a box. -/
def Row.holdsOn (tol : Tolerance α) (r : Row α) (b : Box α) : Bool :=
  let range := r.range b
  (r.high.all fun h => decide (range.2 ≤ h + tol.at h)) && (r.low.all fun l => decide (l - tol.at l ≤ range.1))

/-- What the variables of a box whose bounds meet add to a row. -/
def Row.fixedPart (tol : Tolerance α) (p : BoxProgram α) (b : Box α) (r : Row α) : α :=
  Scalar.sum ((r.terms.filter fun t => b.isFixed tol t.1).map fun t => t.2 * betterBound p b t.1)

/-- A row as a combination of the open variables of a box. -/
def Row.basic (tol : Tolerance α) (p : BoxProgram α) (b : Box α) (r : Row α) (id : Nat) : Basic α :=
  let rest := r.fixedPart tol p b
  ⟨id, r.low.map (· - rest), r.high.map (· - rest), (b.openVars tol).map r.coeffOf⟩

/-- The rows and the variables of a box that are still open: variables whose bounds meet are put in, and
rows that hold wherever the others are left out. -/
def Tableau.ofBox (tol : Tolerance α) (p : BoxProgram α) (b : Box α) : Tableau α where
  columns := (b.openVars tol).map fun i => ⟨i, some (b.low i), some (b.high i), betterBound p b i, p.costOf i⟩
  basics := p.rows.zipIdx.filterMap fun (r, k) =>
    if r.holdsOn tol b then none else some (r.basic tol p b (b.lows.size + k))

/-- The best point of a box that satisfies all rows, integrality left aside; none if there is none. -/
def bestPoint (tol : Tolerance α) (p : BoxProgram α) (b : Box α) : Option (Array α) :=
  let start := Tableau.ofBox tol p b
  let repairs := 50 * (start.columns.length + start.basics.length) + 1
  (start.run tol repairs).map fun t =>
    ((List.range b.lows.size).map fun i => (t.value? i).getD (betterBound p b i)).toArray

end InfluenceDiagrams.Exact
