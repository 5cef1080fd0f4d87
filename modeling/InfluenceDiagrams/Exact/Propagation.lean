import InfluenceDiagrams.Exact.Box

/-!
# `InfluenceDiagrams.Exact.Propagation` — narrowing a box by its rows

A row leaves each of its variables only as much room as the other variables allow. Narrowing the box
row by row, and again while it changes, decides most variables once a few are held, and shows early
that a box has no feasible point.

## Contents
- **`Narrowed.capHigh`, `Narrowed.capLow`** — a new bound for one variable.
- **`Narrowed.capRowHigh`, `Narrowed.capRowLow`**, **`tightenRow`** — the bounds that one row implies, for one variable and for all.
- **`propagate`** — all rows, in several passes; none if the box is empty.
-/

namespace InfluenceDiagrams.Exact

variable {α : Type} [Scalar α]

/-- Round an upper bound down to an integer if the variable has to be one. -/
def integerHigh (tol : Tolerance α) (isInteger : Bool) (x : α) : α :=
  if isInteger then
    match Scalar.floor? (x + tol.integral) with
    | some n => Scalar.ofInt n
    | none => x
  else x

/-- Round a lower bound up to an integer if the variable has to be one. -/
def integerLow (tol : Tolerance α) (isInteger : Bool) (x : α) : α :=
  -(integerHigh tol isInteger (-x))

/-- A box on the way: whether it has changed, and the box itself. -/
structure Narrowed (α : Type) where
  changed : Bool
  box : Box α

namespace Narrowed

/-- Lower the upper bound of a variable. A bound that falls below the lower one by no more than `slack`
meets it; one that falls further leaves no point. -/
def capHigh (s : Narrowed α) (tol : Tolerance α) (i : Nat) (isInteger : Bool) (slack x : α) :
    Option (Narrowed α) :=
  let x := integerHigh tol isInteger x
  let low := s.box.low i
  if x < s.box.high i - tol.at x then
    if x < low then
      if low - x ≤ slack then some ⟨true, { s.box with highs := s.box.highs.setIfInBounds i low }⟩
      else none
    else some ⟨true, { s.box with highs := s.box.highs.setIfInBounds i x }⟩
  else some s

/-- Raise the lower bound of a variable, as `capHigh` lowers the upper one. -/
def capLow (s : Narrowed α) (tol : Tolerance α) (i : Nat) (isInteger : Bool) (slack x : α) :
    Option (Narrowed α) :=
  let x := integerLow tol isInteger x
  let high := s.box.high i
  if s.box.low i + tol.at x < x then
    if high < x then
      if x - high ≤ slack then some ⟨true, { s.box with lows := s.box.lows.setIfInBounds i high }⟩
      else none
    else some ⟨true, { s.box with lows := s.box.lows.setIfInBounds i x }⟩
  else some s

/-- Apply a bound on a multiple of a variable from above. -/
def capTermHigh (s : Narrowed α) (tol : Tolerance α) (t : Nat × α) (isInteger : Bool)
    (slack room : α) : Option (Narrowed α) :=
  if 0 < t.2 then s.capHigh tol t.1 isInteger (slack / t.2) (room / t.2)
  else s.capLow tol t.1 isInteger (slack / -t.2) (room / t.2)

/-- Apply a bound on a multiple of a variable from below. -/
def capTermLow (s : Narrowed α) (tol : Tolerance α) (t : Nat × α) (isInteger : Bool)
    (slack room : α) : Option (Narrowed α) :=
  if 0 < t.2 then s.capLow tol t.1 isInteger (slack / t.2) (room / t.2)
  else s.capHigh tol t.1 isInteger (slack / -t.2) (room / t.2)

/-- Apply the upper bound of a row to one of its variables, when the others come to `rest` at least. -/
def capRowHigh (s : Narrowed α) (tol : Tolerance α) (r : Row α) (t : Nat × α) (isInteger : Bool) (rest : α) :
    Option (Narrowed α) :=
  match r.high with
  | some h => s.capTermHigh tol t isInteger (tol.at h) (h - rest)
  | none => some s

/-- Apply the lower bound of a row to one of its variables, when the others come to `rest` at most. -/
def capRowLow (s : Narrowed α) (tol : Tolerance α) (r : Row α) (t : Nat × α) (isInteger : Bool) (rest : α) :
    Option (Narrowed α) :=
  match r.low with
  | some l => s.capTermLow tol t isInteger (tol.at l) (l - rest)
  | none => some s

/-- Narrow one variable of a row, given the range of the row before any of its variables was narrowed. -/
def tightenTerm (tol : Tolerance α) (integral : Array Bool) (r : Row α) (range : α × α)
    (s : Narrowed α) (t : Nat × α) : Option (Narrowed α) :=
  let own := s.box.termRange t
  let isInteger := integral.getD t.1 false
  (s.capRowHigh tol r t isInteger (range.1 - own.1)).bind fun s =>
    s.capRowLow tol r t isInteger (range.2 - own.2)

end Narrowed

/-- Whether a row can be satisfied somewhere in its range. -/
def Row.isSatisfiable (tol : Tolerance α) (r : Row α) (range : α × α) : Bool :=
  (r.high.all fun h => decide (range.1 ≤ h + tol.at h)) &&
    (r.low.all fun l => decide (l - tol.at l ≤ range.2))

/-- Narrow all variables of one row. -/
def tightenRow (tol : Tolerance α) (integral : Array Bool) (s : Narrowed α) (r : Row α) :
    Option (Narrowed α) :=
  let range := r.range s.box
  if r.isSatisfiable tol range then r.terms.foldlM (Narrowed.tightenTerm tol integral r range) s
  else none

/-- Narrow a box by all rows, up to so many passes, until a pass changes nothing. -/
def propagate (tol : Tolerance α) (p : BoxProgram α) : Nat → Box α → Option (Box α)
  | 0, b => some b
  | n + 1, b =>
      (p.rows.foldlM (tightenRow tol p.integral) ⟨false, b⟩).bind fun s =>
        if s.changed then propagate tol p n s.box else some s.box

end InfluenceDiagrams.Exact
