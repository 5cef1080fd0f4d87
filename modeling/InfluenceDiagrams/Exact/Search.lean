import InfluenceDiagrams.Exact.Majorant
import InfluenceDiagrams.Exact.DualSimplex
import InfluenceDiagrams.Exact.Columns
import InfluenceDiagrams.Model.Solve

/-!
# `InfluenceDiagrams.Exact.Search` — an exact solver for bounded programs

The integer variables are held at their values one after the other, and after each the box is narrowed.
A box that is empty, or whose bound does not beat the best point so far, is left. When all integer
variables are held, the best point of the box is taken.

The outer variables, which belong to no choice, are held first, and always in the box with the greatest
bound. The inner variables are held depth first, at the value with the greatest bound first.

The search stands in for an external solver, so that models can be run. The theorems about runs hold for every
`Solver`, or for every one whose answers are right. What is proved of this one is that without tolerances for rows
and integers its points are feasible (`Proofs.Exact.Answers`); that no feasible point is better, and what becomes of
rounding, is not proved.

## Contents
- **`Incumbent`** — the best point so far.
- **`integerValues`** — the integers between two bounds.
- **`branches`** — the narrowed boxes for the values of a variable.
- **`search`, `dive`** — the best feasible point of a box, and the first one.
- **`explore`**, **`optimum`** — the best feasible point of all boxes, and of a program.
- **`exactSolver`** — the search as a solver of problems, with **`doubleTolerances`**.
-/

namespace InfluenceDiagrams.Exact

/-- A feasible point with its objective value. -/
structure Incumbent (α : Type) where
  value : α
  point : Array α

variable {α : Type} [Scalar α]

/-- The passes of one propagation. -/
def passes : Nat := 40

/-- The integers between the bounds of a variable, the greatest first. -/
def integerValues (tol : Tolerance α) (b : Box α) (i : Nat) : List Int :=
  match Scalar.floor? (b.high i + tol.integral), Scalar.floor? (tol.integral - b.low i) with
  | some high, some low =>
      (List.range (high + low + 1).toNat).map fun (k : Nat) => high - (k : Int)
  | _, _ => []

/-- Whether a variable is left a single value, which is an integer. -/
def Box.isHeld (b : Box α) (tol : Tolerance α) (i : Nat) : Bool :=
  b.low i == b.high i && (integerValues tol b i).length == 1

/-- Whether a value beats the best point so far by more than the tolerance. -/
def beats (tol : Tolerance α) (x : α) : Option (Incumbent α) → Bool
  | none => true
  | some best => decide (best.value + tol.gain * (1 + Scalar.abs best.value) < x)

/-- The narrowed boxes for the values of a variable, each with its bound, the greatest bound first. -/
def branches (tol : Tolerance α) (p : BoxProgram α) (g : Guide α) (b : Box α) (i : Nat) :
    List (α × Box α) :=
  let narrowed := (integerValues tol b i).filterMap fun n =>
    (propagate tol p passes (b.hold i (Scalar.ofInt n))).bind fun b => (g.bound? b).map (·, b)
  narrowed.mergeSort fun x y => decide (y.1 ≤ x.1)

/-- Put the best point of a box in which all integer variables are held in place of the best point so
far, if it beats that. -/
def settle (tol : Tolerance α) (p : BoxProgram α) (b : Box α) (best : Option (Incumbent α)) :
    Option (Incumbent α) :=
  match bestPoint tol p b with
  | none => best
  | some point =>
      let x := p.value point
      if beats tol x best then some ⟨x, point⟩ else best

/-! ## Within one box -/

/-- The best feasible point of a box, or the best point so far if the box has none that beats it. The
list has the integer variables that are not held yet. -/
def search (tol : Tolerance α) (p : BoxProgram α) (g : Guide α) :
    List Nat → Box α → Option (Incumbent α) → Option (Incumbent α)
  | [], b, best => settle tol p b best
  | i :: rest, b, best =>
      if b.isHeld tol i then search tol p g rest b best
      else
        (branches tol p g b i).foldl (fun best x =>
          if beats tol x.1 best then search tol p g rest x.2 best else best) best

/-- The first feasible point of a box, with the integer variables held in turn; none if there is none. -/
def dive (tol : Tolerance α) (p : BoxProgram α) (g : Guide α) :
    List Nat → Box α → Option (Incumbent α)
  | [], b => settle tol p b none
  | i :: rest, b =>
      if b.isHeld tol i then dive tol p g rest b
      else (branches tol p g b i).findSome? fun x => dive tol p g rest x.2

/-! ## Among boxes -/

/-- A box with its bound and the outer variables that are not held yet. -/
structure Pending (α : Type) where
  bound : α
  rest : List Nat
  box : Box α

/-- Put a box before the first one whose bound is not clearly greater. -/
def Pending.insert (tol : Tolerance α) (x : Pending α) : List (Pending α) → List (Pending α)
  | [] => [x]
  | y :: rest =>
      if x.bound + tol.gain * (1 + Scalar.abs x.bound) < y.bound then y :: x.insert tol rest
      else x :: y :: rest

/-- Hold the outer variables, always in the box with the greatest bound; a box in which they are all
held is searched over the inner variables. At most `fuel` boxes are looked at. -/
def explore (tol : Tolerance α) (p : BoxProgram α) (g : Guide α) (inner : List Nat) :
    (fuel : Nat) → List (Pending α) → Option (Incumbent α) → Option (Incumbent α)
  | 0, _, best => best
  | _ + 1, [], best => best
  | fuel + 1, x :: queue, best =>
      if beats tol x.bound best then
        match x.rest with
        | [] => explore tol p g inner fuel queue (search tol p g inner x.box best)
        | i :: rest =>
            let next := if x.box.isHeld tol i then [⟨x.bound, rest, x.box⟩]
              else (branches tol p g x.box i).map fun y => ⟨y.1, rest, y.2⟩
            explore tol p g inner fuel
              (next.foldl (fun queue (y : Pending α) => y.insert tol queue) queue) best
      else best

/-- How many boxes are looked at. -/
def maxBoxes : Nat := 1000000

/-! ## Programs -/

/-- The integer variables of choices, first those of the choices that most variables need. -/
def innerOrder (p : BoxProgram α) (alternatives : List (List (List Nat))) : List Nat :=
  let needed := fun (groups : List (List Nat)) => groups.flatten.length
  let ranked := (p.choices.zip (alternatives.map needed)).mergeSort fun x y => decide (y.2 ≤ x.2)
  (ranked.flatMap Prod.fst).eraseDups

/-- Search the whole box of a program, from a first feasible point on. The outer variables are the
integer variables in no choice. -/
def optimum (tol : Tolerance α) (p : BoxProgram α) : Option (Incumbent α) :=
  (propagate tol p passes p.box).bind fun b =>
    let alternatives := p.alternatives tol passes
    let g := p.guide alternatives
    let inner := innerOrder p alternatives
    let outer := p.integers.filter fun i => !inner.contains i
    (dive tol p g (inner ++ outer) b).bind fun first => (g.bound? b).bind fun bound =>
      explore tol p g inner maxBoxes [⟨bound, outer, b⟩] (some first)

/-- The answer for the best point of a problem. The anchor of an objective without terms is given no
value, and neither is a variable that occurs nowhere any more. -/
def verdict (p : Problem α) : Option (Incumbent α) → Verdict α
  | none => ⟨.infeasible, []⟩
  | some best =>
      ⟨.optimal, p.met.zipIdx.filterMap fun (v, i) =>
        if v == Problem.anchor || !occurs p v then none else some (v.key, (best.point[i]?).map .real)⟩

/-- Solve a problem whose columns are legible exactly, up to the first of some tolerances that leaves a
feasible point. -/
def exactSolver (tols : List (Tolerance α)) : Solver α := fun _ p =>
  if legible p then .ok (verdict p (tols.findSome? fun tol => optimum tol (.ofProblem p)))
  else .error .unreadableProblem

/-- The tolerances for doubles: a billionth for rows, and a ten-millionth at a bound of one where that
leaves nothing; a millionth for integers, and relative gains down to a ten-billionth. -/
def doubleTolerances : List (Tolerance Float) := [⟨1e-9, 1e-6, 1e-10⟩, ⟨5e-8, 1e-6, 1e-10⟩]

end InfluenceDiagrams.Exact
