import InfluenceDiagrams.Exact.Propagation

/-!
# `InfluenceDiagrams.Exact.Majorant` — upper bounds of the objective over a box

Three observations bound the objective from above. A multiple of an equation may be taken out of it,
which changes it by a constant wherever the equation holds. A variable that counts negatively may be
replaced by something that it is at least. And where a row lets only one of some integer variables be
one, the variables that need any of them fall into groups of which only one counts: a sum over all
variables is at most the sum of the best group and the variables that need none.

## Contents
- **`Equation`, `Floor`** — what is taken out, and what is put in.
- **`Majorant`, `BoxProgram.majorants`** — affine functions above the objective.
- **`Majorant.sink`, `Majorant.raise?`** — replacing variables, and taking out one more equation.
- **`Plan`, `Plan.bound`** — variables that all count, and groups of which at most one counts.
- **`BoxProgram.alternatives`, `BoxProgram.plan`** — the plan of a program.
- **`Guide`, `Guide.bound?`** — the least of all bounds over a box.
-/

namespace InfluenceDiagrams.Exact

variable {α : Type} [Scalar α]

/-! ## Rows of a special form -/

/-- A sum of multiples of variables that has a given value. -/
structure Equation (α : Type) where
  terms : List (Nat × α)
  rhs : α

/-- A variable is at least a multiple of another one whenever an integer variable is one. -/
structure Floor (α : Type) where
  var : Nat
  factor : α
  base : Nat
  guard : Nat

namespace Row

/-- The equation that a row is, if its bounds meet. -/
def equation? (r : Row α) : Option (Equation α) :=
  r.low.bind fun low => r.high.bind fun high =>
    if low == high then some ⟨r.terms, high⟩ else none

/-- A row `x - y ≤ 0` as the pair of `x` and `y`. -/
def order? (r : Row α) : Option (Nat × Nat) :=
  match r.high, r.terms with
  | some h, [s, t] =>
      if h == 0 && s.2 == 1 && t.2 == -1 then some (s.1, t.1)
      else if h == 0 && s.2 == -1 && t.2 == 1 then some (t.1, s.1)
      else none
  | _, _ => none

end Row

namespace BoxProgram

/-- The number of variables. -/
def size (p : BoxProgram α) : Nat := p.box.lows.size

/-- A row `a x + h g - y ≤ h` with an integer variable `g`, as a floor of `y`. -/
def floor? (p : BoxProgram α) (r : Row α) : Option (Floor α) :=
  r.high.bind fun h =>
    let isGuard := fun (t : Nat × α) => t.2 == h && p.isInteger t.1
    let isLast := fun (t : Nat × α) => t.2 == -1
    match r.terms.filter isGuard, r.terms.filter isLast,
        r.terms.filter fun t => !isGuard t && !isLast t with
    | [g], [y], [x] => some ⟨y.1, x.2, x.1, g.1⟩
    | _, _, _ => none

/-- The floors that single rows give, and those of a variable that is at least another one with a floor. -/
def floors (p : BoxProgram α) : List (Floor α) :=
  let direct := p.rows.filterMap p.floor?
  direct ++ (p.rows.filterMap Row.order?).filterMap fun o =>
    (direct.find? fun f => f.var == o.1).map fun f => { f with var := o.2 }

/-- The equations among the rows. -/
def equations (p : BoxProgram α) : List (Equation α) := p.rows.filterMap Row.equation?

end BoxProgram

/-! ## Majorants -/

/-- An affine function that is at least the objective wherever the rows hold: the coefficient of each
variable, and a constant; and the equations that have not been taken out of it. -/
structure Majorant (α : Type) where
  coeffs : Array α
  constant : α
  unused : List (Equation α)

namespace Majorant

/-- The coefficient of a variable. -/
def coeff (m : Majorant α) (i : Nat) : α := m.coeffs.getD i 0

/-- A multiple of an equation is taken out. -/
def without (m : Majorant α) (factor : α) (e : Equation α) : Majorant α :=
  { m with
    coeffs := e.terms.foldl (fun cs t => cs.setIfInBounds t.1 (cs.getD t.1 0 - factor * t.2)) m.coeffs
    constant := m.constant + factor * e.rhs }

/-- The multiple of an equation is taken out that leaves none of its variables a negative coefficient,
if one has; the coefficients of the equation are taken to be positive. -/
def raise? (m : Majorant α) (e : Equation α) : Option (Majorant α) :=
  (Scalar.least? (e.terms.map fun t => m.coeff t.1 / t.2)).bind fun factor =>
    if factor < 0 then some (m.without factor e) else none

/-- Variables with negative coefficients are replaced by the floors whose guards are one in a box. -/
def sink (m : Majorant α) (floors : List (Floor α)) (b : Box α) : Majorant α :=
  { m with
    coeffs := floors.foldl (fun cs f =>
      let c := cs.getD f.var 0
      if c < 0 ∧ 1 ≤ b.low f.guard then
        (cs.setIfInBounds f.var 0).setIfInBounds f.base (cs.getD f.base 0 + c * f.factor)
      else cs) m.coeffs }

end Majorant

namespace BoxProgram

/-- The factors that take one variable of an equation out of the objective, in ascending order. -/
def factors (p : BoxProgram α) (e : Equation α) : List α :=
  let fs := e.terms.filterMap fun t => (p.cost.find? fun c => c.1 == t.1).map fun c => c.2 / t.2
  fs.eraseDups.mergeSort fun x y => decide (x ≤ y)

/-- The objective as its own majorant. -/
def objective (p : BoxProgram α) : Majorant α :=
  ⟨p.cost.foldl (fun cs t => cs.setIfInBounds t.1 (cs.getD t.1 0 + t.2)) (Array.replicate p.size 0), 0,
    p.equations⟩

/-- The objective, and what is left of it without one variable of an equation. -/
def majorants (p : BoxProgram α) : List (Majorant α) :=
  let others := fun (k : Nat) => (p.equations.zipIdx.filter fun e => e.2 != k).map Prod.fst
  p.objective :: p.equations.zipIdx.flatMap fun (e, k) =>
    (p.factors e).map fun factor => { p.objective.without factor e with unused := others k }

end BoxProgram

/-! ## Plans -/

/-- Which variables can count at the same time. -/
inductive Plan where
  /-- One variable. -/
  | var (i : Nat)
  /-- Everything counts. -/
  | all (parts : List Plan)
  /-- At most one of the parts counts. -/
  | oneOf (parts : List Plan)

namespace Plan

mutual

/-- The greatest sum over a plan, from the greatest value of each variable. -/
def bound (value : Nat → α) : Plan → α
  | .var i => value i
  | .all parts => sumBound value parts
  | .oneOf parts => bestBound value parts

/-- The sum of the bounds of some plans. -/
def sumBound (value : Nat → α) : List Plan → α
  | [] => 0
  | p :: rest => bound value p + sumBound value rest

/-- The greatest bound of some plans, but no less than zero. -/
def bestBound (value : Nat → α) : List Plan → α
  | [] => 0
  | p :: rest =>
      let x := bound value p
      let y := bestBound value rest
      if y < x then x else y

end

/-- The plan of some variables under a list of alternatives. The variables that need an alternative are
grouped by the one they need, the others are planned beside them. -/
def ofAlternatives : List (List (List Nat)) → List Nat → Plan
  | [], vars => .all (vars.map .var)
  | groups :: rest, vars =>
      if vars.isEmpty then .all []
      else
        let others := vars.filter fun i => !groups.any fun g => g.contains i
        .all [ofAlternatives rest others,
          .oneOf (groups.map fun g => ofAlternatives rest (vars.filter g.contains))]

end Plan

namespace BoxProgram

/-- The integer variables of a row that lets at most one of them be one; none for another row. -/
def choice? (p : BoxProgram α) (r : Row α) : Option (List Nat) :=
  let isOne := fun (t : Nat × α) =>
    t.2 == 1 && p.isInteger t.1 && p.box.low t.1 == 0 && p.box.high t.1 == 1
  if r.terms.all isOne && r.high.any fun h => decide (h < 1 + 1) then some (r.terms.map Prod.fst)
  else none

/-- The choices of a program. -/
def choices (p : BoxProgram α) : List (List Nat) := p.rows.filterMap p.choice?

/-- The variables that can only be zero when a variable is held at zero, among those that cannot be less. -/
def dependents (tol : Tolerance α) (p : BoxProgram α) (fuel i : Nat) : List Nat :=
  match propagate tol p fuel (p.box.hold i 0) with
  | none => []
  | some b => (List.range p.size).filter fun j =>
      p.box.low j == 0 && decide (0 < p.box.high j) && decide (b.high j ≤ 0)

/-- For every choice, the groups of variables that need one of its variables. -/
def alternatives (tol : Tolerance α) (p : BoxProgram α) (fuel : Nat) : List (List (List Nat)) :=
  p.choices.map fun choice => choice.map (p.dependents tol fuel)

/-- The variables that a majorant may have a coefficient for. -/
def weighted (p : BoxProgram α) : List Nat :=
  (p.cost.map Prod.fst ++ (p.equations.flatMap fun e => e.terms.map Prod.fst) ++
    p.floors.map Floor.base).eraseDups

/-- The plan of a program with some alternatives. -/
def plan (p : BoxProgram α) (alternatives : List (List (List Nat))) : Plan :=
  .ofAlternatives alternatives p.weighted

end BoxProgram

/-! ## Bounds -/

/-- What guides the search of a program. -/
structure Guide (α : Type) where
  plan : Plan
  floors : List (Floor α)
  majorants : List (Majorant α)

/-- The greatest value of a majorant over a box, as far as a plan tells. -/
def Majorant.bound (m : Majorant α) (plan : Plan) (b : Box α) : α :=
  m.constant + plan.bound fun i => (b.termRange (i, m.coeff i)).2

/-- The bounds that a majorant gives over a box: by itself, and without one more equation. -/
def Guide.bounds (g : Guide α) (b : Box α) (m : Majorant α) : List α :=
  let m := m.sink g.floors b
  (m :: m.unused.filterMap m.raise?).map fun m => m.bound g.plan b

/-- The least bound of the objective over a box; none if there is no majorant. -/
def Guide.bound? (g : Guide α) (b : Box α) : Option α :=
  Scalar.least? (g.majorants.flatMap (g.bounds b))

/-- The guide of a program with some alternatives. -/
def BoxProgram.guide (p : BoxProgram α) (alternatives : List (List (List Nat))) : Guide α :=
  ⟨p.plan alternatives, p.floors, p.majorants⟩

end InfluenceDiagrams.Exact
