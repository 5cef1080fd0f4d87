import InfluenceDiagrams.Model.PathVariables
import InfluenceDiagrams.Numeric.Ascending

/-!
# `InfluenceDiagrams.Model.Objective` — what a decision model optimises

The expected utility is linear in the path variables. The mean utility of the worst part of the
probability mass becomes linear with auxiliary variables: a quantile, and for every path two
indicators, whether its utility lies below or at most at the quantile, and two shares of its
probability, counted below the quantile and counted towards the tail.

## Contents
- **`expectedValue`** — the expected utility as an expression.
- **`TailLevels`** — least and greatest utility, their distance, half the least gap.
- **`TailLevels.constraints`** — the nine constraints of one path.
- **`tailValue`** — adds a tail objective to the model and returns its expression.
-/

namespace InfluenceDiagrams

variable {α : Type} [Scalar α]

/-! ## Expected utility -/

/-- The utilities of the paths of some members, in order. -/
def utilities (dia : Diagram α) (members : List (PathVariable α)) : Except (Fault α) (List α) :=
  members.mapM fun m => dia.U.eval m.path

/-- The coefficient of a path: probability times utility times scale. -/
def valueTerm (dia : Diagram α) (scale : α) (m : PathVariable α) :
    Except (Fault α) (LinearExpr α) := do
  let u ← dia.U.eval m.path
  LinearExpr.multiple (m.prob * u * scale) m.var

/-- The scaled expected utility of the strategy that the path variables encode. -/
def expectedValue (dia : Diagram α) (x : PathVariables α) (scale : α) :
    Except (Fault α) (LinearExpr α) := do
  ModelOptions.checkScale scale
  (x.members.mapM (valueTerm dia scale)).map LinearExpr.sum

/-! ## Tail objective -/

/-- What the utilities of all paths say about a tail objective: the least and the greatest one, their
distance `span`, and half the least distance between two different ones, zero if there is only one. -/
structure TailLevels (α : Type) where
  least : α
  greatest : α
  span : α
  halfGap : α

/-- The distances between neighbours. -/
def neighbourGaps : List α → List α
  | a :: b :: rest => (b - a) :: neighbourGaps (b :: rest)
  | _ => []

/-- The levels of some utilities; none of nothing. -/
def TailLevels.ofUtilities? (us : List α) : Option (TailLevels α) :=
  let sorted := ascending (fun a b => decide (a < b)) (fun a => a == a) us.eraseDups
  sorted.head?.bind fun least => sorted.getLast?.map fun greatest =>
    let halfGap := match Scalar.least? (neighbourGaps sorted) with
      | some gap => gap / Scalar.ofInt 2
      | none => 0
    ⟨least, greatest, greatest - least, halfGap⟩

/-- The auxiliary variables of one path. -/
def tailRow (k : Nat) (scale : α) (s : Path) : TailRow α :=
  let tag := toString k ++ "_" ++ pathToken s
  ⟨s, .binary ("lambda_" ++ tag) 0, .binary ("lambda_bar_" ++ tag) 0,
    .real ("rho_" ++ tag) 0 0 scale, .real ("rho_bar_" ++ tag) 0 0 scale⟩

namespace TailLevels

/-- `factor · v - number`. -/
def affine (factor : α) (v : Variable α) (number : α) : Except (Fault α) (LinearExpr α) := do
  (← LinearExpr.multiple factor v).subNumber number

/-- The nine constraints of a path with utility `u`, probability `p` and variable `x`, in order. With
quantile `η`, span `M`, half gap `ε`, scale `k`, indicators `λ`, `λ'` and masses `ρ`, `ρ'`:
`η - u ≤ M λ`, `η - u ≥ (M + ε) λ - M`, `η - u ≤ (M + ε) λ' - ε`, `η - u ≥ M (λ' - 1)`, `ρ ≤ k λ`,
`ρ' ≤ k λ'`, `ρ ≤ ρ'`, `ρ' ≤ k p x` and `k p x - k (1 - λ) ≤ ρ`. -/
def constraints (l : TailLevels α) (quantile : Variable α) (row : TailRow α) (u p scale : α)
    (x : Variable α) : List (Except (Fault α) (Constraint α)) :=
  let distance : Except (Fault α) (LinearExpr α) := (LinearExpr.ofVar quantile).subNumber u
  let reach := l.span + l.halfGap
  [ do return .atMost (← distance) (← LinearExpr.multiple l.span row.below),
    do return .atLeast (← distance) (← affine reach row.below l.span),
    do return .atMost (← distance) (← affine reach row.atMost l.halfGap),
    do return .atLeast (← distance)
        (← LinearExpr.scale l.span (← (LinearExpr.ofVar row.atMost).subNumber 1)),
    do return .atMost (.ofVar row.strictMass) (← LinearExpr.multiple scale row.below),
    do return .atMost (.ofVar row.mass) (← LinearExpr.multiple scale row.atMost),
    do return .atMost (.ofVar row.strictMass) (.ofVar row.mass),
    do return .atMost (.ofVar row.mass) (← LinearExpr.multiple (p * scale) x),
    do
      let taken ← LinearExpr.multiple (p * scale) x
      let one ← LinearExpr.ofNumber 1
      let slack ← LinearExpr.scale scale (one.sub (.ofVar row.below))
      return .atMost (taken.sub slack) (.ofVar row.strictMass) ]

end TailLevels

/-- Add constraints without names, each built just before it is added. -/
def addEach : List (Except (Fault α) (Constraint α)) → Build α Unit
  | [] => return ()
  | c :: rest => do
      Build.addConstraint none (← Build.lift c)
      addEach rest

/-- Add the variables and constraints of the paths, with their utilities. -/
def addTailRows (l : TailLevels α) (quantile : Variable α) (k : Nat) (scale : α) :
    List (PathVariable α × α) → Build α (List (TailRow α))
  | [] => return []
  | (m, u) :: rest => do
      let row := tailRow k scale m.path
      addEach (l.constraints quantile row u m.prob scale m.var)
      let rows ← addTailRows l quantile k scale rest
      return row :: rows

/-- The term of one path: its share of the tail times its utility, over the mass of the tail. -/
def tailTerm (mass : α) (row : TailRow α) (u : α) : Except (Fault α) (LinearExpr α) := do
  let c ← orFault .zeroDivisor (Scalar.quotient? u mass)
  LinearExpr.multiple c row.mass

/-- The mean utility of the tail. -/
def tailExpression (rows : List (TailRow α)) (us : List α) (mass : α) :
    Except (Fault α) (LinearExpr α) :=
  ((rows.zip us).mapM fun r => tailTerm mass r.1 r.2).map LinearExpr.sum

/-- Whether a level lies above zero and at most at one. -/
def positiveLevel (alpha : α) : Bool := decide (0 < alpha) && decide (alpha ≤ 1)

/-- Add the tail objective at a risk level to the model: its expression is the mean utility of the worst
`alpha` of the probability. -/
def tailValue (dia : Diagram α) (x : PathVariables α) (alpha scale : α) :
    Build α (LinearExpr α) := do
  Build.lift (ModelOptions.checkScale scale)
  Build.require (positiveLevel alpha) (.riskLevel alpha .positive)
  Build.require (!x.members.isEmpty) .noPathVariables
  let us ← Build.lift (utilities dia x.members)
  let l ← Build.lift (orFault .emptyExtremum (TailLevels.ofUtilities? us))
  let k ← Build.freshIndex
  let quantile := Variable.real ("eta_" ++ toString k) 0 l.least l.greatest
  let rows ← addTailRows l quantile k scale (x.members.zip us)
  Build.addConstraint (some ("cvar_mass_" ++ toString k))
    (.equals (.sumVars (rows.map TailRow.mass)) (alpha * scale))
  Build.modifyModel fun m => { m with tails := m.tails ++ [⟨alpha, quantile, rows⟩] }
  Build.lift (tailExpression rows us (alpha * scale))

end InfluenceDiagrams
