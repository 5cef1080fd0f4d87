import InfluenceDiagrams.Analysis.Distribution
import InfluenceDiagrams.Numeric.PairwiseSum

/-!
# `InfluenceDiagrams.Analysis.Risk` — value at risk and its conditional mean

The value at risk at a level is the least utility at which the mass of the utilities so far reaches the
level. The conditional value at risk is the mean utility in the worst part of that mass, where the
mass at the value at risk itself counts only as far as it is needed.

## Contents
- **`UtilityDistribution.byUtility`** — the points in ascending order of the utility.
- **`valueAtRisk`** — the quantile.
- **`conditionalValueAtRisk`** — the mean of the tail.
-/

namespace InfluenceDiagrams

variable {α : Type} [Scalar α]

/-- Whether a utility may stand before another one. A NaN stands behind all numbers. -/
def precedes (a b : α) : Bool := b != b || decide (a ≤ b)

/-- The points in ascending order of the utility, equal utilities in the given order. -/
def UtilityDistribution.byUtility (dist : UtilityDistribution α) : List (α × α) :=
  dist.points.mergeSort fun a b => precedes a.1 b.1

/-- Whether a level lies between zero and one. -/
def admissibleLevel (alpha : α) : Bool := decide (0 ≤ alpha) && decide (alpha ≤ 1)

/-- The first utility whose running mass reaches a level, the last one if none does; none of nothing. -/
def quantile? (alpha : α) (points : List (α × α)) : Option α :=
  let masses := Scalar.runningSums 0 (points.map Prod.snd)
  match (points.zip masses).find? fun x => decide (alpha ≤ x.2) with
  | some x => some x.1.1
  | none => points.getLast?.map Prod.fst

/-- The least utility whose cumulative mass reaches the level; the greatest utility when the mass never
does. -/
def valueAtRisk (dist : UtilityDistribution α) (alpha : α) : Except (Fault α) α :=
  if admissibleLevel alpha then orFault .outOfRange (quantile? alpha dist.byUtility)
  else .error (.riskLevel alpha .closed)

/-- The mean utility of the worst `alpha` of the mass. At level zero it is the value at risk. -/
def conditionalValueAtRisk (dist : UtilityDistribution α) (alpha : α) : Except (Fault α) α := do
  let x ← valueAtRisk dist alpha
  if alpha == 0 then .ok x
  else
    let tailValue := pairwiseSum (dist.points.map fun a => if a.1 ≤ x then a.1 * a.2 else 0)
    let tailMass := pairwiseSum (dist.points.map fun a => if a.1 ≤ x then a.2 else 0)
    .ok ((tailValue - (tailMass - alpha) * x) / alpha)

end InfluenceDiagrams
