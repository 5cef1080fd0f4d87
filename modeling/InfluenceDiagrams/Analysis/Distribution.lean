import InfluenceDiagrams.Numeric.Ascending
import InfluenceDiagrams.Strategy.Compatible

/-!
# `InfluenceDiagrams.Analysis.Distribution` — what a strategy yields

The compatible paths of a strategy, with their probabilities and utilities, give the expected utility
and the distribution of the utility.

## Contents
- **`overPaths`** — going through the paths of a strategy.
- **`expectedUtility`** — the sum of probability times utility.
- **`UtilityDistribution`** — utilities with their probability masses.
- **`utilityDistribution`** — the distribution under a strategy: equal utilities merged, ascending.
-/

namespace InfluenceDiagrams

variable {α : Type}

/-- Go through the compatible paths of a strategy in order. -/
def overPaths [Lengths] {σ : Type} (dia : Diagram α) (Z : Strategy)
    (step : σ → Path → Except (Fault α) σ) (init : σ) : Except (Fault α) σ := do
  let cp ← CompatiblePaths.ofDiagram dia Z .empty
  cp.foldPaths step init

/-- Utilities with their probability masses, in any order. -/
structure UtilityDistribution (α : Type) where
  points : List (α × α)
  deriving Repr

namespace UtilityDistribution

/-- The utilities. -/
def u (dist : UtilityDistribution α) : List α := dist.points.map Prod.fst

/-- The masses. -/
def p (dist : UtilityDistribution α) : List α := dist.points.map Prod.snd

end UtilityDistribution

variable [Scalar α] [Lengths]

/-! ## Expected utility -/

/-- Probability times utility of a path. -/
def weightedUtility (dia : Diagram α) (s : Path) : Except (Fault α) α := do
  let p ← dia.P.eval s
  let u ← dia.U.eval s
  .ok (p * u)

/-- The expected utility under a strategy: the weighted utilities of its paths, summed in order. -/
def expectedUtility (dia : Diagram α) (Z : Strategy) : Except (Fault α) α :=
  overPaths dia Z (fun total s => (weightedUtility dia s).map (total + ·)) 0

/-! ## Distribution of the utility -/

/-- Add the mass of a path to that of its utility. A path of probability zero is dropped before its
utility is looked at. -/
def addMass (dia : Diagram α) (mass : List (α × α)) (s : Path) :
    Except (Fault α) (List (α × α)) := do
  let p ← dia.P.eval s
  if p == 0 then .ok mass
  else
    let u ← dia.U.eval s
    .ok (Keyed.upsert u (0 + p) (· + p) mass)

/-- The distribution of the utility under a strategy, in ascending order of the utility. -/
def utilityDistribution (dia : Diagram α) (Z : Strategy) :
    Except (Fault α) (UtilityDistribution α) := do
  let mass ← overPaths dia Z (addMass dia) []
  .ok ⟨ascending (fun a b => decide (a.1 < b.1)) (fun a => a.1 == a.1) mass⟩

end InfluenceDiagrams
