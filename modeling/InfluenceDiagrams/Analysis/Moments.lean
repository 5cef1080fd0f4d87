import InfluenceDiagrams.Analysis.Distribution
import InfluenceDiagrams.Numeric.PairwiseSum

/-!
# `InfluenceDiagrams.Analysis.Moments` — mean, deviation, skewness and kurtosis

The moments of a distribution are weighted by the masses divided by their total. The standard deviation
is that of the distribution itself, not of a sample, and the kurtosis is what exceeds that of the
normal distribution.

## Contents
- **`Moments`** — the four numbers; a distribution without spread has no skewness and no kurtosis.
- **`UtilityDistribution.weights`, `UtilityDistribution.mean`, `UtilityDistribution.moment`** — the sums.
- **`utilityMoments`** — the moments of a distribution.
-/

namespace InfluenceDiagrams

variable {α : Type}

/-- Mean, standard deviation, skewness and excess kurtosis. -/
structure Moments (α : Type) where
  mean : α
  std : α
  skewness : Option α
  kurtosis : Option α
  deriving Repr

/-- The product of `n + 1` equal factors, multiplied from the left. -/
def powerSucc [Mul α] (x : α) : Nat → α
  | 0 => x
  | n + 1 => powerSucc x n * x

variable [Scalar α]

namespace UtilityDistribution

/-- The masses divided by their total. -/
def weights (dist : UtilityDistribution α) : List α :=
  let total := pairwiseSum dist.p
  dist.p.map (· / total)

/-- The weighted mean of the utilities. -/
def mean (dist : UtilityDistribution α) : α := pairwiseSum (List.zipWith (· * ·) dist.weights dist.u)

/-- The weighted mean of the power `n + 1` of the distance to the mean. -/
def moment (dist : UtilityDistribution α) (n : Nat) : α :=
  let mean := dist.mean
  pairwiseSum (List.zipWith (fun w u => w * powerSucc (u - mean) n) dist.weights dist.u)

end UtilityDistribution

/-- The quotient of a moment by a power of the spread. A power of a finite number has to stay finite,
and the quotient needs a divisor other than zero. -/
def standardized (moment base power : α) : Except (Fault α) α :=
  if Scalar.finite base && !Scalar.finite power then .error .overflow
  else orFault .zeroDivisor (Scalar.quotient? moment power)

/-- The moments of a distribution. -/
def utilityMoments [SquareRoot α] (dist : UtilityDistribution α) : Except (Fault α) (Moments α) := do
  let variance := dist.moment 1
  if variance < 0 then .error .negativeRoot
  else
    let std := SquareRoot.sqrt variance
    if variance == 0 then .ok ⟨dist.mean, 0, none, none⟩
    else
      let skewness ← standardized (dist.moment 2) std (powerSucc std 2)
      let kurtosis ← standardized (dist.moment 3) variance (powerSucc variance 1)
      .ok ⟨dist.mean, std, some skewness, some (kurtosis - Scalar.ofInt 3)⟩

end InfluenceDiagrams
