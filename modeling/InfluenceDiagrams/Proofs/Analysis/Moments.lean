import Mathlib.Analysis.Real.Sqrt
import InfluenceDiagrams.Analysis.Moments
import InfluenceDiagrams.Proofs.Numeric.Sums

/-!
# `InfluenceDiagrams.Proofs.Analysis.Moments` — moments in exact arithmetic

Mean and central moments are averages: of the utility, and of the powers of its distance to the mean. Averages do not
see in which order points are given nor what the masses add up to. Utilities in another unit and from another zero have
another mean, and their distances to it come in the new unit. The powers of the unit go out where a moment is divided by
a power of the spread.

The variance is an average of squares, so that there is a root to take. It is zero exactly if all utilities that have
mass are the mean, which they are if they are all the same.

## Contents
- **`Scalar ℝ`**, **`SquareRoot ℝ`** — real numbers.
- **`UtilityDistribution.average`** — the average of a function of the utility; **`average_perm`**,
  **`average_rescaled`**, **`average_mul_left`**, **`average_add_const`**.
- **`mean_eq`**, **`moment_eq`**; **`mean_rescaled`**, **`moment_rescaled`**, **`mean_perm`**, **`moment_perm`**.
- **`moment_one_nonneg`**, **`moment_one_eq_zero_iff`** — the variance.
- **`utilityMoments_eq`** — the four numbers; **`summary_perm`**, **`summary_rescaled`**, **`summary_eq_none_iff`**.
- **`utilityMoments_affine`** — the main statement.
-/

namespace InfluenceDiagrams

/-! ## Real numbers -/

/-- Real numbers compute exactly. -/
noncomputable instance : Scalar ℝ where
  decidableLT := inferInstance
  decidableLE := inferInstance
  ofInt := fun n => n
  ofQuotient := fun n d => n / d
  finite := fun _ => true
  floor? := fun x => some ⌊x⌋

noncomputable instance : SquareRoot ℝ := ⟨Real.sqrt⟩

theorem squareRoot_eq (x : ℝ) : SquareRoot.sqrt x = √x := rfl

theorem ofInt_eq (n : Int) : (Scalar.ofInt n : ℝ) = n := rfl

theorem powerSucc_eq_pow (x : ℝ) (n : Nat) : powerSucc x n = x ^ (n + 1) := by
  induction n with
  | zero => exact (pow_one x).symm
  | succ n ih => rw [powerSucc, ih, pow_succ x (n + 1)]

/-- A quotient with a divisor other than zero is finite. -/
theorem standardized_eq {moment base power : ℝ} (hpower : power ≠ 0) :
    standardized moment base power = .ok (moment / power) := by
  have hquotient : Scalar.quotient? moment power = some (moment / power) :=
    if_neg (by rwa [beq_iff_eq])
  rw [standardized, hquotient]
  rfl

namespace UtilityDistribution

/-! ## Averages -/

/-- The average of a function of the utility, by mass. -/
noncomputable def average (dist : UtilityDistribution ℝ) (f : ℝ → ℝ) : ℝ :=
  (dist.points.map fun a => a.2 / dist.p.sum * f a.1).sum

/-- Utilities `k` times as large and then raised by `c`, and masses `t` times as large. -/
def rescaled (dist : UtilityDistribution ℝ) (k c t : ℝ) : UtilityDistribution ℝ :=
  ⟨dist.points.map fun a => (k * a.1 + c, t * a.2)⟩

variable {dist other : UtilityDistribution ℝ} {k c t : ℝ}

theorem sum_p_perm (h : other.points.Perm dist.points) : other.p.sum = dist.p.sum := (h.map Prod.snd).sum_eq

theorem sum_p_rescaled : (dist.rescaled k c t).p.sum = t * dist.p.sum := by
  rw [p, rescaled, List.map_map, p, ← List.sum_map_mul_left]
  rfl

theorem average_perm (h : other.points.Perm dist.points) (f : ℝ → ℝ) : other.average f = dist.average f := by
  rw [average, average, sum_p_perm h]
  exact (h.map _).sum_eq

/-- The masses of an average may be multiplied all together. -/
theorem average_rescaled (ht : t ≠ 0) (f : ℝ → ℝ) :
    (dist.rescaled k c t).average f = dist.average fun u => f (k * u + c) := by
  rw [average, average, sum_p_rescaled, rescaled, List.map_map]
  congr 1
  refine List.map_congr_left fun a _ => ?_
  rw [Function.comp_apply, mul_div_mul_left _ _ ht]

theorem average_mul_left (f : ℝ → ℝ) : (dist.average fun u => k * f u) = k * dist.average f := by
  rw [average, average, ← List.sum_map_mul_left]
  congr 1
  exact List.map_congr_left fun a _ => mul_left_comm _ _ _

theorem average_const (hsum : dist.p.sum ≠ 0) : (dist.average fun _ => c) = c := by
  simp only [average, div_mul_eq_mul_div, mul_div_assoc]
  rw [List.sum_map_mul_right]
  exact mul_div_cancel₀ c hsum

theorem average_add_const (hsum : dist.p.sum ≠ 0) (f : ℝ → ℝ) :
    (dist.average fun u => f u + c) = dist.average f + c := by
  conv_rhs => rw [← average_const (c := c) hsum]
  simp only [average, mul_add]
  exact List.sum_map_add

/-! ## Mean and moments -/

theorem weights_eq (dist : UtilityDistribution ℝ) : dist.weights = dist.points.map fun a => a.2 / dist.p.sum := by
  rw [weights, pairwiseSum_eq_sum, p, List.map_map]
  rfl

theorem mean_eq (dist : UtilityDistribution ℝ) : dist.mean = dist.average fun u => u := by
  rw [mean, pairwiseSum_eq_sum, weights_eq, u, List.zipWith_map, List.zipWith_self]
  rfl

theorem moment_eq (dist : UtilityDistribution ℝ) (n : Nat) :
    dist.moment n = dist.average fun u => (u - dist.mean) ^ (n + 1) := by
  rw [moment]
  simp only [powerSucc_eq_pow]
  rw [pairwiseSum_eq_sum, weights_eq, u, List.zipWith_map, List.zipWith_self]
  rfl

theorem mean_perm (h : other.points.Perm dist.points) : other.mean = dist.mean := by
  rw [mean_eq, mean_eq, average_perm h]

theorem moment_perm (h : other.points.Perm dist.points) (n : Nat) : other.moment n = dist.moment n := by
  rw [moment_eq, moment_eq, mean_perm h, average_perm h]

theorem mean_rescaled (hsum : dist.p.sum ≠ 0) (ht : t ≠ 0) : (dist.rescaled k c t).mean = k * dist.mean + c := by
  rw [mean_eq, mean_eq, average_rescaled ht, average_add_const hsum, average_mul_left]

/-- A central moment comes with a power of the unit. -/
theorem moment_rescaled (hsum : dist.p.sum ≠ 0) (ht : t ≠ 0) (n : Nat) :
    (dist.rescaled k c t).moment n = k ^ (n + 1) * dist.moment n := by
  rw [moment_eq, moment_eq, mean_rescaled hsum ht, average_rescaled ht, ← average_mul_left]
  congr 1
  funext u
  rw [add_sub_add_right_eq_sub, ← mul_sub, mul_pow]

/-! ## The variance -/

/-- All utilities that have mass are the same. -/
def Degenerate (dist : UtilityDistribution ℝ) : Prop :=
  ∀ a ∈ dist.points, ∀ b ∈ dist.points, 0 < a.2 → 0 < b.2 → a.1 = b.1

section Variance

variable (hmass : ∀ a ∈ dist.points, 0 ≤ a.2) (hsum : 0 < dist.p.sum)

include hmass hsum

theorem sq_term_nonneg : ∀ a ∈ dist.points, 0 ≤ a.2 / dist.p.sum * (a.1 - dist.mean) ^ (1 + 1) :=
  fun a ha => mul_nonneg (div_nonneg (hmass a ha) (le_of_lt hsum)) (sq_nonneg _)

theorem moment_one_nonneg : 0 ≤ dist.moment 1 := by
  rw [moment_eq]
  exact List.sum_nonneg (List.forall_mem_map.2 (sq_term_nonneg hmass hsum))

/-- If all utilities that have mass are the same, they are the mean. -/
theorem Degenerate.eq_mean (h : dist.Degenerate) {a : ℝ × ℝ} (ha : a ∈ dist.points) (hpos : 0 < a.2) :
    a.1 = dist.mean := by
  have hshare : ∀ b ∈ dist.points, b.2 / dist.p.sum * a.1 = b.2 / dist.p.sum * b.1 := by
    intro b hb
    rcases (hmass b hb).eq_or_lt with hzero | hmore
    · rw [← hzero, zero_div, zero_mul, zero_mul]
    · rw [h a ha b hb hpos hmore]
  calc
    a.1 = dist.average fun _ => a.1 := (average_const (ne_of_gt hsum)).symm
    _ = dist.average fun u => u := congrArg List.sum (List.map_congr_left hshare)
    _ = dist.mean := (mean_eq dist).symm

theorem moment_one_eq_zero_iff : dist.moment 1 = 0 ↔ dist.Degenerate := by
  have hterms := List.forall_mem_map.2 (sq_term_nonneg hmass hsum)
  rw [moment_eq]
  constructor
  · intro hzero
    have hmean : ∀ a ∈ dist.points, 0 < a.2 → a.1 = dist.mean := by
      intro a ha hpos
      have hterm := List.all_zero_of_le_zero_le_of_sum_eq_zero hterms hzero (List.mem_map_of_mem ha)
      rcases mul_eq_zero.1 hterm with hshare | hsquare
      · exact absurd hshare (ne_of_gt (div_pos hpos hsum))
      · exact sub_eq_zero.1 (pow_eq_zero_iff two_ne_zero |>.1 hsquare)
    exact fun a ha b hb hpa hpb => (hmean a ha hpa).trans (hmean b hb hpb).symm
  · intro h
    refine List.sum_eq_zero (List.forall_mem_map.2 fun a ha => ?_)
    rcases (hmass a ha).eq_or_lt with hzero | hpos
    · rw [← hzero, zero_div, zero_mul]
    · have hdistance : a.1 - dist.mean = 0 := sub_eq_zero.2 (h.eq_mean hmass hsum ha hpos)
      show a.2 / dist.p.sum * (a.1 - dist.mean) ^ (1 + 1) = 0
      rw [hdistance, zero_pow two_ne_zero, mul_zero]

end Variance
end UtilityDistribution

/-! ## The four numbers -/

namespace UtilityDistribution

variable {dist other : UtilityDistribution ℝ} {k c t : ℝ}

/-- The four numbers of a distribution whose variance has a root. -/
noncomputable def summary (dist : UtilityDistribution ℝ) : Moments ℝ :=
  if dist.moment 1 = 0 then ⟨dist.mean, 0, none, none⟩
  else ⟨dist.mean, √(dist.moment 1), some (dist.moment 2 / √(dist.moment 1) ^ 3),
    some (dist.moment 3 / dist.moment 1 ^ 2 - 3)⟩

theorem utilityMoments_eq (h : 0 ≤ dist.moment 1) : utilityMoments dist = .ok dist.summary := by
  rw [utilityMoments, if_neg (not_lt.2 h), summary]
  by_cases hzero : dist.moment 1 = 0
  · rw [if_pos (beq_iff_eq.2 hzero), if_pos hzero]
  · have hroot : √(dist.moment 1) ≠ 0 := (Real.sqrt_ne_zero h).2 hzero
    have hskewness : standardized (dist.moment 2) (√(dist.moment 1)) (powerSucc (√(dist.moment 1)) 2) =
        .ok (dist.moment 2 / √(dist.moment 1) ^ 3) := by
      rw [powerSucc_eq_pow, standardized_eq (pow_ne_zero 3 hroot)]
    have hkurtosis : standardized (dist.moment 3) (dist.moment 1) (powerSucc (dist.moment 1) 1) =
        .ok (dist.moment 3 / dist.moment 1 ^ 2) := by
      rw [powerSucc_eq_pow, standardized_eq (pow_ne_zero 2 hzero)]
    rw [if_neg (by rwa [beq_iff_eq]), if_neg hzero, squareRoot_eq, hskewness, hkurtosis, ofInt_eq, Int.cast_ofNat]
    rfl

theorem summary_perm (h : other.points.Perm dist.points) : other.summary = dist.summary := by
  simp only [summary, mean_perm h, moment_perm h]

/-- Mean and spread come in the new unit, and the two quotients have none. -/
theorem summary_rescaled (hsum : dist.p.sum ≠ 0) (hk : 0 < k) (ht : t ≠ 0) :
    (dist.rescaled k c t).summary =
      ⟨k * dist.summary.mean + c, k * dist.summary.std, dist.summary.skewness, dist.summary.kurtosis⟩ := by
  have hunit : ∀ n, k ^ n ≠ 0 := fun n => pow_ne_zero n (ne_of_gt hk)
  simp only [summary, mean_rescaled hsum ht, moment_rescaled hsum ht]
  by_cases hzero : dist.moment 1 = 0
  · rw [if_pos (by rw [hzero, mul_zero]), if_pos hzero, mul_zero]
  · have hroot : √(k ^ (1 + 1) * dist.moment 1) = k * √(dist.moment 1) := by
      rw [Real.sqrt_mul (sq_nonneg k), Real.sqrt_sq (le_of_lt hk)]
    have hskewness : k ^ (2 + 1) * dist.moment 2 / (k * √(dist.moment 1)) ^ 3 =
        dist.moment 2 / √(dist.moment 1) ^ 3 := by
      rw [mul_pow, mul_div_mul_left _ _ (hunit 3)]
    have hkurtosis : k ^ (3 + 1) * dist.moment 3 / (k ^ (1 + 1) * dist.moment 1) ^ 2 =
        dist.moment 3 / dist.moment 1 ^ 2 := by
      rw [mul_pow, ← pow_mul, mul_div_mul_left _ _ (hunit 4)]
    rw [if_neg (mul_ne_zero (hunit 2) hzero), if_neg hzero, hroot, hskewness, hkurtosis]

/-- What has no spread has neither skewness nor kurtosis. -/
theorem summary_eq_none_iff : (dist.summary.skewness = none ↔ dist.moment 1 = 0) ∧
    (dist.summary.kurtosis = none ↔ dist.moment 1 = 0) := by
  rw [summary]
  split <;> simp [*]

end UtilityDistribution

/-- The moments in another unit, from another zero, with masses multiplied all together, and in another order: the
mean and the standard deviation come in the new unit, the mean from the new zero; skewness and kurtosis stay. There is
always a root to take, and skewness and kurtosis are missing exactly if all utilities that have mass are the same. -/
theorem utilityMoments_affine {dist other : UtilityDistribution ℝ} (hmass : ∀ a ∈ dist.points, 0 ≤ a.2)
    (hsum : 0 < dist.p.sum) {k t : ℝ} (hk : 0 < k) (ht : 0 < t) (c : ℝ)
    (hperm : other.points.Perm (dist.rescaled k c t).points) :
    0 ≤ dist.moment 1 ∧ ∃ m, utilityMoments dist = .ok m ∧
      utilityMoments other = .ok ⟨k * m.mean + c, k * m.std, m.skewness, m.kurtosis⟩ ∧
      (m.skewness = none ↔ dist.Degenerate) ∧ (m.kurtosis = none ↔ dist.Degenerate) := by
  have hvariance := UtilityDistribution.moment_one_nonneg hmass hsum
  have hspread := UtilityDistribution.moment_one_eq_zero_iff hmass hsum
  have hother : 0 ≤ other.moment 1 := by
    rw [UtilityDistribution.moment_perm hperm, UtilityDistribution.moment_rescaled (ne_of_gt hsum) (ne_of_gt ht)]
    exact mul_nonneg (sq_nonneg k) hvariance
  refine ⟨hvariance, dist.summary, UtilityDistribution.utilityMoments_eq hvariance, ?_,
    UtilityDistribution.summary_eq_none_iff.1.trans hspread, UtilityDistribution.summary_eq_none_iff.2.trans hspread⟩
  rw [UtilityDistribution.utilityMoments_eq hother, UtilityDistribution.summary_perm hperm,
    UtilityDistribution.summary_rescaled (ne_of_gt hsum) hk (ne_of_gt ht)]

/-- Three quarters of the mass at 8, the rest at 0. -/
def skewed : UtilityDistribution ℝ := ⟨[(0, 1), (8, 3)]⟩

theorem utilityMoments_affine_skewed : 0 ≤ skewed.moment 1 ∧ ∃ m, utilityMoments skewed = .ok m ∧
    utilityMoments (α := ℝ) ⟨[(-1, 6), (-5, 2)]⟩ = .ok ⟨1 / 2 * m.mean + -5, 1 / 2 * m.std, m.skewness, m.kurtosis⟩ ∧
    (m.skewness = none ↔ skewed.Degenerate) ∧ (m.kurtosis = none ↔ skewed.Degenerate) := by
  have hpoints : (skewed.rescaled (1 / 2) (-5) 2).points = [((-5 : ℝ), 2), (-1, 6)] := by
    norm_num [skewed, UtilityDistribution.rescaled]
  refine utilityMoments_affine ?_ ?_ (by norm_num) (by norm_num : (0 : ℝ) < 2) (-5) ?_
  · simp [skewed]
  · norm_num [skewed, UtilityDistribution.p]
  · rw [hpoints]
    exact List.Perm.swap _ _ _

end InfluenceDiagrams
