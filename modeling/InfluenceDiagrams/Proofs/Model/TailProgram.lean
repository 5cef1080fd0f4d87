import InfluenceDiagrams.Proofs.Analysis.Tail
import InfluenceDiagrams.Proofs.Model.TailLevels

/-!
# `InfluenceDiagrams.Proofs.Model.TailProgram` — the linear program of the worst part

The indicators of a path say whether its utility lies below the quantile, and whether it is at most the
quantile. With them the masses are forced: everything below the quantile counts towards the tail and
nothing above it does, so that the masses are a worst part of the taken mass. Conversely every quantile
that is one of the utilities can be completed to a solution, also where the mass below it and that up to it
do not hit the level, and where all utilities are equal.

## Contents
- **`TailRowSolution`** — the constraints of one path; `below_eq_one_iff`, `atMost_eq_one_iff`, `masses_eq_of_lt`,
  `mass_eq_of_gt` invert them.
- **`TailRowSolution.of_lt`, `of_eq`, `of_gt`** — solutions for a path below, at and above the quantile.
- **`TailSolution`** — the constraints of all paths; **`TailSolution.shares`**.
- **`exists_tailSolution`** — the solution at a quantile.
-/

namespace InfluenceDiagrams

/-! ## One path -/

/-- The values for a path with a utility and a taken mass: two indicators, the mass counted below the
quantile and the mass counted towards the tail. -/
structure TailRowSolution (l : TailLevels Rat) (scale quantile u taken below atMost strictMass mass : Rat) :
    Prop where
  below_binary : below = 0 ∨ below = 1
  atMost_binary : atMost = 0 ∨ atMost = 1
  strictMass_nonneg : 0 ≤ strictMass
  strictMass_le_scale : strictMass ≤ scale
  mass_nonneg : 0 ≤ mass
  mass_le_scale : mass ≤ scale
  distance_le_below : quantile - u ≤ l.span * below
  below_le_distance : (l.span + l.halfGap) * below - l.span ≤ quantile - u
  distance_le_atMost : quantile - u ≤ (l.span + l.halfGap) * atMost - l.halfGap
  atMost_le_distance : l.span * (atMost - 1) ≤ quantile - u
  strictMass_le_below : strictMass ≤ scale * below
  mass_le_atMost : mass ≤ scale * atMost
  strictMass_le_mass : strictMass ≤ mass
  mass_le_taken : mass ≤ scale * taken
  taken_le_strictMass : scale * taken - scale * (1 - below) ≤ strictMass

namespace TailRowSolution

variable {l : TailLevels Rat} {scale quantile u taken below atMost strictMass mass : Rat}

/-- Below the quantile the first indicator is set: a zero would put the quantile at or below the utility. -/
theorem below_eq_one_of_lt (h : TailRowSolution l scale quantile u taken below atMost strictMass mass)
    (hlt : u < quantile) : below = 1 := by
  refine h.below_binary.resolve_left fun hzero => ?_
  have hdistance := h.distance_le_below
  rw [hzero, mul_zero] at hdistance
  linarith

/-- Above the quantile the second indicator is not set: a one would put the utility at or below the quantile. -/
theorem atMost_eq_zero_of_gt (h : TailRowSolution l scale quantile u taken below atMost strictMass mass)
    (hgt : quantile < u) : atMost = 0 := by
  refine h.atMost_binary.resolve_right fun hone => ?_
  have hdistance := h.atMost_le_distance
  rw [hone, sub_self, mul_zero] at hdistance
  linarith

/-- If there is a gap, the first indicator says whether the utility is below the quantile. -/
theorem below_eq_one_iff (h : TailRowSolution l scale quantile u taken below atMost strictMass mass)
    (hgap : 0 < l.halfGap) : below = 1 ↔ u < quantile := by
  refine ⟨fun hone => ?_, h.below_eq_one_of_lt⟩
  have hdistance := h.below_le_distance
  rw [hone, mul_one] at hdistance
  linarith

/-- If there is a gap, the second indicator says whether the utility is at most the quantile. -/
theorem atMost_eq_one_iff (h : TailRowSolution l scale quantile u taken below atMost strictMass mass)
    (hgap : 0 < l.halfGap) : atMost = 1 ↔ u ≤ quantile := by
  constructor
  · intro hone
    refine le_of_not_gt fun hgt => ?_
    rw [h.atMost_eq_zero_of_gt hgt] at hone
    exact zero_ne_one hone
  · intro hle
    refine h.atMost_binary.resolve_left fun hzero => ?_
    have hdistance := h.distance_le_atMost
    rw [hzero, mul_zero] at hdistance
    linarith

/-- Below the quantile all that is taken counts, both times. -/
theorem masses_eq_of_lt (h : TailRowSolution l scale quantile u taken below atMost strictMass mass)
    (hlt : u < quantile) : strictMass = scale * taken ∧ mass = scale * taken := by
  have htaken := h.taken_le_strictMass
  rw [h.below_eq_one_of_lt hlt, sub_self, mul_zero, sub_zero] at htaken
  exact ⟨le_antisymm (h.strictMass_le_mass.trans h.mass_le_taken) htaken,
    le_antisymm h.mass_le_taken (htaken.trans h.strictMass_le_mass)⟩

/-- Above the quantile nothing counts. -/
theorem mass_eq_of_gt (h : TailRowSolution l scale quantile u taken below atMost strictMass mass)
    (hgt : quantile < u) : mass = 0 := by
  have hmass := h.mass_le_atMost
  rw [h.atMost_eq_zero_of_gt hgt, mul_zero] at hmass
  exact le_antisymm hmass h.mass_nonneg

section Solutions

variable (hscale : 0 < scale) (hspan : l.span = l.greatest - l.least) (hlow : l.least ≤ u)
  (hhigh : u ≤ l.greatest) (hquantileLow : l.least ≤ quantile) (hquantileHigh : quantile ≤ l.greatest)
  (htaken : 0 ≤ taken) (htaken_le : taken ≤ 1)

include hscale htaken_le in
theorem scale_taken_le : scale * taken ≤ scale :=
  mul_le_of_le_one_right (le_of_lt hscale) htaken_le

include hscale hspan hlow hquantileHigh htaken htaken_le in
/-- Below the quantile both indicators are one, and all that is taken counts both times. -/
theorem of_lt (hgap : l.halfGap ≤ quantile - u) (hlt : u < quantile) :
    TailRowSolution l scale quantile u taken 1 1 (scale * taken) (scale * taken) := by
  have hmass := mul_nonneg (le_of_lt hscale) htaken
  have hbound := scale_taken_le hscale htaken_le
  constructor <;> first | exact Or.inr rfl | linarith

include hscale hspan hlow hhigh htaken_le in
/-- At the quantile any part of what is taken may count. -/
theorem of_eq (hu : u = quantile) (hmass : 0 ≤ mass) (hmass_le : mass ≤ scale * taken) :
    TailRowSolution l scale quantile u taken 0 1 0 mass := by
  have hbound := scale_taken_le hscale htaken_le
  constructor <;> first | exact Or.inl rfl | exact Or.inr rfl | linarith

include hscale hspan hhigh hquantileLow htaken htaken_le in
/-- Above the quantile both indicators are zero, and nothing counts. -/
theorem of_gt (hgap : l.halfGap ≤ u - quantile) (hgt : quantile < u) :
    TailRowSolution l scale quantile u taken 0 0 0 0 := by
  have hmass := mul_nonneg (le_of_lt hscale) htaken
  have hbound := scale_taken_le hscale htaken_le
  constructor <;> first | exact Or.inl rfl | linarith

end Solutions

end TailRowSolution

/-! ## All paths -/

/-- Values of the variables of a tail objective. -/
structure TailValues where
  quantile : Rat
  below : Path → Rat
  atMost : Path → Rat
  strictMass : Path → Rat
  mass : Path → Rat

/-- The values satisfy the constraints of the paths and give the tail the mass that it should have. -/
structure TailSolution (l : TailLevels Rat) (ss : List Path) (u taken : Path → Rat) (level scale : Rat)
    (t : TailValues) : Prop where
  least_le : l.least ≤ t.quantile
  le_greatest : t.quantile ≤ l.greatest
  rows : ∀ s ∈ ss,
    TailRowSolution l scale t.quantile (u s) (taken s) (t.below s) (t.atMost s) (t.strictMass s) (t.mass s)
  total : (ss.map t.mass).sum = level * scale

variable {l : TailLevels Rat} {ss : List Path} {u taken : Path → Rat} {level scale v : Rat}

/-- The masses counted towards the tail are a worst part of the taken mass. -/
theorem TailSolution.shares {t : TailValues} (h : TailSolution l ss u taken level scale t) (hscale : 0 < scale) :
    TailShares ss u taken level t.quantile fun s => t.mass s / scale := by
  have hne : scale ≠ 0 := ne_of_gt hscale
  constructor
  · intro s hs
    exact div_nonneg (h.rows s hs).mass_nonneg (le_of_lt hscale)
  · intro s hs
    rw [div_le_iff₀' hscale]
    exact (h.rows s hs).mass_le_taken
  · intro s hs hlt
    rw [((h.rows s hs).masses_eq_of_lt hlt).2, mul_div_cancel_left₀ _ hne]
  · intro s hs hgt
    rw [(h.rows s hs).mass_eq_of_gt hgt, zero_div]
  · have hsum : (ss.map fun s => t.mass s / scale).sum = (ss.map t.mass).sum / scale := by
      simp only [div_eq_mul_inv]
      rw [List.sum_map_mul_right]
    rw [hsum, h.total, mul_div_cancel_right₀ _ hne]

/-- The values at a quantile, of whose mass a part counts. -/
def fillTail (u taken : Path → Rat) (scale v part : Rat) : TailValues where
  quantile := v
  below s := if u s < v then 1 else 0
  atMost s := if u s ≤ v then 1 else 0
  strictMass s := if u s < v then scale * taken s else 0
  mass s := if u s < v then scale * taken s else if u s = v then scale * (part * taken s) else 0

/-- A quantile that is one of the utilities can be completed to a solution. -/
theorem exists_tailSolution (hcover : l.Cover (ss.map u)) (hscale : 0 < scale)
    (htaken : ∀ s ∈ ss, 0 ≤ taken s ∧ taken s ≤ 1) (hv : IsQuantile ss u taken level v)
    (hmem : v ∈ ss.map u) : ∃ t : TailValues, TailSolution l ss u taken level scale t := by
  obtain ⟨part, hpart, hpart_le, hfill⟩ := exists_fill hv
  refine ⟨fillTail u taken scale v part, hcover.least_le v hmem, hcover.le_greatest v hmem, ?_, ?_⟩
  · intro s hs
    have hu : u s ∈ ss.map u := List.mem_map_of_mem hs
    obtain ⟨hnonneg, hle⟩ := htaken s hs
    rcases lt_trichotomy (u s) v with hlt | heq | hgt
    · simp only [fillTail, if_pos hlt, if_pos (le_of_lt hlt)]
      exact TailRowSolution.of_lt hscale hcover.span_eq (hcover.least_le _ hu) (hcover.le_greatest v hmem)
        hnonneg hle (hcover.halfGap_le _ hu v hmem hlt) hlt
    · simp only [fillTail, if_neg (not_lt.2 (ge_of_eq heq)), if_pos (le_of_eq heq), if_pos heq]
      refine TailRowSolution.of_eq hscale hcover.span_eq (hcover.least_le _ hu) (hcover.le_greatest _ hu) hle
        heq ?_ ?_
      · exact mul_nonneg (le_of_lt hscale) (mul_nonneg hpart hnonneg)
      · exact mul_le_mul_of_nonneg_left (mul_le_of_le_one_left hnonneg hpart_le) (le_of_lt hscale)
    · simp only [fillTail, if_neg (not_lt.2 (le_of_lt hgt)), if_neg (not_le.2 hgt), if_neg (ne_of_gt hgt)]
      exact TailRowSolution.of_gt hscale hcover.span_eq (hcover.le_greatest _ hu) (hcover.least_le v hmem)
        hnonneg hle (hcover.halfGap_le v hmem _ hu hgt) hgt
  · have hterm : ∀ s ∈ ss, (fillTail u taken scale v part).mass s =
        scale * ((if u s < v then taken s else 0) + part * if u s = v then taken s else 0) := by
      intro s _
      simp only [fillTail]
      rcases lt_trichotomy (u s) v with hlt | heq | hgt
      · rw [if_pos hlt, if_pos hlt, if_neg (ne_of_lt hlt), mul_zero, add_zero]
      · rw [if_neg (not_lt.2 (ge_of_eq heq)), if_pos heq, if_neg (not_lt.2 (ge_of_eq heq)), if_pos heq, zero_add]
      · rw [if_neg (not_lt.2 (le_of_lt hgt)), if_neg (ne_of_gt hgt), if_neg (not_lt.2 (le_of_lt hgt)),
          if_neg (ne_of_gt hgt), mul_zero, add_zero, mul_zero]
    rw [List.map_congr_left hterm, List.sum_map_mul_left, List.sum_map_add, List.sum_map_mul_left]
    change scale * (massBelow ss u taken v + part * massAt ss u taken v) = level * scale
    rw [hfill, mul_comm]

end InfluenceDiagrams
