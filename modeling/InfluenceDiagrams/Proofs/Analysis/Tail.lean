import Mathlib.Data.List.Pairwise
import Mathlib.Tactic.Linarith
import InfluenceDiagrams.Proofs.Analysis.Normalization
import InfluenceDiagrams.Analysis.Risk

/-!
# `InfluenceDiagrams.Proofs.Analysis.Tail` — the worst part of a distribution

A number is a quantile at a level if the mass below it does not exceed the level and the mass up to it
reaches it. The worst part of the mass can be cut off anywhere between what lies below some threshold and
what lies at most there; as long as its mass is the level, its mean utility is that of the formula with any
quantile, in particular with the value at risk.

## Contents
- **`massBelow`, `massUpTo`, `massAt`, `IsQuantile`, `IsCutoff`** — masses and quantiles of a list with utilities and
  masses; **`ReachedFirst`** — where the mass first reaches a level.
- **`tailMean`** — the formula for the mean of the tail.
- **`exists_fill`** — what of the mass at a quantile fills up the level.
- **`TailShares`**, **`exists_tailShares`**, **`tailShares_all`** — worst parts of the mass;
  **`TailShares.sum_utility`** — their utility.
- **`quantile?_spec`, `valueAtRisk_reached`** — the search ends where the mass first reaches the level;
  **`valueAtRisk_spec`** — the value at risk is a quantile, or the greatest utility; **`valueAtRisk_zero`** — at level
  zero it is the least one.
- **`conditionalValueAtRisk_eq`** — the formula at a quantile of the allowed paths.
-/

namespace InfluenceDiagrams

/-! ## Quantiles -/

section Masses

variable {β : Type} (xs : List β) (u q : β → Rat)

/-- The mass of the entries whose utility lies below a number. -/
def massBelow (v : Rat) : Rat := (xs.map fun x => if u x < v then q x else 0).sum

/-- The mass of the entries whose utility is at most a number. -/
def massUpTo (v : Rat) : Rat := (xs.map fun x => if u x ≤ v then q x else 0).sum

/-- The mass at a number. -/
def massAt (v : Rat) : Rat := (xs.map fun x => if u x = v then q x else 0).sum

/-- The mass below a number is at most the level, and the mass up to it at least the level. -/
structure IsQuantile (level v : Rat) : Prop where
  below : massBelow xs u q v ≤ level
  upTo : level ≤ massUpTo xs u q v

/-- The same but for levels that the whole mass does not reach: then no utility lies above the number. -/
structure IsCutoff (level v : Rat) : Prop where
  below : massBelow xs u q v ≤ level
  upTo : level ≤ massUpTo xs u q v ∨ ∀ x ∈ xs, u x ≤ v

/-- The mass reaches the level at the number and not before: below the number it falls short or there is nothing, and
up to the number it is enough or there is nothing more. -/
structure ReachedFirst (level v : Rat) : Prop where
  below : massBelow xs u q v < level ∨ ∀ x ∈ xs, v ≤ u x
  upTo : level ≤ massUpTo xs u q v ∨ ∀ x ∈ xs, u x ≤ v

/-- The utility up to a number, less what exceeds the level there, over the level. -/
def tailMean (level v : Rat) : Rat :=
  ((xs.map fun x => if u x ≤ v then u x * q x else 0).sum - (massUpTo xs u q v - level) * v) / level

/-- Parts of the masses that make up the worst part: everything below a threshold, nothing above it, and
the level altogether. -/
structure TailShares (level threshold : Rat) (share : β → Rat) : Prop where
  nonneg : ∀ x ∈ xs, 0 ≤ share x
  le_mass : ∀ x ∈ xs, share x ≤ q x
  full : ∀ x ∈ xs, u x < threshold → share x = q x
  none : ∀ x ∈ xs, threshold < u x → share x = 0
  sum_eq : (xs.map share).sum = level

end Masses

section Shares

variable {β : Type} {xs : List β} {u q share : β → Rat} {level threshold v : Rat}

@[simp] theorem massBelow_cons (x : β) :
    massBelow (x :: xs) u q v = (if u x < v then q x else 0) + massBelow xs u q v := by
  rw [massBelow, List.map_cons, List.sum_cons]
  rfl

@[simp] theorem massUpTo_cons (x : β) :
    massUpTo (x :: xs) u q v = (if u x ≤ v then q x else 0) + massUpTo xs u q v := by
  rw [massUpTo, List.map_cons, List.sum_cons]
  rfl

theorem massBelow_eq_zero (h : ∀ x ∈ xs, v ≤ u x) : massBelow xs u q v = 0 := by
  apply List.sum_eq_zero
  intro y hy
  obtain ⟨x, hx, rfl⟩ := List.mem_map.1 hy
  exact if_neg (not_lt.2 (h x hx))

theorem massBelow_nonneg (hq : ∀ x ∈ xs, 0 ≤ q x) : 0 ≤ massBelow xs u q v := sum_map_ite_nonneg hq _

theorem massUpTo_nonneg (hq : ∀ x ∈ xs, 0 ≤ q x) : 0 ≤ massUpTo xs u q v := sum_map_ite_nonneg hq _

theorem massBelow_le_sum (hq : ∀ x ∈ xs, 0 ≤ q x) : massBelow xs u q v ≤ (xs.map q).sum := sum_map_ite_le hq _

theorem massUpTo_le_sum (hq : ∀ x ∈ xs, 0 ≤ q x) : massUpTo xs u q v ≤ (xs.map q).sum := sum_map_ite_le hq _

theorem massUpTo_eq_sum (h : ∀ x ∈ xs, u x ≤ v) : massUpTo xs u q v = (xs.map q).sum := by
  rw [massUpTo, List.map_congr_left fun x hx => if_pos (h x hx)]

theorem massUpTo_eq : massUpTo xs u q v = massBelow xs u q v + massAt xs u q v := by
  rw [massUpTo, massBelow, massAt, ← List.sum_map_add]
  congr 1
  apply List.map_congr_left
  intro x _
  rcases lt_trichotomy (u x) v with hlt | heq | hgt
  · rw [if_pos (le_of_lt hlt), if_pos hlt, if_neg (ne_of_lt hlt), add_zero]
  · rw [if_pos (le_of_eq heq), if_neg (not_lt.2 (ge_of_eq heq)), if_pos heq, zero_add]
  · rw [if_neg (not_le.2 hgt), if_neg (not_lt.2 (le_of_lt hgt)), if_neg (ne_of_gt hgt), add_zero]

/-- Where the whole mass reaches the level, a cutoff is a quantile. -/
theorem IsCutoff.isQuantile (h : IsCutoff xs u q level v) (htotal : level ≤ (xs.map q).sum) :
    IsQuantile xs u q level v := by
  refine ⟨h.below, ?_⟩
  rcases h.upTo with hupTo | hall
  · exact hupTo
  · rwa [massUpTo_eq_sum hall]

/-- Where the mass first reaches a level, it can be cut off. -/
theorem ReachedFirst.isCutoff (h : ReachedFirst xs u q level v) (h0 : 0 ≤ level) : IsCutoff xs u q level v := by
  refine ⟨?_, h.upTo⟩
  rcases h.below with hshort | hleast
  · exact le_of_lt hshort
  · rwa [massBelow_eq_zero hleast]

/-- The part of the mass at a quantile that fills the tail up to its level. -/
theorem exists_fill (hv : IsQuantile xs u q level v) :
    ∃ part, 0 ≤ part ∧ part ≤ 1 ∧ massBelow xs u q v + part * massAt xs u q v = level := by
  have hbelow := hv.below
  have hupTo := hv.upTo
  rw [massUpTo_eq] at hupTo
  have hat : 0 ≤ massAt xs u q v := by linarith
  -- without mass at the quantile the mass below it is the level, and no part is needed
  rcases eq_or_lt_of_le hat with hzero | hpos
  · refine ⟨0, le_rfl, zero_le_one, ?_⟩
    rw [← hzero, add_zero] at hupTo
    rw [zero_mul, add_zero]
    exact le_antisymm hbelow hupTo
  · refine ⟨(level - massBelow xs u q v) / massAt xs u q v, ?_, ?_, ?_⟩
    · exact div_nonneg (sub_nonneg.2 hbelow) hat
    · apply div_le_one_of_le₀ _ hat
      linarith
    · rw [div_mul_cancel₀ _ (ne_of_gt hpos)]
      ring

/-- At a quantile there is a worst part of the mass: all below it, and of the mass there what fills up the level. -/
theorem exists_tailShares (hq : ∀ x ∈ xs, 0 ≤ q x) (hv : IsQuantile xs u q level v) :
    ∃ share, TailShares xs u q level v share := by
  obtain ⟨part, hpart, hpart_le, hfill⟩ := exists_fill hv
  refine ⟨fun x => if u x < v then q x else if u x = v then part * q x else 0, ?_, ?_, ?_, ?_, ?_⟩
  · intro x hx
    split_ifs
    · exact hq x hx
    · exact mul_nonneg hpart (hq x hx)
    · exact le_rfl
  · intro x hx
    split_ifs
    · exact le_rfl
    · exact mul_le_of_le_one_left (hq x hx) hpart_le
    · exact hq x hx
  · exact fun x _ hlt => if_pos hlt
  · intro x _ hgt
    rw [if_neg (not_lt.2 (le_of_lt hgt)), if_neg (ne_of_gt hgt)]
  · have hterm : ∀ x ∈ xs, (if u x < v then q x else if u x = v then part * q x else 0) =
        (if u x < v then q x else 0) + part * if u x = v then q x else 0 := by
      intro x _
      rcases lt_trichotomy (u x) v with hlt | heq | hgt
      · rw [if_pos hlt, if_pos hlt, if_neg (ne_of_lt hlt), mul_zero, add_zero]
      · rw [if_neg (not_lt.2 (ge_of_eq heq)), if_pos heq, if_neg (not_lt.2 (ge_of_eq heq)), if_pos heq, zero_add]
      · rw [if_neg (not_lt.2 (le_of_lt hgt)), if_neg (ne_of_gt hgt), if_neg (not_lt.2 (le_of_lt hgt)),
          if_neg (ne_of_gt hgt), mul_zero, add_zero]
    rw [List.map_congr_left hterm, List.sum_map_add, List.sum_map_mul_left]
    exact hfill

/-- At or above all utilities the whole mass is a worst part. -/
theorem tailShares_all (hq : ∀ x ∈ xs, 0 ≤ q x) (h : ∀ x ∈ xs, u x ≤ v) : TailShares xs u q (xs.map q).sum v q where
  nonneg := hq
  le_mass _ _ := le_rfl
  full _ _ _ := rfl
  none x hx hgt := absurd (h x hx) (not_le.2 hgt)
  sum_eq := rfl

/-- The worst part of the mass is cut off at every quantile. -/
theorem TailShares.at_quantile (h : TailShares xs u q level threshold share) (hv : IsQuantile xs u q level v) :
    (∀ x ∈ xs, u x < v → share x = q x) ∧ ∀ x ∈ xs, v < u x → share x = 0 := by
  rcases lt_trichotomy v threshold with hlt | rfl | hlt
  · -- all mass up to the quantile belongs to the part, which leaves nothing for the rest
    refine ⟨fun x hx hux => h.full x hx (hux.trans hlt), ?_⟩
    have hrest : ∀ x ∈ xs, share x - (if u x ≤ v then q x else 0) = 0 := by
      apply eq_zero_of_sum_le
      · intro x hx
        split
        · rename_i hle
          rw [h.full x hx (lt_of_le_of_lt hle hlt), sub_self]
        · rw [sub_zero]
          exact h.nonneg x hx
      · rw [sum_map_sub, h.sum_eq]
        exact sub_nonpos.2 hv.upTo
    intro x hx hux
    have := hrest x hx
    rwa [if_neg (not_le.2 hux), sub_zero] at this
  · exact ⟨h.full, h.none⟩
  · -- nothing from the quantile on belongs to the part, which needs all that lies below
    refine ⟨?_, fun x hx hux => h.none x hx (hlt.trans hux)⟩
    have hrest : ∀ x ∈ xs, (if u x < v then q x else 0) - share x = 0 := by
      apply eq_zero_of_sum_le
      · intro x hx
        split
        · exact sub_nonneg.2 (h.le_mass x hx)
        · rename_i hge
          rw [h.none x hx (lt_of_lt_of_le hlt (not_lt.1 hge)), sub_zero]
      · rw [sum_map_sub, h.sum_eq]
        exact sub_nonpos.2 hv.below
    intro x hx hux
    have := hrest x hx
    rw [if_pos hux, sub_eq_zero] at this
    exact this.symm

/-- **The utility of the tail.** Whatever the threshold is, the utility of the worst part of the mass is
what the formula says at a quantile. -/
theorem TailShares.sum_utility (h : TailShares xs u q level threshold share)
    (hv : IsQuantile xs u q level v) :
    (xs.map fun x => share x * u x).sum =
      (xs.map fun x => if u x ≤ v then u x * q x else 0).sum - (massUpTo xs u q v - level) * v := by
  obtain ⟨hfull, hnone⟩ := h.at_quantile hv
  have hterm : ∀ x ∈ xs, share x * u x - share x * v =
      (if u x ≤ v then u x * q x else 0) - (if u x ≤ v then q x else 0) * v := by
    intro x hx
    rcases lt_trichotomy (u x) v with hlt | heq | hgt
    · rw [if_pos (le_of_lt hlt), if_pos (le_of_lt hlt), hfull x hx hlt, mul_comm]
    · rw [if_pos (le_of_eq heq), if_pos (le_of_eq heq), heq]
      ring
    · rw [if_neg (not_le.2 hgt), if_neg (not_le.2 hgt), hnone x hx hgt]
      ring
  have hsum := congrArg List.sum (List.map_congr_left hterm)
  rw [sum_map_sub, sum_map_sub, List.sum_map_mul_right, List.sum_map_mul_right, h.sum_eq] at hsum
  change _ = _ - massUpTo xs u q v * v at hsum
  linarith

theorem TailShares.mean_eq (h : TailShares xs u q level threshold share) (hv : IsQuantile xs u q level v) :
    (xs.map fun x => share x * u x).sum / level = tailMean xs u q level v := by
  rw [h.sum_utility hv, tailMean]

end Shares

/-! ## The value at risk -/

theorem byUtility_sorted (dist : UtilityDistribution Rat) :
    dist.byUtility.Pairwise fun a b => a.1 ≤ b.1 := by
  have hprecedes : ∀ a b : Rat, precedes a b = decide (a ≤ b) := by
    intro a b
    rw [precedes, bne_self_eq_false, Bool.false_or]
  refine mergeSort_sorted Prod.fst ?_ dist.points
  intro a b
  rw [hprecedes, decide_eq_true_eq]

/-- Going up in points sorted by utility, a level that is not above their whole mass is first reached at the point that
the search finds. -/
theorem find?_runningSums {level : Rat} :
    ∀ {points : List (Rat × Rat)} {start : Rat}, points ≠ [] → (points.Pairwise fun a b => a.1 ≤ b.1) →
      (∀ x ∈ points, 0 ≤ x.2) → level ≤ start + (points.map Prod.snd).sum →
      ∃ x ∈ points, ∃ mass, (points.zip (Scalar.runningSums start (points.map Prod.snd))).find?
          (fun x => decide (level ≤ x.2)) = some (x, mass) ∧
        (start + massBelow points Prod.fst Prod.snd x.1 < level ∨ ∀ y ∈ points, x.1 ≤ y.1) ∧
        level ≤ start + massUpTo points Prod.fst Prod.snd x.1 := by
  intro points
  induction points with
  | nil => exact fun hne => absurd rfl hne
  | cons y rest ih =>
      intro start _ hsorted hmass hle
      obtain ⟨hfirst, hsorted⟩ := List.pairwise_cons.1 hsorted
      obtain ⟨hy, hmass⟩ := List.forall_mem_cons.1 hmass
      rw [List.map_cons, Scalar.runningSums, List.zip_cons_cons, List.find?_cons]
      by_cases hreached : level ≤ start + y.2
      · -- the first point reaches the level, and no point lies below it
        refine ⟨y, List.mem_cons_self, _, by rw [decide_eq_true hreached],
          Or.inr (List.forall_mem_cons.2 ⟨le_rfl, hfirst⟩), ?_⟩
        have hrest : 0 ≤ massUpTo rest Prod.fst Prod.snd y.1 := massUpTo_nonneg hmass
        rw [massUpTo_cons, if_pos le_rfl]
        linarith
      · -- the search goes on with the mass of the first point, all of which counts as low
        have hne : rest ≠ [] := by
          rintro rfl
          rw [List.map_singleton, List.sum_singleton] at hle
          exact hreached hle
        rw [List.map_cons, List.sum_cons, ← add_assoc] at hle
        obtain ⟨x, hx, mass, hfind, hbelow, hupTo⟩ := ih hne hsorted hmass hle
        refine ⟨x, List.mem_cons_of_mem _ hx, mass, ?_, Or.inl ?_, ?_⟩
        · rw [decide_eq_false hreached]
          exact hfind
        · have hshort : start + y.2 + massBelow rest Prod.fst Prod.snd x.1 < level := by
            rcases hbelow with hshort | hleast
            · exact hshort
            · rw [massBelow_eq_zero hleast, add_zero]
              exact not_le.1 hreached
          rw [massBelow_cons]
          split <;> linarith
        · rw [massUpTo_cons, if_pos (hfirst x hx)]
          linarith

/-- A level above the whole mass is never reached. -/
theorem find?_runningSums_eq_none {level : Rat} {points : List (Rat × Rat)} {start : Rat}
    (hmass : ∀ x ∈ points, 0 ≤ x.2) (hshort : start + (points.map Prod.snd).sum < level) :
    (points.zip (Scalar.runningSums start (points.map Prod.snd))).find? (fun x => decide (level ≤ x.2)) = none := by
  induction points generalizing start with
  | nil => rfl
  | cons y rest ih =>
      obtain ⟨-, hrest⟩ := List.forall_mem_cons.1 hmass
      rw [List.map_cons, List.sum_cons, ← add_assoc] at hshort
      have hlow : ¬level ≤ start + y.2 := by
        have hnonneg : 0 ≤ (rest.map Prod.snd).sum := List.sum_nonneg (List.forall_mem_map.2 hrest)
        linarith
      rw [List.map_cons, Scalar.runningSums, List.zip_cons_cons, List.find?_cons, decide_eq_false hlow]
      exact ih hrest hshort

/-- The search for a quantile ends where the mass first reaches the level, which is at the last utility if it never
does. -/
theorem quantile?_spec (level : Rat) {points : List (Rat × Rat)} (hne : points ≠ [])
    (hsorted : points.Pairwise fun a b => a.1 ≤ b.1) (hmass : ∀ x ∈ points, 0 ≤ x.2) :
    ∃ x ∈ points, quantile? level points = some x.1 ∧ ReachedFirst points Prod.fst Prod.snd level x.1 := by
  rcases le_or_gt level (points.map Prod.snd).sum with hreached | hshort
  · obtain ⟨x, hx, mass, hfind, hbelow, hupTo⟩ :=
      find?_runningSums hne hsorted hmass (hreached.trans (le_of_eq (zero_add _).symm))
    rw [zero_add] at hbelow hupTo
    refine ⟨x, hx, ?_, hbelow, Or.inl hupTo⟩
    rw [quantile?]
    erw [hfind]
  · have hfind := find?_runningSums_eq_none hmass ((le_of_eq (zero_add _)).trans_lt hshort)
    refine ⟨points.getLast hne, List.getLast_mem hne, ?_, Or.inl ?_, Or.inr ?_⟩
    · rw [quantile?]
      erw [hfind]
      rw [List.getLast?_eq_some_getLast hne]
      rfl
    · exact (massBelow_le_sum hmass).trans_lt hshort
    · intro y hy
      exact hsorted.rel_getLast_of_rel_getLast_getLast hy le_rfl

theorem valueAtRisk_eq {dist : UtilityDistribution Rat} {level : Rat} (h0 : 0 ≤ level) (h1 : level ≤ 1) :
    valueAtRisk dist level = orFault .outOfRange (quantile? level dist.byUtility) := by
  have hlevel : admissibleLevel level = true := by
    rw [admissibleLevel, decide_eq_true h0, decide_eq_true h1]
    rfl
  rw [valueAtRisk, if_pos hlevel]

theorem byUtility_perm (dist : UtilityDistribution Rat) : dist.byUtility.Perm dist.points := List.mergeSort_perm _ _

theorem byUtility_ne_nil {dist : UtilityDistribution Rat} (hne : dist.points ≠ []) : dist.byUtility ≠ [] := by
  intro hnil
  have hperm := byUtility_perm dist
  rw [hnil] at hperm
  exact hne hperm.symm.eq_nil

theorem ReachedFirst.perm {β : Type} {xs ys : List β} {u q : β → Rat} {level v : Rat}
    (h : ReachedFirst xs u q level v) (hperm : xs.Perm ys) : ReachedFirst ys u q level v := by
  refine ⟨?_, ?_⟩
  · rw [massBelow, ← (hperm.map _).sum_eq]
    exact h.below.imp_right fun hall y hy => hall y (hperm.mem_iff.2 hy)
  · rw [massUpTo, ← (hperm.map _).sum_eq]
    exact h.upTo.imp_right fun hall y hy => hall y (hperm.mem_iff.2 hy)

/-- The value at risk is one of the utilities, and the one where the mass first reaches the level. -/
theorem valueAtRisk_reached {dist : UtilityDistribution Rat} (hne : dist.points ≠ [])
    (hmass : ∀ x ∈ dist.points, 0 ≤ x.2) {level : Rat} (h0 : 0 ≤ level) (h1 : level ≤ 1) :
    ∃ x ∈ dist.points, valueAtRisk dist level = .ok x.1 ∧ ReachedFirst dist.points Prod.fst Prod.snd level x.1 := by
  have hperm := byUtility_perm dist
  obtain ⟨x, hx, hquantile, hreached⟩ := quantile?_spec level (byUtility_ne_nil hne) (byUtility_sorted dist)
    fun x hx => hmass x (hperm.mem_iff.1 hx)
  refine ⟨x, hperm.mem_iff.1 hx, ?_, hreached.perm hperm⟩
  rw [valueAtRisk_eq h0 h1, hquantile]
  rfl

/-- The value at risk is one of the utilities, and a cutoff. -/
theorem valueAtRisk_spec {dist : UtilityDistribution Rat} (hne : dist.points ≠ []) (hmass : ∀ x ∈ dist.points, 0 ≤ x.2)
    {level : Rat} (hpos : 0 < level) (hle : level ≤ 1) :
    ∃ x ∈ dist.points, valueAtRisk dist level = .ok x.1 ∧ IsCutoff dist.points Prod.fst Prod.snd level x.1 := by
  obtain ⟨x, hx, hvalue, hreached⟩ := valueAtRisk_reached hne hmass (le_of_lt hpos) hle
  exact ⟨x, hx, hvalue, hreached.isCutoff (le_of_lt hpos)⟩

/-- At level zero there is nothing to reach, and the value at risk is the least utility. -/
theorem valueAtRisk_zero {dist : UtilityDistribution Rat} (hne : dist.points ≠ [])
    (hmass : ∀ x ∈ dist.points, 0 ≤ x.2) :
    ∃ v ∈ dist.u, valueAtRisk dist 0 = .ok v ∧ ∀ w ∈ dist.u, v ≤ w := by
  obtain ⟨x, hx, hvalue, hreached⟩ := valueAtRisk_reached hne hmass le_rfl zero_le_one
  refine ⟨x.1, List.mem_map_of_mem hx, hvalue, List.forall_mem_map.2 ?_⟩
  exact hreached.below.resolve_left (not_lt.2 (massBelow_nonneg hmass))

/-! ## The conditional value at risk -/

theorem conditionalValueAtRisk_zero {dist : UtilityDistribution Rat} {v : Rat} (hv : valueAtRisk dist 0 = .ok v) :
    conditionalValueAtRisk dist 0 = .ok v := by
  rw [conditionalValueAtRisk, hv]
  rfl

theorem conditionalValueAtRisk_eq_tailMean {dist : UtilityDistribution Rat} {level v : Rat} (hlevel : level ≠ 0)
    (hv : valueAtRisk dist level = .ok v) :
    conditionalValueAtRisk dist level = .ok (tailMean dist.points Prod.fst Prod.snd level v) := by
  rw [conditionalValueAtRisk, hv]
  show (if (level == 0) = true then Except.ok v else .ok
    ((pairwiseSum (dist.points.map fun a => if a.1 ≤ v then a.1 * a.2 else 0) -
      (pairwiseSum (dist.points.map fun a => if a.1 ≤ v then a.2 else 0) - level) * v) / level)) = _
  rw [if_neg (by rwa [beq_iff_eq]), pairwiseSum_eq_sum, pairwiseSum_eq_sum]
  rfl

/-- The conditional value at risk of a strategy is the mean of the tail of its allowed paths, at a quantile
that is the utility of one of these paths. -/
theorem conditionalValueAtRisk_eq {dia : Diagram Rat} (h : dia.WellFormed) {Z : Strategy} (hZ : Z.Fits dia)
    {level : Rat} (hpos : 0 < level) (hle : level ≤ 1) :
    ∃ dist v, utilityDistribution dia Z = .ok dist ∧
      conditionalValueAtRisk dist level = .ok (tailMean (dia.allowedPaths Z) dia.utility dia.prob level v) ∧
      IsQuantile (dia.allowedPaths Z) dia.utility dia.prob level v ∧
      ∃ s ∈ dia.allowedPaths Z, 0 < dia.prob s ∧ dia.utility s = v := by
  obtain ⟨dist, hdist, hmass, hsum⟩ := h.utilityDistribution_spec hZ
  have htotal : (dist.points.map Prod.snd).sum = 1 := by
    have := hsum fun _ => 1
    simp only [one_mul] at this
    exact this.trans (h.sum_prob_allowed hZ)
  have hne : dist.points ≠ [] := by
    rintro hnil
    rw [hnil] at htotal
    exact zero_ne_one htotal
  obtain ⟨x, hx, hvalue, hcutoff⟩ := valueAtRisk_spec hne (fun x hx => le_of_lt (hmass x hx)) hpos hle
  have hquantile := hcutoff.isQuantile (hle.trans (ge_of_eq htotal))
  -- masses over the points are masses over the allowed paths
  have hbelow : massBelow dist.points Prod.fst Prod.snd x.1 =
      massBelow (dia.allowedPaths Z) dia.utility dia.prob x.1 := by
    have := hsum fun t => if t < x.1 then 1 else 0
    simp only [ite_mul, one_mul, zero_mul] at this
    exact this
  have hupTo : massUpTo dist.points Prod.fst Prod.snd x.1 =
      massUpTo (dia.allowedPaths Z) dia.utility dia.prob x.1 := by
    have := hsum fun t => if t ≤ x.1 then 1 else 0
    simp only [ite_mul, one_mul, zero_mul] at this
    exact this
  have htail : (dist.points.map fun a => if a.1 ≤ x.1 then a.1 * a.2 else 0).sum =
      ((dia.allowedPaths Z).map fun s => if dia.utility s ≤ x.1 then dia.utility s * dia.prob s else 0).sum := by
    have := hsum fun t => if t ≤ x.1 then t else 0
    simpa only [ite_mul, zero_mul] using this
  have hmean : tailMean dist.points Prod.fst Prod.snd level x.1 =
      tailMean (dia.allowedPaths Z) dia.utility dia.prob level x.1 := by
    rw [tailMean, tailMean, htail, hupTo]
  obtain ⟨s, hs, hu, hne⟩ := (mem_u_iff hsum hmass (fun s _ => h.prob_nonneg s) x.1).1 (List.mem_map_of_mem hx)
  refine ⟨dist, x.1, hdist, ?_, ⟨hbelow ▸ hquantile.below, hupTo ▸ hquantile.upTo⟩, s, hs,
    lt_of_le_of_ne (h.prob_nonneg s) hne.symm, hu⟩
  rw [conditionalValueAtRisk_eq_tailMean (ne_of_gt hpos) hvalue, hmean]

end InfluenceDiagrams
