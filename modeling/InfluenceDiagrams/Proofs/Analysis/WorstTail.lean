import InfluenceDiagrams.Proofs.Analysis.Tail

/-!
# `InfluenceDiagrams.Proofs.Analysis.WorstTail` — the conditional value at risk as an extremum

The formula for the mean of the tail takes any number for its threshold, and is the threshold less the mean of what the
utilities fall short of it. So a mean of the tail lies below its threshold, and rises with the level.

What the utilities fall short of a threshold is convex in the threshold, and the mass of a worst part that is cut off
there is a slope. At a quantile there is a worst part that makes up the level, and so the mean of the tail is greatest
where the value at risk is. This carries what holds at one threshold over to another: from one level to a higher one,
whose value at risk is another utility, and from one order of the points to another.

Whoever takes parts of the masses, the level altogether, takes no less utility than the formula says, whatever the
threshold. At a quantile no more than that need be taken: all below it, and of the mass there what fills up the level.

## Contents
- **`shortfall`**, **`tailMean_eq`** — the formula in terms of what utilities fall short of a number.
- **`TailShares.shortfall_add_le`** — slopes; **`IsCutoff.tailMean_le`** — the formula is greatest at a cutoff.
- **`UtilityDistribution.Allocation`** — parts of the masses; **`Allocation.le_utility`**, **`exists_allocation`** —
  what utility they have at least, and some that have no more.
- **`conditionalValueAtRisk_spec`** — the formula at the value at risk; **`conditionalValueAtRisk_perm`**,
  **`conditionalValueAtRisk_mono`**, **`conditionalValueAtRisk_bounds`**, **`conditionalValueAtRisk_one`** — other orders
  of the points, higher levels, bounds, and level one.
- **`conditionalValueAtRisk_worst_tail`**, **`conditionalValueAtRisk_monotone`** — the main statements.
-/

namespace InfluenceDiagrams

/-! ## What utilities fall short of -/

/-- What the utilities fall short of a number, weighed with the masses. -/
def shortfall {β : Type} (xs : List β) (u q : β → Rat) (v : Rat) : Rat :=
  (xs.map fun x => max (v - u x) 0 * q x).sum

/-- A part of a mass, times a number of any sign. -/
theorem part_mul_le {a m : Rat} (t : Rat) (hnonneg : 0 ≤ a) (hle : a ≤ m) : a * t ≤ max t 0 * m :=
  calc a * t ≤ a * max t 0 := mul_le_mul_of_nonneg_left (le_max_left _ _) hnonneg
    _ ≤ m * max t 0 := mul_le_mul_of_nonneg_right hle (le_max_right _ _)
    _ = max t 0 * m := mul_comm _ _

section Shortfall

variable {β : Type} {xs : List β} {u q : β → Rat} {level a b v w : Rat}

theorem shortfall_eq : shortfall xs u q v =
    massUpTo xs u q v * v - (xs.map fun x => if u x ≤ v then u x * q x else 0).sum := by
  rw [shortfall, massUpTo, ← List.sum_map_mul_right, ← sum_map_sub]
  congr 1
  apply List.map_congr_left
  intro x _
  rcases le_or_gt (u x) v with hle | hgt
  · rw [max_eq_left (sub_nonneg.2 hle), if_pos hle, if_pos hle]
    ring
  · rw [max_eq_right (sub_nonpos.2 (le_of_lt hgt)), if_neg (not_le.2 hgt), if_neg (not_le.2 hgt), zero_mul,
      zero_mul, sub_zero]

/-- The mean of the tail is the threshold less the mean of what the utilities fall short of it. -/
theorem tailMean_eq (hlevel : level ≠ 0) : tailMean xs u q level v = v - shortfall xs u q v / level := by
  rw [tailMean, shortfall_eq, eq_sub_iff_add_eq, ← add_div, div_eq_iff hlevel]
  ring

theorem mul_tailMean (hlevel : level ≠ 0) : level * tailMean xs u q level v = level * v - shortfall xs u q v := by
  rw [tailMean_eq hlevel, mul_sub, mul_div_cancel₀ _ hlevel]

theorem shortfall_eq_zero (h : ∀ x ∈ xs, v ≤ u x) : shortfall xs u q v = 0 := by
  apply List.sum_eq_zero
  intro y hy
  obtain ⟨x, hx, rfl⟩ := List.mem_map.1 hy
  rw [max_eq_right (sub_nonpos.2 (h x hx)), zero_mul]

variable (hq : ∀ x ∈ xs, 0 ≤ q x)

include hq

theorem shortfall_nonneg : 0 ≤ shortfall xs u q v := by
  apply List.sum_nonneg
  intro y hy
  obtain ⟨x, hx, rfl⟩ := List.mem_map.1 hy
  exact mul_nonneg (le_max_right _ _) (hq x hx)

/-- The mean of the tail lies below the threshold. -/
theorem tailMean_le_threshold (hpos : 0 < level) : tailMean xs u q level v ≤ v := by
  rw [tailMean_eq (ne_of_gt hpos)]
  exact sub_le_self v (div_nonneg (shortfall_nonneg hq) (le_of_lt hpos))

/-- At one threshold the mean of the tail rises with the level. -/
theorem tailMean_mono (hpos : 0 < a) (hab : a ≤ b) : tailMean xs u q a v ≤ tailMean xs u q b v := by
  rw [tailMean_eq (ne_of_gt hpos), tailMean_eq (ne_of_gt (lt_of_lt_of_le hpos hab))]
  exact sub_le_sub_left (div_le_div_of_nonneg_left (shortfall_nonneg hq) hpos hab) v

/-! ## The best threshold -/

omit hq in
/-- The level that a worst part of the mass makes up is a slope of the shortfall, where the part is cut off. -/
theorem TailShares.shortfall_add_le {share : β → Rat} (h : TailShares xs u q level v share) (w : Rat) :
    shortfall xs u q v + level * (w - v) ≤ shortfall xs u q w := by
  have hterm : ∀ x ∈ xs, share x * (w - v) ≤ max (w - u x) 0 * q x - max (v - u x) 0 * q x := by
    intro x hx
    have hw := part_mul_le (w - u x) (h.nonneg x hx) (h.le_mass x hx)
    -- below the threshold all mass belongs to the part, and above it nothing falls short
    have hv : share x * (v - u x) = max (v - u x) 0 * q x := by
      rcases lt_trichotomy (u x) v with hlt | heq | hgt
      · rw [h.full x hx hlt, max_eq_left (sub_nonneg.2 (le_of_lt hlt)), mul_comm]
      · rw [heq, sub_self, max_self, mul_zero, zero_mul]
      · rw [h.none x hx hgt, max_eq_right (sub_nonpos.2 (le_of_lt hgt)), zero_mul, zero_mul]
    linarith
  have hsum := List.sum_le_sum hterm
  rw [sum_map_sub, List.sum_map_mul_right, h.sum_eq] at hsum
  change level * (w - v) ≤ shortfall xs u q w - shortfall xs u q v at hsum
  linarith

/-- **The best threshold.** Among the thresholds that do not exceed every utility, a cutoff has the greatest mean of the
tail. -/
theorem IsCutoff.tailMean_le (h : IsCutoff xs u q level v) (hpos : 0 < level) (hw : ∃ x ∈ xs, w ≤ u x) :
    tailMean xs u q level w ≤ tailMean xs u q level v := by
  have hslope : shortfall xs u q v + level * (w - v) ≤ shortfall xs u q w := by
    rcases le_or_gt level (xs.map q).sum with hreached | hshort
    · obtain ⟨share, hshares⟩ := exists_tailShares hq (h.isQuantile hreached)
      exact hshares.shortfall_add_le w
    · -- the tail is everything, and the threshold can only be lower
      have hall : ∀ x ∈ xs, u x ≤ v := h.upTo.resolve_left (not_le.2 ((massUpTo_le_sum hq).trans_lt hshort))
      obtain ⟨x, hx, hwx⟩ := hw
      have hlower := mul_le_mul_of_nonpos_right (le_of_lt hshort) (sub_nonpos.2 (hwx.trans (hall x hx)))
      have := (tailShares_all hq hall).shortfall_add_le w
      linarith
  refine le_of_mul_le_mul_left ?_ hpos
  rw [mul_tailMean (ne_of_gt hpos), mul_tailMean (ne_of_gt hpos)]
  linarith

end Shortfall

/-! ## Parts of the masses -/

namespace UtilityDistribution

/-- Parts of the masses of a distribution, place by place, that are the level altogether. -/
structure Allocation (dist : UtilityDistribution Rat) (level : Rat) (q : List Rat) : Prop where
  bounds : List.Forall₂ (fun q p => 0 ≤ q ∧ q ≤ p) q dist.p
  sum_eq : q.sum = level

variable {dist : UtilityDistribution Rat} {level v : Rat}

/-- Whatever the threshold is, parts of the masses have at least the utility that they would have if each came with the
threshold, less what all utilities fall short of it. -/
theorem sum_mul_sub_shortfall_le {points : List (Rat × Rat)} {q : List Rat}
    (h : List.Forall₂ (fun q x => 0 ≤ q ∧ q ≤ x.2) q points) (v : Rat) :
    q.sum * v - shortfall points Prod.fst Prod.snd v ≤ (List.zipWith (fun q x => q * x.1) q points).sum := by
  induction h with
  | nil => simp [shortfall]
  | @cons a x q points hbounds _ ih =>
      have hpart := part_mul_le (v - x.1) hbounds.1 hbounds.2
      rw [shortfall] at ih ⊢
      rw [List.sum_cons, List.map_cons, List.sum_cons, List.zipWith_cons_cons, List.sum_cons]
      linarith

/-- **No less** than the formula says. -/
theorem Allocation.le_utility {q : List Rat} (h : dist.Allocation level q) (hlevel : level ≠ 0) (v : Rat) :
    level * tailMean dist.points Prod.fst Prod.snd level v ≤ (List.zipWith (· * ·) q dist.u).sum := by
  have hbounds := List.forall₂_map_right_iff.1 h.bounds
  have := sum_mul_sub_shortfall_le hbounds v
  rwa [h.sum_eq, ← mul_tailMean hlevel, ← List.zipWith_map_right] at this

/-- **No more** need be taken: all below a quantile, and of the mass there what fills up the level. -/
theorem exists_allocation (hmass : ∀ x ∈ dist.points, 0 ≤ x.2) (hlevel : level ≠ 0)
    (hv : IsQuantile dist.points Prod.fst Prod.snd level v) :
    ∃ q, dist.Allocation level q ∧
      (List.zipWith (· * ·) q dist.u).sum = level * tailMean dist.points Prod.fst Prod.snd level v := by
  obtain ⟨share, hshares⟩ := exists_tailShares hmass hv
  refine ⟨dist.points.map share, ⟨?_, hshares.sum_eq⟩, ?_⟩
  · rw [p, List.forall₂_map_left_iff, List.forall₂_map_right_iff, List.forall₂_same]
    exact fun x hx => ⟨hshares.nonneg x hx, hshares.le_mass x hx⟩
  · rw [← hshares.mean_eq hv, mul_div_cancel₀ _ hlevel, u, List.zipWith_map, List.zipWith_self]

end UtilityDistribution

/-! ## At the value at risk -/

theorem tailMean_perm {β : Type} {xs ys : List β} (hperm : xs.Perm ys) (u q : β → Rat) (level v : Rat) :
    tailMean xs u q level v = tailMean ys u q level v := by
  rw [tailMean, tailMean, massUpTo, massUpTo, (hperm.map _).sum_eq,
    (hperm.map fun x => if u x ≤ v then q x else 0).sum_eq]

section AtRisk

variable {dist : UtilityDistribution Rat} (hne : dist.points ≠ []) (hmass : ∀ x ∈ dist.points, 0 ≤ x.2)

include hne hmass

/-- The conditional value at risk is the mean of the tail at the value at risk, which is one of the utilities and a
cutoff. -/
theorem conditionalValueAtRisk_spec {level : Rat} (hpos : 0 < level) (hle : level ≤ 1) :
    ∃ x ∈ dist.points, valueAtRisk dist level = .ok x.1 ∧
      conditionalValueAtRisk dist level = .ok (tailMean dist.points Prod.fst Prod.snd level x.1) ∧
      IsCutoff dist.points Prod.fst Prod.snd level x.1 := by
  obtain ⟨x, hx, hvalue, hcutoff⟩ := valueAtRisk_spec hne hmass hpos hle
  exact ⟨x, hx, hvalue, conditionalValueAtRisk_eq_tailMean (ne_of_gt hpos) hvalue, hcutoff⟩

/-- The order of the points does not show. The values at risk need not be compared for it, since each of them is a best
threshold for the same points. -/
theorem conditionalValueAtRisk_perm {dist' : UtilityDistribution Rat} (hperm : dist'.points.Perm dist.points)
    {level : Rat} (hpos : 0 < level) (hle : level ≤ 1) :
    conditionalValueAtRisk dist' level = conditionalValueAtRisk dist level := by
  have hne' : dist'.points ≠ [] := fun hnil => hne (hnil ▸ hperm).symm.eq_nil
  have hmass' : ∀ x ∈ dist'.points, 0 ≤ x.2 := fun x hx => hmass x (hperm.mem_iff.1 hx)
  obtain ⟨x, hx, -, hvalue, hcutoff⟩ := conditionalValueAtRisk_spec hne hmass hpos hle
  obtain ⟨y, hy, -, hvalue', hcutoff'⟩ := conditionalValueAtRisk_spec hne' hmass' hpos hle
  have hyx := hcutoff.tailMean_le hmass hpos ⟨y, hperm.mem_iff.1 hy, le_rfl⟩
  have hxy := hcutoff'.tailMean_le hmass' hpos ⟨x, hperm.mem_iff.2 hx, le_rfl⟩
  rw [tailMean_perm hperm, tailMean_perm hperm] at hxy
  rw [hvalue, hvalue', tailMean_perm hperm, le_antisymm hyx hxy]

/-- The way from one level to a higher one goes by the mean that the tail has there at the lower value at risk. -/
theorem conditionalValueAtRisk_mono {a b : Rat} (hpos : 0 < a) (hab : a ≤ b) (hb : b ≤ 1) :
    ∃ s t, conditionalValueAtRisk dist a = .ok s ∧ conditionalValueAtRisk dist b = .ok t ∧ s ≤ t := by
  have hposb : 0 < b := lt_of_lt_of_le hpos hab
  obtain ⟨x, hx, -, hs, -⟩ := conditionalValueAtRisk_spec hne hmass hpos (hab.trans hb)
  obtain ⟨y, -, -, ht, hcutoff⟩ := conditionalValueAtRisk_spec hne hmass hposb hb
  refine ⟨_, _, hs, ht, ?_⟩
  calc tailMean dist.points Prod.fst Prod.snd a x.1
      ≤ tailMean dist.points Prod.fst Prod.snd b x.1 := tailMean_mono hmass hpos hab
    _ ≤ tailMean dist.points Prod.fst Prod.snd b y.1 := hcutoff.tailMean_le hmass hposb ⟨x, hx, le_rfl⟩

/-- The conditional value at risk lies between the least utility and the value at risk. -/
theorem conditionalValueAtRisk_bounds {level : Rat} (h0 : 0 ≤ level) (h1 : level ≤ 1) :
    ∃ v t, valueAtRisk dist level = .ok v ∧ conditionalValueAtRisk dist level = .ok t ∧ t ≤ v ∧
      ∀ m ∈ dist.u, (∀ w ∈ dist.u, m ≤ w) → m ≤ t := by
  rcases eq_or_lt_of_le h0 with rfl | hpos
  · obtain ⟨v, hv, hvalue, -⟩ := valueAtRisk_zero hne hmass
    exact ⟨v, v, hvalue, conditionalValueAtRisk_zero hvalue, le_rfl, fun m _ hleast => hleast v hv⟩
  · obtain ⟨x, hx, hvalue, htail, hcutoff⟩ := conditionalValueAtRisk_spec hne hmass hpos h1
    refine ⟨_, _, hvalue, htail, tailMean_le_threshold hmass hpos, fun m hm hleast => ?_⟩
    -- at the least utility nothing falls short, and its mean of the tail is itself
    have hleast' : ∀ y ∈ dist.points, m ≤ y.1 := fun y hy => hleast y.1 (List.mem_map_of_mem hy)
    have hm : tailMean dist.points Prod.fst Prod.snd level m = m := by
      rw [tailMean_eq (ne_of_gt hpos), shortfall_eq_zero hleast', zero_div, sub_zero]
    rw [← hm]
    exact hcutoff.tailMean_le hmass hpos ⟨x, hx, hleast' x hx⟩

/-- At level one the tail is everything, if the masses sum up to one. -/
theorem conditionalValueAtRisk_one (htotal : dist.p.sum = 1) :
    conditionalValueAtRisk dist 1 = .ok (List.zipWith (· * ·) dist.u dist.p).sum := by
  obtain ⟨x, hx, -, hvalue, hcutoff⟩ := conditionalValueAtRisk_spec hne hmass zero_lt_one le_rfl
  -- whatever is above all utilities will do for the threshold
  obtain ⟨top, -, -, htop⟩ := greatest?_spec (List.ne_nil_of_mem (List.mem_map_of_mem (f := Prod.fst) hx))
  have hshares := tailShares_all hmass fun y hy => htop y.1 (List.mem_map_of_mem hy)
  rw [UtilityDistribution.p] at htotal
  rw [htotal] at hshares
  rw [hvalue, ← hshares.mean_eq (hcutoff.isQuantile (ge_of_eq htotal)), div_one, UtilityDistribution.zipWith_u_p]
  simp only [mul_comm]

end AtRisk

/-! ## The main statements -/

/-- **The worst tail.** Let a distribution have no negative masses, and let a positive level be reached by their sum.
Then the level times the conditional value at risk is the least utility that parts of the masses can have which are the
level altogether, and there are parts that have it. The order of the points does not show. -/
theorem conditionalValueAtRisk_worst_tail {dist : UtilityDistribution Rat} (hmass : ∀ p ∈ dist.p, 0 ≤ p) {level : Rat}
    (hpos : 0 < level) (hle : level ≤ 1) (htotal : level ≤ dist.p.sum) :
    ∃ c, conditionalValueAtRisk dist level = .ok c ∧
      IsLeast {x | ∃ q, dist.Allocation level q ∧ (List.zipWith (· * ·) q dist.u).sum = x} (level * c) ∧
      ∀ dist' : UtilityDistribution Rat, dist'.points.Perm dist.points →
        conditionalValueAtRisk dist' level = .ok c := by
  have hmass' : ∀ x ∈ dist.points, 0 ≤ x.2 := fun x hx => hmass x.2 (List.mem_map_of_mem hx)
  have hne : dist.points ≠ [] := by
    intro hnil
    rw [UtilityDistribution.p, hnil] at htotal
    exact absurd hpos (not_lt.2 htotal)
  obtain ⟨x, -, -, hvalue, hcutoff⟩ := conditionalValueAtRisk_spec hne hmass' hpos hle
  refine ⟨_, hvalue, ⟨?_, ?_⟩, ?_⟩
  · exact UtilityDistribution.exists_allocation hmass' (ne_of_gt hpos) (hcutoff.isQuantile htotal)
  · rintro _ ⟨q, hq, rfl⟩
    exact hq.le_utility (ne_of_gt hpos) x.1
  · intro dist' hperm
    rw [conditionalValueAtRisk_perm hne hmass' hperm hpos hle, hvalue]

/-- Points in no order, and two of them with the same utility. -/
def scattered : UtilityDistribution Rat := ⟨[(3, 1/8), (-1, 1/4), (7, 3/8), (3, 1/4)]⟩

/-- The worst three eighths are all of the least utility, and a third of what has the next one. -/
theorem conditionalValueAtRisk_worst_tail_scattered : ∃ c, conditionalValueAtRisk scattered (3 / 8) = .ok c ∧
    IsLeast {x | ∃ q, scattered.Allocation (3 / 8) q ∧ (List.zipWith (· * ·) q scattered.u).sum = x} (3 / 8 * c) := by
  have hmass : ∀ p ∈ scattered.p, 0 ≤ p := by decide +kernel
  have htotal : 3 / 8 ≤ scattered.p.sum := by decide +kernel
  obtain ⟨c, hc, hleast, -⟩ :=
    conditionalValueAtRisk_worst_tail hmass (by decide +kernel) (by decide +kernel) htotal
  exact ⟨c, hc, hleast⟩

/-- **Higher levels.** Let a distribution have points and no negative masses, whatever their sum is. Then its
conditional value at risk does not become less as the level goes up from zero to one, and at every level it lies between
the least utility and the value at risk. If the masses sum up to one, it is the mean utility at level one. -/
theorem conditionalValueAtRisk_monotone {dist : UtilityDistribution Rat} (hne : dist.points ≠ [])
    (hmass : ∀ p ∈ dist.p, 0 ≤ p) :
    (∀ a b : Rat, 0 ≤ a → a ≤ b → b ≤ 1 →
      ∃ s t, conditionalValueAtRisk dist a = .ok s ∧ conditionalValueAtRisk dist b = .ok t ∧ s ≤ t) ∧
    (∀ level : Rat, 0 ≤ level → level ≤ 1 →
      ∃ m v t, (m ∈ dist.u ∧ ∀ w ∈ dist.u, m ≤ w) ∧ valueAtRisk dist level = .ok v ∧
        conditionalValueAtRisk dist level = .ok t ∧ m ≤ t ∧ t ≤ v) ∧
    (dist.p.sum = 1 → conditionalValueAtRisk dist 1 = .ok (List.zipWith (· * ·) dist.u dist.p).sum) := by
  have hmass' : ∀ x ∈ dist.points, 0 ≤ x.2 := fun x hx => hmass x.2 (List.mem_map_of_mem hx)
  obtain ⟨m, hm, hzero, hleast⟩ := valueAtRisk_zero hne hmass'
  refine ⟨?_, ?_, conditionalValueAtRisk_one hne hmass'⟩
  · intro a b ha hab hb
    rcases eq_or_lt_of_le ha with rfl | hpos
    · obtain ⟨-, t, -, ht, -, hbound⟩ := conditionalValueAtRisk_bounds hne hmass' hab hb
      exact ⟨m, t, conditionalValueAtRisk_zero hzero, ht, hbound m hm hleast⟩
    · exact conditionalValueAtRisk_mono hne hmass' hpos hab hb
  · intro level h0 h1
    obtain ⟨v, t, hv, ht, hle, hbound⟩ := conditionalValueAtRisk_bounds hne hmass' h0 h1
    exact ⟨m, v, t, ⟨hm, hleast⟩, hv, ht, hbound m hm hleast, hle⟩

theorem conditionalValueAtRisk_monotone_scattered :
    (∃ s t, conditionalValueAtRisk scattered (1 / 4) = .ok s ∧ conditionalValueAtRisk scattered (3 / 8) = .ok t ∧
      s ≤ t) ∧
    conditionalValueAtRisk scattered 1 = .ok (List.zipWith (· * ·) scattered.u scattered.p).sum := by
  have hne : scattered.points ≠ [] := List.cons_ne_nil _ _
  have hmass : ∀ p ∈ scattered.p, 0 ≤ p := by decide +kernel
  have htotal : scattered.p.sum = 1 := by decide +kernel
  obtain ⟨hmono, -, hmean⟩ := conditionalValueAtRisk_monotone hne hmass
  exact ⟨hmono (1 / 4) (3 / 8) (by decide +kernel) (by decide +kernel) (by decide +kernel), hmean htotal⟩

end InfluenceDiagrams
