import Mathlib.Order.Bounds.Basic
import InfluenceDiagrams.Proofs.Analysis.Tail

/-!
# `InfluenceDiagrams.Proofs.Analysis.ValueAtRisk` — the least utility that reaches the level

The place where the mass first reaches a level is known by what the masses are, so that neither the order of the points
nor that of equal utilities shows in it: it is the least of the utilities up to which there is mass enough, or the
greatest utility if there is never enough. A higher level is reached by fewer utilities, and no sooner.

## Contents
- **`massUpTo_le_massBelow`** — the mass up to a number lies below any greater one.
- **`ReachedFirst.le_of_reached`** — no utility before reaches the level; **`ReachedFirst.isLeast`,
  `ReachedFirst.isGreatest`** — the two cases.
- **`ReachedFirst.mono`** — higher levels; **`ReachedFirst.unique`** — there is one such utility only.
- **`valueAtRisk_first_reached`** — the value at risk.
-/

namespace InfluenceDiagrams

/-! ## Where the mass first reaches a level -/

section Reached

variable {β : Type} {xs : List β} {u q : β → Rat} {level a b v w s t : Rat} (hq : ∀ x ∈ xs, 0 ≤ q x)

include hq

theorem massUpTo_le_massBelow (hlt : w < v) : massUpTo xs u q w ≤ massBelow xs u q v := by
  apply List.sum_le_sum
  intro x hx
  split_ifs with hle hbelow
  · exact le_rfl
  · exact absurd (lt_of_le_of_lt hle hlt) hbelow
  · exact hq x hx
  · exact le_rfl

namespace ReachedFirst

/-- None of the utilities before reaches the level. -/
theorem le_of_reached (h : ReachedFirst xs u q level v) (hw : w ∈ xs.map u) (hreached : level ≤ massUpTo xs u q w) :
    v ≤ w := by
  rcases h.below with hshort | hleast
  · by_contra hlt
    have hmass := massUpTo_le_massBelow (u := u) hq (not_le.1 hlt)
    exact absurd (hreached.trans hmass) (not_le.2 hshort)
  · obtain ⟨x, hx, rfl⟩ := List.mem_map.1 hw
    exact hleast x hx

/-- If a utility reaches the level, then the first one that does. -/
theorem isLeast (h : ReachedFirst xs u q level v) (hv : v ∈ xs.map u)
    (hreached : ∃ w ∈ xs.map u, level ≤ massUpTo xs u q w) :
    IsLeast {w | w ∈ xs.map u ∧ level ≤ massUpTo xs u q w} v := by
  refine ⟨⟨hv, ?_⟩, fun w hw => h.le_of_reached hq hw.1 hw.2⟩
  rcases h.upTo with hupTo | hall
  · exact hupTo
  · -- up to the greatest utility there is all the mass, so not less than up to any other one
    obtain ⟨w, -, hw⟩ := hreached
    rw [massUpTo_eq_sum hall]
    exact hw.trans (massUpTo_le_sum hq)

omit hq in
theorem isGreatest (h : ReachedFirst xs u q level v) (hv : v ∈ xs.map u)
    (hshort : ∀ w ∈ xs.map u, massUpTo xs u q w < level) : IsGreatest {w | w ∈ xs.map u} v :=
  ⟨hv, List.forall_mem_map.2 (h.upTo.resolve_left (not_le.2 (hshort v hv)))⟩

/-- Where a level is reached, every lower one is. -/
theorem mono (hs : ReachedFirst xs u q a s) (ht : ReachedFirst xs u q b t) (hab : a ≤ b) (hsu : s ∈ xs.map u)
    (htu : t ∈ xs.map u) : s ≤ t := by
  rcases ht.upTo with hupTo | hall
  · exact hs.le_of_reached hq htu (hab.trans hupTo)
  · obtain ⟨x, hx, rfl⟩ := List.mem_map.1 hsu
    exact hall x hx

theorem unique (hs : ReachedFirst xs u q level s) (ht : ReachedFirst xs u q level t) (hsu : s ∈ xs.map u)
    (htu : t ∈ xs.map u) : s = t :=
  le_antisymm (hs.mono hq ht le_rfl hsu htu) (ht.mono hq hs le_rfl htu hsu)

end ReachedFirst

end Reached

/-! ## The value at risk -/

section AtRisk

variable {dist : UtilityDistribution Rat} (hne : dist.points ≠ []) (hmass : ∀ x ∈ dist.points, 0 ≤ x.2)

include hne hmass

/-- In whatever ascending order the points are gone through, the search ends at the same utility. -/
theorem quantile?_eq {level v : Rat} {points : List (Rat × Rat)} (hperm : points.Perm dist.points)
    (hsorted : points.Pairwise fun a b => a.1 ≤ b.1) (hv : v ∈ dist.u)
    (hreached : ReachedFirst dist.points Prod.fst Prod.snd level v) : quantile? level points = some v := by
  have hne' : points ≠ [] := fun hnil => hne (hnil ▸ hperm).symm.eq_nil
  have hmass' : ∀ x ∈ points, 0 ≤ x.2 := fun x hx => hmass x (hperm.mem_iff.1 hx)
  obtain ⟨x, hx, hquantile, hreached'⟩ := quantile?_spec level hne' hsorted hmass'
  have hx' : x.1 ∈ dist.u := List.mem_map_of_mem (hperm.mem_iff.1 hx)
  rw [hquantile, (hreached'.perm hperm).unique hmass hreached hx' hv]

theorem valueAtRisk_perm {level v : Rat} (h0 : 0 ≤ level) (h1 : level ≤ 1) {dist' : UtilityDistribution Rat}
    (hperm : dist'.points.Perm dist.points) (hv : v ∈ dist.u)
    (hreached : ReachedFirst dist.points Prod.fst Prod.snd level v) : valueAtRisk dist' level = .ok v := by
  have hsearch := quantile?_eq hne hmass ((byUtility_perm dist').trans hperm) (byUtility_sorted dist') hv hreached
  rw [valueAtRisk_eq h0 h1, hsearch]
  rfl

theorem valueAtRisk_mono {a b : Rat} (h0 : 0 ≤ a) (hab : a ≤ b) (h1 : b ≤ 1) :
    ∃ s t, valueAtRisk dist a = .ok s ∧ valueAtRisk dist b = .ok t ∧ s ≤ t := by
  obtain ⟨x, hx, hs, hxreached⟩ := valueAtRisk_reached hne hmass h0 (hab.trans h1)
  obtain ⟨y, hy, ht, hyreached⟩ := valueAtRisk_reached hne hmass (h0.trans hab) h1
  exact ⟨x.1, y.1, hs, ht, hxreached.mono hmass hyreached hab (List.mem_map_of_mem hx) (List.mem_map_of_mem hy)⟩

end AtRisk

/-- **The value at risk.** Let a distribution have points and no negative masses, whatever their sum and their order is.
At every level from zero to one its value at risk is the least utility up to which the mass is at least the level, or
the greatest utility if the mass is less up to each of them. That is where the search ends in every ascending order of
the points, however it treats equal utilities, and what every rearrangement of the points has for its value at risk. It
does not become less as the level goes up. -/
theorem valueAtRisk_first_reached {dist : UtilityDistribution Rat} (hne : dist.points ≠ [])
    (hmass : ∀ p ∈ dist.p, 0 ≤ p) :
    (∀ level : Rat, 0 ≤ level → level ≤ 1 → ∃ v, valueAtRisk dist level = .ok v ∧
      ((∃ w ∈ dist.u, level ≤ massUpTo dist.points Prod.fst Prod.snd w) →
        IsLeast {w | w ∈ dist.u ∧ level ≤ massUpTo dist.points Prod.fst Prod.snd w} v) ∧
      ((∀ w ∈ dist.u, massUpTo dist.points Prod.fst Prod.snd w < level) → IsGreatest {w | w ∈ dist.u} v) ∧
      (∀ points : List (Rat × Rat), points.Perm dist.points → points.Pairwise (fun a b => a.1 ≤ b.1) →
        quantile? level points = some v) ∧
      ∀ dist' : UtilityDistribution Rat, dist'.points.Perm dist.points → valueAtRisk dist' level = .ok v) ∧
    ∀ a b : Rat, 0 ≤ a → a ≤ b → b ≤ 1 →
      ∃ s t, valueAtRisk dist a = .ok s ∧ valueAtRisk dist b = .ok t ∧ s ≤ t := by
  have hmass' : ∀ x ∈ dist.points, 0 ≤ x.2 := fun x hx => hmass x.2 (List.mem_map_of_mem hx)
  refine ⟨?_, fun a b h0 hab h1 => valueAtRisk_mono hne hmass' h0 hab h1⟩
  intro level h0 h1
  obtain ⟨x, hx, hvalue, hreached⟩ := valueAtRisk_reached hne hmass' h0 h1
  have hv : x.1 ∈ dist.u := List.mem_map_of_mem hx
  refine ⟨x.1, hvalue, hreached.isLeast hmass' hv, hreached.isGreatest hv, ?_, ?_⟩
  · exact fun points hperm hsorted => quantile?_eq hne hmass' hperm hsorted hv hreached
  · exact fun dist' hperm => valueAtRisk_perm hne hmass' h0 h1 hperm hv hreached

/-- Points in no order: two of them have the same utility, and the least and the greatest utility have no mass. -/
def patchy : UtilityDistribution Rat := ⟨[(3, 1/8), (-1, 0), (7, 0), (0, 1/4), (3, 1/4)]⟩

/-- A quarter is just what there is up to the second utility; three quarters are more than there is. -/
theorem valueAtRisk_first_reached_patchy :
    (∃ v, valueAtRisk patchy (1 / 4) = .ok v ∧
      IsLeast {w | w ∈ patchy.u ∧ 1 / 4 ≤ massUpTo patchy.points Prod.fst Prod.snd w} v) ∧
    (∃ v, valueAtRisk patchy (3 / 4) = .ok v ∧ IsGreatest {w | w ∈ patchy.u} v) ∧
    ∃ s t, valueAtRisk patchy 0 = .ok s ∧ valueAtRisk patchy (1 / 4) = .ok t ∧ s ≤ t := by
  have hne : patchy.points ≠ [] := List.cons_ne_nil _ _
  have hmass : ∀ p ∈ patchy.p, 0 ≤ p := by decide +kernel
  have hreached : ∃ w ∈ patchy.u, 1 / 4 ≤ massUpTo patchy.points Prod.fst Prod.snd w := by decide +kernel
  have hshort : ∀ w ∈ patchy.u, massUpTo patchy.points Prod.fst Prod.snd w < 3 / 4 := by decide +kernel
  obtain ⟨hlevels, hmono⟩ := valueAtRisk_first_reached hne hmass
  obtain ⟨v, hv, hleast, -⟩ := hlevels (1 / 4) (by decide +kernel) (by decide +kernel)
  obtain ⟨w, hw, -, hgreatest, -⟩ := hlevels (3 / 4) (by decide +kernel) (by decide +kernel)
  refine ⟨⟨v, hv, hleast hreached⟩, ⟨w, hw, hgreatest hshort⟩, ?_⟩
  exact hmono 0 (1 / 4) le_rfl (by decide +kernel) (by decide +kernel)

end InfluenceDiagrams
