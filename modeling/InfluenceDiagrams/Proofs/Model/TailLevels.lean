import Mathlib.Tactic.Linarith
import InfluenceDiagrams.Proofs.Numeric.Sorting
import InfluenceDiagrams.Proofs.Numeric.Sums
import InfluenceDiagrams.Model.Objective

/-!
# `InfluenceDiagrams.Proofs.Model.TailLevels` — the levels of a tail objective

The least and the greatest utility bound all others, and two different utilities are farther apart than
half the least distance between neighbours.

## Contents
- **`TailLevels.Cover`** — what the levels say about utilities.
- **`exists_gap_le`** — a distance that is at least one between neighbours.
- **`TailLevels.ofUtilities?_spec`** — utilities have levels that cover them.
- **`TailLevels.halfGap_pos`** — with two different utilities the half gap is above zero.
-/

namespace InfluenceDiagrams

/-- All utilities lie between the least and the greatest one, and different ones are apart. -/
structure TailLevels.Cover (l : TailLevels Rat) (us : List Rat) : Prop where
  least_le : ∀ u ∈ us, l.least ≤ u
  le_greatest : ∀ u ∈ us, u ≤ l.greatest
  span_eq : l.span = l.greatest - l.least
  halfGap_le : ∀ a ∈ us, ∀ b ∈ us, a < b → l.halfGap ≤ b - a

/-- Two numbers of an ascending list are as far apart as some neighbours. -/
theorem exists_gap_le : ∀ {xs : List Rat}, xs.Pairwise (· < ·) → ∀ a ∈ xs, ∀ b ∈ xs, a < b →
    ∃ gap ∈ neighbourGaps xs, gap ≤ b - a
  | [], _, a, ha, _, _, _ => absurd ha List.not_mem_nil
  | [x], _, a, ha, b, hb, hab => by
      rw [List.mem_singleton.1 ha, List.mem_singleton.1 hb] at hab
      exact absurd hab (lt_irrefl x)
  | x :: y :: rest, h, a, ha, b, hb, hab => by
      obtain ⟨hx, hrest⟩ := List.pairwise_cons.1 h
      -- the greater one is not the head, so it is at or after the first neighbour
      have hb' : b ∈ y :: rest := by
        rcases List.mem_cons.1 hb with rfl | hb
        · rcases List.mem_cons.1 ha with rfl | ha
          · exact absurd hab (lt_irrefl _)
          · exact absurd (hx a ha) (not_lt.2 (le_of_lt hab))
        · exact hb
      rcases List.mem_cons.1 ha with rfl | ha
      · refine ⟨y - a, List.mem_cons_self, sub_le_sub_right ?_ a⟩
        rcases List.mem_cons.1 hb' with rfl | hb'
        · exact le_rfl
        · exact le_of_lt ((List.pairwise_cons.1 hrest).1 b hb')
      · obtain ⟨gap, hgap, hle⟩ := exists_gap_le hrest a ha b hb' hab
        exact ⟨gap, List.mem_cons_of_mem _ hgap, hle⟩

/-- Utilities have levels, unless there are none. -/
theorem TailLevels.ofUtilities?_spec {us : List Rat} (hne : us ≠ []) :
    ∃ l, TailLevels.ofUtilities? us = some l ∧ l.Cover us := by
  obtain ⟨hsorted, hmem⟩ := ascending_eraseDups_spec us
  unfold TailLevels.ofUtilities?
  generalize ascending (fun a b : Rat => decide (a < b)) (fun a => a == a) us.eraseDups = sorted at *
  have hsome : sorted ≠ [] := by
    obtain ⟨u, hu⟩ := List.exists_mem_of_ne_nil us hne
    exact List.ne_nil_of_mem ((hmem u).2 hu)
  dsimp only
  refine ⟨_, by rw [List.head?_eq_some_head hsome, List.getLast?_eq_some_getLast hsome]; rfl, ?_⟩
  constructor
  · intro u hu
    have hu := (hmem u).2 hu
    rw [← List.cons_head_tail hsome, List.mem_cons] at hu
    rw [← List.cons_head_tail hsome] at hsorted
    rcases hu with rfl | hu
    · exact le_rfl
    · exact le_of_lt ((List.pairwise_cons.1 hsorted).1 u hu)
  · intro u hu
    have hu := (hmem u).2 hu
    rw [← List.dropLast_append_getLast hsome, List.mem_append, List.mem_singleton] at hu
    rw [← List.dropLast_append_getLast hsome] at hsorted
    rcases hu with hu | rfl
    · exact le_of_lt ((List.pairwise_append.1 hsorted).2.2 u hu _ (List.mem_singleton_self _))
    · exact le_rfl
  · rfl
  · intro a ha b hb hab
    -- half the least gap is at most a gap between neighbours, which is at most the distance
    obtain ⟨gap, hgap, hle⟩ := exists_gap_le hsorted a ((hmem a).2 ha) b ((hmem b).2 hb) hab
    obtain ⟨m, -, hm, hleast⟩ := least?_spec (List.ne_nil_of_mem hgap)
    dsimp only
    rw [hm]
    show m / ((2 : Int) : Rat) ≤ b - a
    have hdist := (hleast gap hgap).trans hle
    have hpos := sub_pos.2 hab
    push_cast
    linarith

/-- Neighbours of an ascending list are apart. -/
theorem neighbourGaps_pos : ∀ {xs : List Rat}, xs.Pairwise (· < ·) → ∀ gap ∈ neighbourGaps xs, 0 < gap
  | [], _, _, hgap => absurd hgap List.not_mem_nil
  | [_], _, _, hgap => absurd hgap List.not_mem_nil
  | x :: y :: rest, h, gap, hgap => by
      obtain ⟨hx, hrest⟩ := List.pairwise_cons.1 h
      rcases List.mem_cons.1 hgap with rfl | hgap
      · exact sub_pos.2 (hx y List.mem_cons_self)
      · exact neighbourGaps_pos hrest gap hgap

/-- Between different utilities there is a gap, so that the half gap is above zero. -/
theorem TailLevels.halfGap_pos {us : List Rat} {l : TailLevels Rat} (hl : TailLevels.ofUtilities? us = some l) {a b : Rat}
    (ha : a ∈ us) (hb : b ∈ us) (hab : a < b) : 0 < l.halfGap := by
  obtain ⟨hsorted, hmem⟩ := ascending_eraseDups_spec us
  unfold TailLevels.ofUtilities? at hl
  generalize ascending (fun a b : Rat => decide (a < b)) (fun a => a == a) us.eraseDups = sorted at *
  obtain ⟨least, -, hl⟩ := Option.bind_eq_some_iff.1 hl
  obtain ⟨greatest, -, rfl⟩ := Option.map_eq_some_iff.1 hl
  obtain ⟨gap, hgap, -⟩ := exists_gap_le hsorted a ((hmem a).2 ha) b ((hmem b).2 hb) hab
  obtain ⟨m, hm, hleast, -⟩ := least?_spec (List.ne_nil_of_mem hgap)
  dsimp only
  rw [hleast]
  exact div_pos (neighbourGaps_pos hsorted m hm) (by decide +kernel)

end InfluenceDiagrams
