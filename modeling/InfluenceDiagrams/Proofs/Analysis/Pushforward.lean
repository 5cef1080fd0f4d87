import InfluenceDiagrams.Proofs.Analysis.Causality
import InfluenceDiagrams.Proofs.Analysis.Normalization
import InfluenceDiagrams.Proofs.Path.Grouping
import InfluenceDiagrams.Proofs.Strategy.Choices

/-!
# `InfluenceDiagrams.Proofs.Analysis.Pushforward` — the distribution of the utility

The masses are merged under the utilities of the paths, one path after the other, and put in order at the end. No
utility comes twice among them, so that the mass beside a utility is all the mass that there is at it, and that is the
probability of the paths that have it. Paths of probability zero add no utility and no mass.

So the distribution is what becomes of the probabilities of the paths when these are told apart by their utility only,
and what is summed over the paths may as well be summed over the distribution.

## Contents
- **`nodup_keys_foldl_mergePath`** — no utility comes twice; **`sum_snd_filter_fst`** — so a point has all the mass.
- **`UtilityDistribution.Pushforward`** — what the distribution says of the paths.
- **`utilityDistribution_pushforward`** — the main statement.
-/

namespace InfluenceDiagrams

/-! ## Each utility once -/

/-- Merging never brings in a utility that is there already. -/
theorem nodup_keys_foldl_mergePath (dia : Diagram Rat) (ss : List Path) {mass : List (Rat × Rat)}
    (h : (mass.map Prod.fst).Nodup) : ((ss.foldl (mergePath dia) mass).map Prod.fst).Nodup := by
  induction ss generalizing mass with
  | nil => exact h
  | cons s ss ih =>
      refine ih ?_
      rw [mergePath]
      split
      · exact h
      · exact Keyed.nodup_keys_upsert h _ _

/-- Where no utility comes twice, the mass at the utility of a point is the mass of the point. -/
theorem sum_snd_filter_fst {points : List (Rat × Rat)} (hnodup : (points.map Prod.fst).Nodup) {x : Rat × Rat}
    (hx : x ∈ points) : ((points.filter fun y => decide (y.1 = x.1)).map Prod.snd).sum = x.2 := by
  induction points with
  | nil => cases hx
  | cons y points ih =>
      obtain ⟨hnew, hnodup⟩ := List.nodup_cons.1 hnodup
      rw [List.filter_cons]
      rcases List.mem_cons.1 hx with rfl | hx
      · have hnone : points.filter (fun y => decide (y.1 = x.1)) = [] := by
          rw [List.filter_eq_nil_iff]
          intro y hy hkey
          exact hnew (of_decide_eq_true hkey ▸ List.mem_map_of_mem hy)
        rw [if_pos (decide_eq_true rfl), hnone, List.map_singleton, List.sum_singleton]
      · have hne : ¬y.1 = x.1 := fun heq => hnew (heq ▸ List.mem_map_of_mem hx)
        rw [if_neg (by rwa [decide_eq_true_eq]), ih hnodup hx]

/-! ## Distributions of paths -/

/-- What a distribution says of some paths. Its utilities are those of the paths whose probability is not zero, each
once and in ascending order. Every mass is positive, and the sum of the probabilities of the paths that have the
utility. -/
structure UtilityDistribution.Pushforward (dia : Diagram Rat) (ss : List Path) (dist : UtilityDistribution Rat) :
    Prop where
  ascending : dist.u.Pairwise (· < ·)
  mem_u : ∀ u, u ∈ dist.u ↔ ∃ s ∈ ss, dia.utility s = u ∧ dia.prob s ≠ 0
  mass_pos : ∀ x ∈ dist.points, 0 < x.2
  mass_eq : ∀ x ∈ dist.points, x.2 = ((ss.filter fun s => decide (dia.utility s = x.1)).map dia.prob).sum

/-! ## The main statement -/

/-- **Pushforward.** Let no probability of a diagram be negative, and let all its paths have a probability and a
utility. Then the compatible paths of a strategy made of accepted tables can be listed, and the strategy has a
distribution of the utility, which is that of the listed paths. Hence the masses have the total probability of these
paths as their sum, and the utilities, each times its mass, the expected utility. -/
theorem utilityDistribution_pushforward {dia : Diagram Rat} (h : dia.Valued) (hnonneg : dia.P.Nonneg) {Z : Strategy}
    (hZ : Z.Made dia) :
    ∃ cp ss dist, CompatiblePaths.ofDiagram dia Z .empty = .ok cp ∧ cp.toList (α := Rat) = .ok ss ∧
      (∀ s ∈ ss, dia.P.eval s = .ok (dia.prob s) ∧ dia.U.eval s = .ok (dia.utility s)) ∧
      utilityDistribution dia Z = .ok dist ∧ dist.Pushforward dia ss ∧
      dist.p.sum = (ss.map dia.prob).sum ∧
      expectedUtility dia Z = .ok (List.zipWith (· * ·) dist.u dist.p).sum := by
  obtain ⟨cp, ss, hcp, hlist, hss⟩ := hZ.fits.exists_toList h.accepted fun d hd => hZ.count_pos hd
  have hprob : ∀ s ∈ ss, 0 ≤ dia.prob s := fun s _ => hnonneg.prob_nonneg s
  obtain ⟨dist, hdist, hmass, hsum⟩ := h.utilityDistribution_spec hcp hlist hss hprob
  have hascending : dist.u.Pairwise (· < ·) := by
    obtain rfl := Except.ok.inj (hdist.symm.trans (h.utilityDistribution_eq hcp hlist hss))
    exact List.pairwise_map.2 (ascending_strict Prod.fst (nodup_keys_foldl_mergePath dia ss List.nodup_nil))
  refine ⟨cp, ss, dist, hcp, hlist, fun s hs => ⟨h.eval_prob (hss s hs), h.eval_utility (hss s hs)⟩, hdist, ?_, ?_, ?_⟩
  · refine ⟨hascending, mem_u_iff hsum hmass hprob, hmass, fun x hx => ?_⟩
    rw [← sum_mass_at hsum, sum_snd_filter_fst (hascending.imp ne_of_lt) hx]
  · have := hsum fun _ => 1
    simp only [one_mul] at this
    exact this
  · rw [h.expectedUtility_eq_sum hcp hlist hss, UtilityDistribution.zipWith_u_p, hsum fun u => u]
    simp only [mul_comm]

/-- Save the test, and drill on good news only, of which there will be none. -/
def waitForNews : Strategy :=
  ⟨[⟨⟨1, []⟩, ⟨[2], [true, false], rfl⟩⟩,
    ⟨⟨3, [1, 2]⟩, ⟨[2, 2, 2], [true, false, false, true, true, false, false, true], rfl⟩⟩]⟩

theorem waitForNews_made : waitForNews.Made oilField where
  nodes := List.Perm.refl _
  parts := by
    intro z hz
    rcases List.mem_pair.1 hz with rfl | rfl
    · exact ⟨⟨[2], [.int 1, .int 0], rfl⟩, by decide, rfl⟩
    · exact ⟨⟨[2, 2, 2], [.int 1, .int 0, .int 0, .int 1, .int 1, .int 0, .int 0, .int 1], rfl⟩, by decide, rfl⟩

/-- Of the four paths two have probability zero, whose utilities are left out, and the other two have the same
utility. -/
theorem utilityDistribution_pushforward_oilField : ∃ cp ss dist,
    CompatiblePaths.ofDiagram oilField waitForNews .empty = .ok cp ∧ cp.toList (α := Rat) = .ok ss ∧
      utilityDistribution oilField waitForNews = .ok dist ∧ dist.Pushforward oilField ss ∧
      expectedUtility oilField waitForNews = .ok (List.zipWith (· * ·) dist.u dist.p).sum := by
  have hnonneg : oilField.P.Nonneg := oilField_ordered.tabulated.nonneg oilField_ordered.nonnegTables
  obtain ⟨cp, ss, dist, hcp, hlist, -, hdist, hpushforward, -, hvalue⟩ :=
    utilityDistribution_pushforward oilField_ordered.dimensioned.valued hnonneg waitForNews_made
  exact ⟨cp, ss, dist, hcp, hlist, hdist, hpushforward, hvalue⟩

end InfluenceDiagrams
