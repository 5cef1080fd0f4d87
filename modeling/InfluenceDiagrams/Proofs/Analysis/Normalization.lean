import InfluenceDiagrams.Proofs.Analysis.Lookups
import InfluenceDiagrams.Proofs.Analysis.Marginals
import InfluenceDiagrams.Proofs.Strategy.CompatibleListing

/-!
# `InfluenceDiagrams.Proofs.Analysis.Normalization` — what a strategy yields adds up to one

Analyses go through the compatible paths of a strategy and add up probabilities: under the utility of the
path, or under its states. Each probability is added once wherever it goes, so that the masses of a
distribution, and the state probabilities of a node, have the total probability as their sum.

## Contents
- **`Strategy.Fits.exists_toList`** — the compatible paths can be listed.
- **`Valued.expectedUtility_eq_sum`** — the expected utility as a sum over the listed paths.
- **`Valued.utilityDistribution_spec`** — sums over the distribution are sums over the listed paths.
- **`sum_mass_at`, `mem_u_iff`** — the mass at a utility, and the utilities there are.
- **`Ordered.toList_eq`** — the listed paths are the allowed ones; **`Ordered.expectedUtility_eq`**,
  **`Ordered.utilityDistribution_spec`** — the same over the allowed paths.
- **`stateTotals_spec`** — the sum of every line of state totals.
- **`probabilities_normalized`** — the main statement.
-/

namespace InfluenceDiagrams

/-! ## The listed paths -/

/-- The compatible paths of a strategy can be listed, and are paths in space. Chance nodes may be without states, and
then no path is listed. -/
theorem Strategy.Fits.exists_toList {dia : Diagram Rat} (hacc : dia.Accepted) {Z : Strategy} (hZ : Z.Fits dia)
    (hdecision : ∀ d ∈ dia.D, 1 ≤ entry dia.S d.index) :
    ∃ cp ss, CompatiblePaths.ofDiagram dia Z .empty = .ok cp ∧ cp.toList (α := Rat) = .ok ss ∧
      ∀ s ∈ ss, InSpace dia.S s := by
  have hfixed := FixedStates.onChance_empty dia
  by_cases hchance : ∀ c ∈ dia.indices .chance, 1 ≤ entry dia.S c
  · have hpos : ∀ n ∈ dia.S, 1 ≤ n := by
      refine forall_one_le fun k hk => ?_
      rcases hacc.exists_node hk with ⟨c, hc, rfl⟩ | ⟨d, hd, rfl⟩
      · exact hchance c.index (List.mem_map_of_mem hc)
      · exact hdecision d hd
    have hrun := CompatiblePaths.arranged_runnable hacc hpos hZ hfixed
    obtain ⟨ss, hlist, -, hss⟩ := hrun.toList_spec (α := Rat)
    rw [CompatiblePaths.checkFree_unbounded] at hlist
    exact ⟨_, ss, CompatiblePaths.ofDiagram_eq hacc hfixed, hlist, hss⟩
  · push Not at hchance
    obtain ⟨c, hc, hcount⟩ := hchance
    obtain ⟨⟨cp, hcp, hlist⟩, -⟩ := CompatiblePaths.ofDiagram_toList_stateless (Z := Z) hacc hfixed hc (by omega)
    exact ⟨cp, [], hcp, hlist, fun s hs => absurd hs List.not_mem_nil⟩

/-! ## Expected utility -/

namespace Diagram.Valued

variable {dia : Diagram Rat} {s : Path}

theorem eval_prob (h : dia.Valued) (hs : InSpace dia.S s) : dia.P.eval s = .ok (dia.prob s) := by
  obtain ⟨p, hp⟩ := h.probability s hs
  rw [Diagram.prob, hp]
  rfl

theorem eval_utility (h : dia.Valued) (hs : InSpace dia.S s) : dia.U.eval s = .ok (dia.utility s) := by
  obtain ⟨u, hu⟩ := h.utility s hs
  rw [Diagram.utility, hu]
  rfl

theorem weightedUtility_eq (h : dia.Valued) (hs : InSpace dia.S s) :
    weightedUtility dia s = .ok (dia.prob s * dia.utility s) := by
  rw [weightedUtility, h.eval_prob hs, h.eval_utility hs]
  rfl

end Diagram.Valued

section Listed

variable {dia : Diagram Rat} {Z : Strategy} {cp : CompatiblePaths} {ss : List Path}
  (hcp : CompatiblePaths.ofDiagram dia Z .empty = .ok cp) (hlist : cp.toList (α := Rat) = .ok ss)

include hcp hlist

/-- Going through the compatible paths is going through their list. -/
theorem overPaths_eq {σ : Type} (step : σ → Path → Except (Fault Rat) σ) (init : σ) :
    overPaths dia Z step init = ss.foldlM step init := by
  rw [overPaths, hcp]
  exact CompatiblePaths.foldPaths_eq hlist step init

/-- The expected utility is the sum of probability times utility over the listed paths. -/
theorem Diagram.Valued.expectedUtility_eq_sum (h : dia.Valued) (hss : ∀ s ∈ ss, InSpace dia.S s) :
    expectedUtility dia Z = .ok (ss.map fun s => dia.prob s * dia.utility s).sum := by
  rw [expectedUtility, overPaths_eq hcp hlist,
    foldlM_eq_pure (g := fun total s => total + dia.prob s * dia.utility s), foldl_add_eq_sum]
  · congr 1
    exact zero_add _
  · intro total s hs
    rw [h.weightedUtility_eq (hss s hs)]
    rfl

end Listed

/-! ## Distribution of the utility -/

/-- Merging into a list of keys and numbers adds to every weighted sum, whatever the weights are. -/
theorem sum_upsert (weight : Rat → Rat) (u p : Rat) (mass : List (Rat × Rat)) :
    ((Keyed.upsert u p (· + p) mass).map fun x => weight x.1 * x.2).sum =
      (mass.map fun x => weight x.1 * x.2).sum + weight u * p := by
  induction mass with
  | nil => simp [Keyed.upsert]
  | cons x mass ih =>
      obtain ⟨k, q⟩ := x
      rw [Keyed.upsert]
      by_cases hk : k = u
      · rw [if_pos (beq_iff_eq.2 hk), List.map_cons, List.map_cons, List.sum_cons, List.sum_cons, hk]
        ring
      · rw [if_neg (by rwa [beq_iff_eq]), List.map_cons, List.map_cons, List.sum_cons, List.sum_cons, ih]
        ring

theorem forall_pos_upsert {u p : Rat} (hp : 0 < p) {mass : List (Rat × Rat)}
    (h : ∀ x ∈ mass, 0 < x.2) : ∀ x ∈ Keyed.upsert u p (· + p) mass, 0 < x.2 := by
  induction mass with
  | nil =>
      intro x hx
      rw [List.mem_singleton.1 hx]
      exact hp
  | cons y mass ih =>
      obtain ⟨k, q⟩ := y
      obtain ⟨hq, hmass⟩ := List.forall_mem_cons.1 h
      rw [Keyed.upsert]
      split
      · exact List.forall_mem_cons.2 ⟨add_pos hq hp, hmass⟩
      · exact List.forall_mem_cons.2 ⟨hq, ih hmass⟩

/-- The masses after one more path. -/
def mergePath (dia : Diagram Rat) (mass : List (Rat × Rat)) (s : Path) : List (Rat × Rat) :=
  if dia.prob s = 0 then mass else Keyed.upsert (dia.utility s) (dia.prob s) (· + dia.prob s) mass

theorem addMass_eq {dia : Diagram Rat} (h : dia.Valued) (mass : List (Rat × Rat)) {s : Path}
    (hs : InSpace dia.S s) : addMass dia mass s = .ok (mergePath dia mass s) := by
  rw [addMass, h.eval_prob hs, h.eval_utility hs, mergePath]
  show (if (dia.prob s == 0) = true then Except.ok mass
    else .ok (Keyed.upsert (dia.utility s) (0 + dia.prob s) (· + dia.prob s) mass)) = _
  by_cases hzero : dia.prob s = 0
  · rw [if_pos (beq_iff_eq.2 hzero), if_pos hzero]
  · rw [if_neg (by rwa [beq_iff_eq]), if_neg hzero]
    congr 2
    exact zero_add _

theorem foldl_mergePath {dia : Diagram Rat} {ss : List Path} (hnonneg : ∀ s ∈ ss, 0 ≤ dia.prob s) :
    ∀ {mass : List (Rat × Rat)}, (∀ x ∈ mass, 0 < x.2) →
      (∀ x ∈ ss.foldl (mergePath dia) mass, 0 < x.2) ∧
        ∀ weight : Rat → Rat,
          ((ss.foldl (mergePath dia) mass).map fun x => weight x.1 * x.2).sum =
            (mass.map fun x => weight x.1 * x.2).sum +
              (ss.map fun s => weight (dia.utility s) * dia.prob s).sum := by
  induction ss with
  | nil =>
      intro mass hmass
      exact ⟨hmass, fun weight => by simp⟩
  | cons s ss ih =>
      intro mass hmass
      obtain ⟨hs, hss⟩ := List.forall_mem_cons.1 hnonneg
      -- a path of probability zero is left out, which changes no sum
      have hstep : (∀ x ∈ mergePath dia mass s, 0 < x.2) ∧ ∀ weight : Rat → Rat,
          ((mergePath dia mass s).map fun x => weight x.1 * x.2).sum =
            (mass.map fun x => weight x.1 * x.2).sum + weight (dia.utility s) * dia.prob s := by
        unfold mergePath
        by_cases hzero : dia.prob s = 0
        · rw [if_pos hzero, hzero]
          exact ⟨hmass, fun weight => by rw [mul_zero, add_zero]⟩
        · rw [if_neg hzero]
          have hpos := lt_of_le_of_ne hs (Ne.symm hzero)
          exact ⟨forall_pos_upsert hpos hmass, fun weight => sum_upsert weight _ _ mass⟩
      obtain ⟨hpos, hsum⟩ := ih hss hstep.1
      refine ⟨hpos, ?_⟩
      intro weight
      rw [List.foldl_cons, hsum, hstep.2, List.map_cons, List.sum_cons, add_assoc]

section Listed

variable {dia : Diagram Rat} {Z : Strategy} {cp : CompatiblePaths} {ss : List Path}
  (hcp : CompatiblePaths.ofDiagram dia Z .empty = .ok cp) (hlist : cp.toList (α := Rat) = .ok ss)
  (h : dia.Valued) (hss : ∀ s ∈ ss, InSpace dia.S s)

include hcp hlist h hss

/-- The distribution of the utility has the masses of the listed paths, merged one after the other. -/
theorem Diagram.Valued.utilityDistribution_eq :
    utilityDistribution dia Z = .ok ⟨ascending (fun a b => decide (a.1 < b.1)) (fun a => a.1 == a.1)
      (ss.foldl (mergePath dia) [])⟩ := by
  have hrun : overPaths dia Z (addMass dia) [] = .ok (ss.foldl (mergePath dia) []) := by
    rw [overPaths_eq hcp hlist]
    exact foldlM_eq_pure (fun mass s hs => addMass_eq h mass (hss s hs)) []
  rw [utilityDistribution, hrun]
  rfl

/-- A strategy has a distribution of the utility. Unless a probability is negative, its masses are positive, and sums
over its points with any weights on the utilities are those over the listed paths. -/
theorem Diagram.Valued.utilityDistribution_spec (hnonneg : ∀ s ∈ ss, 0 ≤ dia.prob s) :
    ∃ dist, utilityDistribution dia Z = .ok dist ∧ (∀ x ∈ dist.points, 0 < x.2) ∧
      ∀ weight : Rat → Rat, (dist.points.map fun x => weight x.1 * x.2).sum =
        (ss.map fun s => weight (dia.utility s) * dia.prob s).sum := by
  have hnone : ∀ x ∈ ([] : List (Rat × Rat)), 0 < x.2 := fun x hx => absurd hx List.not_mem_nil
  obtain ⟨hpos, hsum⟩ := foldl_mergePath hnonneg hnone
  have hperm := ascending_perm (fun a b : Rat × Rat => decide (a.1 < b.1)) (fun a => a.1 == a.1)
    (ss.foldl (mergePath dia) [])
  refine ⟨_, h.utilityDistribution_eq hcp hlist hss, ?_, ?_⟩
  · intro x hx
    exact hpos x (hperm.mem_iff.1 hx)
  · intro weight
    rw [(hperm.map _).sum_eq, hsum weight]
    simp

end Listed

/-- Sums over utilities and masses side by side are sums over the points. -/
theorem UtilityDistribution.zipWith_u_p {γ : Type} (f : Rat → Rat → γ) (dist : UtilityDistribution Rat) :
    List.zipWith f dist.u dist.p = dist.points.map fun x => f x.1 x.2 := by
  rw [u, p, List.zipWith_map, List.zipWith_self]

section Points

variable {dia : Diagram Rat} {ss : List Path} {dist : UtilityDistribution Rat}
  (hsum : ∀ weight : Rat → Rat, (dist.points.map fun x => weight x.1 * x.2).sum =
    (ss.map fun s => weight (dia.utility s) * dia.prob s).sum)

include hsum

/-- The mass at a utility is the probability of the paths that have it. -/
theorem sum_mass_at (u : Rat) : ((dist.points.filter fun x => decide (x.1 = u)).map Prod.snd).sum =
    ((ss.filter fun s => decide (dia.utility s = u)).map dia.prob).sum := by
  have := hsum fun t => if t = u then 1 else 0
  simp only [ite_mul, one_mul, zero_mul] at this
  rw [sum_map_filter, sum_map_filter]
  simpa only [decide_eq_true_eq] using this

/-- If all masses are positive, the utilities of the points are those of the paths of positive probability. -/
theorem mem_u_iff (hmass : ∀ x ∈ dist.points, 0 < x.2) (hnonneg : ∀ s ∈ ss, 0 ≤ dia.prob s) (u : Rat) :
    u ∈ dist.u ↔ ∃ s ∈ ss, dia.utility s = u ∧ dia.prob s ≠ 0 := by
  -- both say that the mass at the utility is positive
  have hpoints := sum_filter_pos_iff (fun x hx => le_of_lt (hmass x hx)) fun x => decide (x.1 = u)
  have hpaths := sum_filter_pos_iff hnonneg fun s => decide (dia.utility s = u)
  simp only [decide_eq_true_eq] at hpoints hpaths
  rw [← hpaths, ← sum_mass_at hsum u, hpoints, UtilityDistribution.u, List.mem_map]
  constructor
  · rintro ⟨x, hx, hu⟩
    exact ⟨x, hx, hu, ne_of_gt (hmass x hx)⟩
  · rintro ⟨x, hx, hu, -⟩
    exact ⟨x, hx, hu⟩

end Points

/-! ## Diagrams whose nodes observe earlier nodes -/

namespace Diagram.Ordered

variable {dia : Diagram Rat} {Z : Strategy}

theorem toList_eq (h : dia.Ordered) (hZ : Z.Fits dia) :
    ∃ cp, CompatiblePaths.ofDiagram dia Z .empty = .ok cp ∧
      cp.toList (α := Rat) = .ok (dia.allowedPaths Z) := by
  have hfixed : FixedStates.empty.OnChance dia := fun p hp => absurd hp List.not_mem_nil
  exact CompatiblePaths.ofDiagram_toList_exact h.accepted hZ hfixed
    fun d hd => h.info_lt d (List.mem_append_right _ hd)

/-- The expected utility is the sum of probability times utility over the allowed paths. -/
theorem expectedUtility_eq (h : dia.Ordered) (hZ : Z.Fits dia) :
    expectedUtility dia Z =
      .ok ((dia.allowedPaths Z).map fun s => dia.prob s * dia.utility s).sum := by
  obtain ⟨cp, hcp, hlist⟩ := h.toList_eq hZ
  exact h.dimensioned.valued.expectedUtility_eq_sum hcp hlist fun s hs => Diagram.inSpace_of_allowed hs

theorem utilityDistribution_eq (h : dia.Ordered) (hZ : Z.Fits dia) :
    utilityDistribution dia Z = .ok ⟨ascending (fun a b => decide (a.1 < b.1)) (fun a => a.1 == a.1)
      ((dia.allowedPaths Z).foldl (mergePath dia) [])⟩ := by
  obtain ⟨cp, hcp, hlist⟩ := h.toList_eq hZ
  exact h.dimensioned.valued.utilityDistribution_eq hcp hlist fun s hs => Diagram.inSpace_of_allowed hs

/-- Sums over the points of the distribution are sums over the allowed paths. -/
theorem utilityDistribution_spec (h : dia.Ordered) (hZ : Z.Fits dia) :
    ∃ dist, utilityDistribution dia Z = .ok dist ∧ (∀ x ∈ dist.points, 0 < x.2) ∧
      ∀ weight : Rat → Rat, (dist.points.map fun x => weight x.1 * x.2).sum =
        ((dia.allowedPaths Z).map fun s => weight (dia.utility s) * dia.prob s).sum := by
  obtain ⟨cp, hcp, hlist⟩ := h.toList_eq hZ
  exact h.dimensioned.valued.utilityDistribution_spec hcp hlist (fun s hs => Diagram.inSpace_of_allowed hs)
    fun s _ => h.prob_nonneg s

end Diagram.Ordered

/-! ## Well-formed diagrams -/

namespace Diagram.WellFormed

variable {dia : Diagram Rat} {Z : Strategy} (h : dia.WellFormed) (hZ : Z.Fits dia)

include h hZ

theorem toList_eq : ∃ cp, CompatiblePaths.ofDiagram dia Z .empty = .ok cp ∧
    cp.toList (α := Rat) = .ok (dia.allowedPaths Z) :=
  h.ordered.toList_eq hZ

theorem expectedUtility_eq :
    expectedUtility dia Z = .ok ((dia.allowedPaths Z).map fun s => dia.prob s * dia.utility s).sum :=
  h.ordered.expectedUtility_eq hZ

theorem utilityDistribution_spec :
    ∃ dist, utilityDistribution dia Z = .ok dist ∧ (∀ x ∈ dist.points, 0 < x.2) ∧
      ∀ weight : Rat → Rat, (dist.points.map fun x => weight x.1 * x.2).sum =
        ((dia.allowedPaths Z).map fun s => weight (dia.utility s) * dia.prob s).sum :=
  h.ordered.utilityDistribution_spec hZ

end Diagram.WellFormed

/-! ## State probabilities -/

/-- One line for every node, with an entry for each of its states, and all lines of the same sum. -/
structure LinesSum (S : StateCounts) (a : Rat) (totals : List (List Rat)) : Prop where
  lengths : totals.map List.length = S.map Int.toNat
  sums : ∀ row ∈ totals, row.sum = a

/-- State totals have a place for every state of every node, and the sum of every line is the sum of the
probabilities of the paths, divided by the norm. -/
theorem stateTotals_spec {dia : Diagram Rat} (h : dia.WellFormed) {cp : CompatiblePaths} {ss : List Path}
    (hcp : cp.toList (α := Rat) = .ok ss) (hss : ∀ s ∈ ss, InSpace dia.S s) (norm : Rat) :
    ∃ totals, stateTotals dia cp norm = .ok totals ∧
      LinesSum dia.S (ss.map fun s => dia.prob s / norm).sum totals := by
  exact ⟨_, stateTotals_eq h.tabulated hcp hss norm, lengths_marginals _ ss, sum_marginals _ hss⟩

/-! ## The main statement -/

/-- **Normalization.** The probabilities of the compatible paths of a strategy total one. Hence so do the
masses of the distribution of the utility, and the unconditional probabilities of the states of each
node. -/
theorem probabilities_normalized {dia : Diagram Rat} (h : dia.WellFormed) {Z : Strategy} (hZ : Z.Fits dia) :
    (∃ cp ss ps, CompatiblePaths.ofDiagram dia Z .empty = .ok cp ∧ cp.toList (α := Rat) = .ok ss ∧
      ss.mapM dia.P.eval = .ok ps ∧ ps.sum = 1) ∧
    (∃ dist, utilityDistribution dia Z = .ok dist ∧ dist.p.sum = 1) ∧
    ∃ result, stateProbabilities dia Z none none none = .ok result ∧
      result.probs.map List.length = dia.S.map Int.toNat ∧ ∀ row ∈ result.probs, row.sum = 1 := by
  obtain ⟨cp, hcp, hlist⟩ := h.toList_eq hZ
  have hin : ∀ s ∈ dia.allowedPaths Z, InSpace dia.S s := fun s hs => Diagram.inSpace_of_allowed hs
  refine ⟨⟨cp, _, (dia.allowedPaths Z).map dia.prob, hcp, hlist, ?_, h.sum_prob_allowed hZ⟩, ?_, ?_⟩
  · exact mapM_eq_pure fun s hs => h.eval_prob (hin s hs)
  · obtain ⟨dist, hdist, -, hsum⟩ := h.utilityDistribution_spec hZ
    refine ⟨dist, hdist, ?_⟩
    have := hsum fun _ => 1
    simp only [one_mul] at this
    rw [UtilityDistribution.p]
    exact this.trans (h.sum_prob_allowed hZ)
  · obtain ⟨totals, htotals, hlines⟩ := stateTotals_spec h hlist hin 1
    refine ⟨⟨totals, .empty, 1⟩, ?_, hlines.lengths, ?_⟩
    · rw [stateProbabilities, StateProbabilities.unconditional, hcp]
      show (stateTotals dia cp 1).bind _ = _
      rw [htotals]
      rfl
    · intro row hrow
      rw [hlines.sums row hrow]
      simp only [div_one]
      exact h.sum_prob_allowed hZ

theorem probabilities_normalized_umbrella :
    (∃ dist, utilityDistribution umbrella umbrellaStrategy = .ok dist ∧ dist.p.sum = 1) ∧
    ∃ result, stateProbabilities umbrella umbrellaStrategy none none none = .ok result ∧
      result.probs.map List.length = [2, 2, 2, 2] ∧ ∀ row ∈ result.probs, row.sum = 1 :=
  (probabilities_normalized umbrella_wellFormed umbrellaStrategy_fits).2

end InfluenceDiagrams
