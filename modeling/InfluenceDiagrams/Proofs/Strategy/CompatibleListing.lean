import Mathlib.Algebra.BigOperators.Ring.List
import InfluenceDiagrams.Proofs.Strategy.CompatibleOrder

/-!
# `InfluenceDiagrams.Proofs.Strategy.CompatibleListing` — the compatible paths, whatever the state counts

A state count may be zero or negative, which leaves its node without a state. If decisions observe earlier
nodes only, the first node without a state is a chance node, since a decision selects one of its states. It
cannot be fixed, so that there is no compatible path, and none is listed. In all cases the list is that of
all paths without those that the strategy does not allow.

## Contents
- **`counts_pos_of_chance`** — if every chance node has a state, so has every node.
- **`ofDiagram_toList_exact`** — the compatible paths of an accepted diagram, listed.
-/

namespace InfluenceDiagrams

theorem choices_eq_nil {β : Type} {domains : List (List β)} (h : [] ∈ domains) : choices domains = [] := by
  rw [← List.length_eq_zero_iff, length_choices]
  exact List.prod_eq_zero (List.mem_map.2 ⟨[], h, rfl⟩)

/-- The states of a node are none if their count is not positive, unless the node is fixed. -/
theorem domain_eq_nil {fixed : FixedStates} {k : Node} {n : Int} (hk : fixed.state? k = none) (hn : n ≤ 0) :
    domain fixed k n = [] := by
  rw [domain, hk]
  show statesBelow n = []
  rw [← List.length_eq_zero_iff, length_statesBelow, Int.toNat_eq_zero.2 hn]

namespace Diagram

/-- If decisions observe earlier nodes only and every chance node has a state, every node has one. -/
theorem counts_pos_of_chance {α : Type} {dia : Diagram α} (hacc : dia.Accepted) {Z : Strategy}
    (hZ : Z.Fits dia) (hearlier : ∀ d ∈ dia.D, ∀ i ∈ d.info, i < d.index)
    (hchance : ∀ c ∈ dia.indices .chance, 1 ≤ entry dia.S c) : ∀ n ∈ dia.S, 1 ≤ n := by
  have hall : ∀ k, InRange dia.S.length k → 1 ≤ entry dia.S k := by
    intro k
    -- what a decision observes has states, so there is an information state for it to select in
    induction hn : k.toNat using Nat.strong_induction_on generalizing k with
    | _ n ih =>
        subst hn
        intro hk
        rcases hacc.exists_node hk with ⟨c, hc, rfl⟩ | ⟨d, hd, rfl⟩
        · exact hchance c.index (List.mem_map_of_mem hc)
        · obtain ⟨z, hz, rfl⟩ := hZ.exists_part hd
          have hinfo : Table.IndexOf (z.node.info.map (Table.extent dia.S)) (z.node.info.map fun _ => 0) := by
            unfold Table.IndexOf
            rw [List.forall₂_map_left_iff, List.forall₂_map_right_iff, List.forall₂_same]
            intro i hi
            have hir := hacc.info_inRange_of_mem (List.mem_append_right _ hd) i hi
            have hlt := hearlier z.node hd i hi
            have h0 := hir.1
            have hpos := ih i.toNat (by lia) i rfl hir
            refine ⟨le_rfl, ?_⟩
            rw [Table.extent, Int.toNat_of_nonneg (by omega)]
            omega
          obtain ⟨k, -, ⟨h0, hlt⟩, -⟩ := LocalStrategy.choose?_spec (hZ.parts z hz) hinfo
          rw [Table.extent] at hlt
          omega
  exact forall_one_le hall

end Diagram

namespace CompatiblePaths

variable {dia : Diagram Rat} {Z : Strategy} {fixed : FixedStates}

/-- Where a chance node has no state, no path is listed. -/
theorem ofDiagram_toList_stateless (hacc : dia.Accepted) (hfixed : fixed.OnChance dia) {c : Node}
    (hc : c ∈ dia.indices .chance) (hcount : entry dia.S c ≤ 0) :
    (∃ cp, ofDiagram dia Z fixed = .ok cp ∧ cp.toList (α := Rat) = .ok []) ∧ paths dia.S fixed = [] := by
  have hrange : ∀ c ∈ dia.indices .chance, InRange dia.S.length c := fun _ h => hacc.chance_inRange h
  have hfree : fixed.state? c = none := by
    cases hstate : fixed.state? c with
    | none => rfl
    | some v =>
        have hv : InRange (entry dia.S c) v := (hfixed _ (FixedStates.mem_of_state? hstate)).2
        exact absurd (lt_of_le_of_lt hv.1 hv.2) (not_lt_of_ge hcount)
  have hnone := domain_eq_nil hfree hcount
  constructor
  · have hnochance : Fillable.chances (arranged dia Z fixed) = [] :=
      choices_eq_nil (List.mem_map.2 ⟨c, arranged_chance_perm.mem_iff.2 hc, hnone⟩)
    refine ⟨_, ofDiagram_eq hacc hfixed, ?_⟩
    rw [toList, Fillable.chanceStates_of_inRange (arranged_chance_inRange hacc) fun _ _ _ => rfl, hnochance]
    rfl
  · rw [List.eq_nil_iff_forall_not_mem]
    intro s hs
    have := (mem_paths.1 hs).2 c (hrange c hc)
    rw [hnone] at this
    exact List.not_mem_nil this

/-- The compatible paths of an accepted diagram, with some chance states fixed. -/
theorem ofDiagram_toList_exact (hacc : dia.Accepted) (hZ : Z.Fits dia) (hfixed : fixed.OnChance dia)
    (hearlier : ∀ d ∈ dia.D, ∀ i ∈ d.info, i < d.index) :
    ∃ cp, ofDiagram dia Z fixed = .ok cp ∧ cp.toList (α := Rat) = .ok ((paths dia.S fixed).filter Z.allows) := by
  by_cases hchance : ∀ c ∈ dia.indices .chance, 1 ≤ entry dia.S c
  · have hpos := Diagram.counts_pos_of_chance hacc hZ hearlier hchance
    obtain ⟨cp, ss, hcp, -, hlist, -, -, hfilter⟩ := ofDiagram_toList (α := Rat) hacc hpos hZ hfixed
      fun d hd i hi => Or.inr (hearlier d hd i hi)
    refine ⟨cp, hcp, ?_⟩
    rw [hlist, checkFree_unbounded, hfilter hearlier]
    rfl
  · push Not at hchance
    obtain ⟨c, hc, hcount⟩ := hchance
    obtain ⟨⟨cp, hcp, hlist⟩, hnone⟩ := ofDiagram_toList_stateless (Z := Z) hacc hfixed hc (by omega)
    refine ⟨cp, hcp, ?_⟩
    rw [hlist, hnone]
    rfl

end CompatiblePaths
end InfluenceDiagrams
