import Mathlib.Algebra.Order.Ring.Rat
import InfluenceDiagrams.Analysis.StateProbabilities
import InfluenceDiagrams.Proofs.Probability.TotalProbability
import InfluenceDiagrams.Proofs.Program.Outcomes
import InfluenceDiagrams.Proofs.Strategy.CompatibleOrder

/-!
# `InfluenceDiagrams.Proofs.Analysis.Lookups` — going through the paths of a strategy never looks beside a table

The vector that compatible paths are made in is used again and again, and a decision may look at states that are left
from the path before. It finds states of the state space there all the same: the vector starts with zeros, and a chance
state or a selected state is written into it only at its own node. So every path has a probability, a utility and a
place in every list of states, and only the length of a list can keep the paths from being gone through.

Nothing here depends on the numbers, which may be doubles.

## Contents
- **`Diagram.Dimensioned`** — a diagram whose tables have the dimensions of their nodes.
- **`Diagram.Valued`, `Accepted.valued`, `Strategy.Fits.choose_spec`** — looking up a path in space.
- **`Runnable.toList_spec`, `Runnable.foldPaths_spec`** — going through the paths of a strategy.
- **`Valued.expectedUtility_spec`, `Dimensioned.utilityDistribution_spec`, `Dimensioned.stateProbabilities_spec`** — what
  is computed along the way.
-/

namespace InfluenceDiagrams

variable {α : Type}

/-! ## Looking up a path -/

/-- An accepted diagram with a state for every node. The table of a chance node has a dimension for each node that the
chance node depends on and one for itself, and that of a value node one for each node that it depends on. -/
structure Diagram.Dimensioned (dia : Diagram α) : Prop where
  accepted : dia.Accepted
  counts_pos : ∀ n ∈ dia.S, 1 ≤ n
  probability : ∃ P, dia.P = .tables P ∧ P.parts.map Prod.fst = dia.C ∧
    ∀ part ∈ P.parts, part.2.Over dia.S (part.1.info ++ [part.1.index])
  utility : dia.U.Fits dia.S dia.V

theorem Diagram.Ordered.dimensioned {dia : Diagram Rat} (h : dia.Ordered) : dia.Dimensioned := by
  obtain ⟨P, hP, hfits⟩ := h.probability
  exact ⟨h.accepted, h.counts_pos, ⟨P, hP, hfits.nodes, hfits.shaped⟩, h.utility⟩

namespace ProbabilityTables

theorem factor_ok {S : StateCounts} {s : Path} (hs : InSpace S s) {c : InfoNode} {t : Table α}
    (hover : t.Over S (c.info ++ [c.index])) (hinfo : ∀ i ∈ c.info, InRange S.length i)
    (hindex : InRange S.length c.index) : ∃ f, factor s c t = .ok f := by
  obtain ⟨f, hf⟩ := Table.get?_of_inRange (t := t) (hover ▸ indexOf_own hs hinfo hindex)
  refine ⟨f, ?_⟩
  rw [factor, hs.subPath? hinfo, hs.nth? hindex]
  exact Table.lookup_of_get? hf

theorem product_ok [Scalar α] {s : Path} {parts : List (InfoNode × Table α)}
    (h : ∀ part ∈ parts, ∃ f, factor s part.1 part.2 = .ok f) (p : α) : ∃ q, product s p parts = .ok q := by
  induction parts generalizing p with
  | nil => exact ⟨p, rfl⟩
  | cons part parts ih =>
      obtain ⟨f, hf⟩ := h part List.mem_cons_self
      rw [product, hf]
      change ∃ q, (if p * f == 0 then .ok 0 else product s (p * f) parts) = .ok q
      split
      · exact ⟨0, rfl⟩
      · exact ih (fun q hq => h q (List.mem_cons_of_mem _ hq)) _

end ProbabilityTables

/-- An accepted diagram in which every path in space has a probability and a utility, wherever it has them from. -/
structure Diagram.Valued [Scalar α] (dia : Diagram α) : Prop where
  accepted : dia.Accepted
  probability : ∀ s, InSpace dia.S s → ∃ p, dia.P.eval s = .ok p
  utility : ∀ s, InSpace dia.S s → ∃ u, dia.U.eval s = .ok u

/-- Tables with the dimensions of their nodes give every path in space a probability and a utility. -/
theorem Diagram.Accepted.valued [Scalar α] {dia : Diagram α} (h : dia.Accepted)
    (hP : ∃ P, dia.P = .tables P ∧ P.parts.map Prod.fst = dia.C ∧
      ∀ part ∈ P.parts, part.2.Over dia.S (part.1.info ++ [part.1.index]))
    (hU : dia.U.Fits dia.S dia.V) : dia.Valued where
  accepted := h
  probability s hs := by
    obtain ⟨P, hP, hnodes, hover⟩ := hP
    rw [hP]
    apply ProbabilityTables.product_ok
    intro part hpart
    have hn : part.1 ∈ dia.C ++ dia.D := List.mem_append_left _ (hnodes ▸ List.mem_map_of_mem hpart)
    exact ProbabilityTables.factor_ok hs (hover part hpart) (h.info_inRange_of_mem hn) (h.index_inRange hn)
  utility s hs :=
    PathUtility.eval_ok hs (fun v hv => h.info_inRange v (List.mem_append_right _ hv)) hU

theorem Diagram.Dimensioned.valued [Scalar α] {dia : Diagram α} (h : dia.Dimensioned) : dia.Valued :=
  h.accepted.valued h.probability h.utility

/-- In the information state that a path in space has at a decision node, a state of the node is selected. -/
theorem Strategy.Fits.choose_spec {dia : Diagram α} {Z : Strategy} (hZ : Z.Fits dia) (h : dia.Accepted)
    (hpos : ∀ n ∈ dia.S, 1 ≤ n) {d : InfoNode} (hd : d ∈ dia.D) {s : Path} (hs : InSpace dia.S s) :
    ∃ k, Z.choose d.index (d.info.map (entry s)) = (.ok k : Except (Fault α) State) ∧
      InRange (entry dia.S d.index) k := by
  obtain ⟨z, hz, rfl⟩ := hZ.exists_part hd
  have hn : z.node ∈ dia.C ++ dia.D := List.mem_append_right _ hd
  obtain ⟨k, hk, hkr, -⟩ :=
    LocalStrategy.choose?_spec (hZ.parts z hz) (Table.indexOf_map hs (h.info_inRange_of_mem hn))
  refine ⟨k, ?_, ?_⟩
  · rw [Strategy.choose, hZ.part_eq h hz]
    change z.choose _ = _
    rw [LocalStrategy.choose, hk]
  · rwa [entry_eq_extent hpos (h.index_inRange hn)]

/-! ## Going through the paths -/

section Lengths

variable [Lengths]

/-- Choosing the chance states fails only at a length. -/
theorem CompatiblePaths.checkFree_yields (cp : CompatiblePaths) :
    Yields (cp.checkFree (α := α)) (fun _ => True) Fault.OfLength :=
  checkCounts_yields .empty _ 0

theorem zeros_yields [Scalar α] (n : Int) :
    Yields (zeros (α := α) n) (fun row => row = List.replicate n.toNat 0) Fault.OfLength := by
  unfold zeros
  split
  · exact rfl
  · trivial

/-- Lists that can be made have one place for every state. -/
theorem mapM_zeros_yields [Scalar α] (S : StateCounts) :
    Yields (S.mapM (zeros (α := α))) (fun totals => totals = S.map fun n => List.replicate n.toNat 0)
      Fault.OfLength := by
  refine (Yields.mapM fun n _ => zeros_yields n).mono (fun totals _ htotals => ?_) fun _ hf => hf
  have heq : List.Forall₂ (· = ·) totals (S.map fun n => List.replicate n.toNat 0) :=
    List.forall₂_map_right_iff.2 htotals.flip
  rwa [List.forall₂_eq_eq_eq] at heq

end Lengths

namespace CompatiblePaths.Runnable

variable {cp : CompatiblePaths}

/-- From its start on, the iterator lists paths in space, one for every way of choosing the chance states. -/
theorem pathsFrom_start (h : cp.Runnable) :
    ∃ ss, cp.pathsFrom (α := α) cp.start (Fillable.chances cp) = .ok ss ∧
      ss.length = (Fillable.chances cp).length ∧ ∀ s ∈ ss, InSpace cp.S s := by
  have hchances : ∀ chance ∈ Fillable.chances cp, List.Forall₂ (fun c x => InRange (entry cp.S c) x) cp.C chance :=
    fun _ hc => h.mem_chance_choices hc
  exact h.pathsFrom_spec hchances h.start_inSpace

/-- Listing the paths asks for nothing but that the chance states can be listed. -/
theorem toList_spec [Lengths] (h : cp.Runnable) :
    ∃ ss, cp.toList (α := α) = cp.checkFree.map (fun _ => ss) ∧ ss.length = (Fillable.chances cp).length ∧
      ∀ s ∈ ss, InSpace cp.S s := by
  obtain ⟨ss, hss, hlen, hall⟩ := h.pathsFrom_start (α := α)
  refine ⟨ss, ?_, hlen, hall⟩
  rw [toList, Fillable.chanceStates_eq_checkFree h.chance_inRange]
  cases cp.checkFree (α := α) with
  | error f => rfl
  | ok _ => exact hss

/-- **Going through the paths.** If the step succeeds at every path in space and keeps a property, so does the run,
unless the chance states cannot be listed. -/
theorem foldPaths_spec [Lengths] (h : cp.Runnable) {σ : Type} {step : σ → Path → Except (Fault α) σ} {p : σ → Prop}
    (hstep : ∀ acc, p acc → ∀ s, InSpace cp.S s → ∃ next, step acc s = .ok next ∧ p next) (init : σ) (hinit : p init) :
    ∃ r, cp.foldPaths step init = cp.checkFree.map (fun _ => r) ∧ p r := by
  obtain ⟨ss, hss, -, hall⟩ := h.pathsFrom_start (α := α)
  have hrun : Yields (ss.foldlM step init) p fun _ => False := by
    refine Yields.foldlM (fun acc hacc s hs => ?_) hinit
    obtain ⟨next, hnext, hp⟩ := hstep acc hacc s (hall s hs)
    exact Yields.of_eq_ok hnext hp
  obtain ⟨r, hr, hp⟩ := hrun.exists_ok
  refine ⟨r, ?_, hp⟩
  rw [foldPaths, Fillable.chanceStates_eq_checkFree h.chance_inRange]
  cases cp.checkFree (α := α) with
  | error f => rfl
  | ok _ =>
      change cp.foldFrom step cp.start init (Fillable.chances cp) = .ok r
      rw [foldFrom_eq cp step _ _ _ _ hss, hr]

end CompatiblePaths.Runnable

/-! ## What is computed along the way -/

theorem FixedStates.onChance_empty (dia : Diagram α) : FixedStates.empty.OnChance dia :=
  fun _ hp => absurd hp List.not_mem_nil

/-- A path in space has a state for every node, each below the count of the node. -/
theorem InSpace.forall₂ {S : StateCounts} {s : Path} (h : InSpace S s) : List.Forall₂ (fun n k => InRange n k) S s := by
  have hmem := mem_paths_empty.2 h
  rw [paths_empty, mem_choices, List.forall₂_map_right_iff] at hmem
  exact hmem.flip.imp fun _ _ hk => mem_statesBelow.1 hk

/-- Along a path whose states have places in some lists, an amount is added to each of the lists. -/
theorem addAlong?_spec [Scalar α] (p : α) {rows : List (List α)} {s : Path}
    (h : List.Forall₂ (fun (row : List α) k => InRange row.length k) rows s) :
    ∃ totals, addAlong? p rows s = some totals ∧ totals.map List.length = rows.map List.length := by
  induction h with
  | nil => exact ⟨[], rfl, rfl⟩
  | @cons row k rows s hk _ ih =>
      obtain ⟨totals, htotals, hlen⟩ := ih
      have hlt := hk.toNat_lt
      have hnth : nth? row k = some row[k.toNat] := by
        rw [nth?, position?_eq hk, Option.bind_some, List.getElem?_eq_getElem hlt]
      have hreplace : ∀ x, replace? row k x = some (row.set k.toNat x) := by
        intro x
        rw [replace?, position?_eq hk]
        rfl
      refine ⟨row.set k.toNat (row[k.toNat] + p) :: totals, ?_, ?_⟩
      · rw [addAlong?, hnth, Option.bind_some, hreplace, Option.bind_some, htotals, Option.map_some]
      · rw [List.map_cons, List.map_cons, hlen, List.length_set]

variable {dia : Diagram α} {Z : Strategy}

theorem overPaths_spec [Lengths] (hacc : dia.Accepted) (hpos : ∀ n ∈ dia.S, 1 ≤ n) (hZ : Z.Fits dia) {σ : Type}
    {step : σ → Path → Except (Fault α) σ} (hstep : ∀ acc s, InSpace dia.S s → ∃ next, step acc s = .ok next)
    (init : σ) : ∃ r, overPaths dia Z step init = (CompatiblePaths.arranged dia Z .empty).checkFree.map fun _ => r := by
  have hfixed := FixedStates.onChance_empty dia
  have hrun := CompatiblePaths.arranged_runnable hacc hpos hZ hfixed
  have hkept : ∀ acc, True → ∀ s, InSpace dia.S s → ∃ next, step acc s = .ok next ∧ True :=
    fun acc _ s hs => (hstep acc s hs).imp fun _ hnext => ⟨hnext, trivial⟩
  obtain ⟨r, hr, -⟩ := hrun.foldPaths_spec hkept init trivial
  refine ⟨r, ?_⟩
  rw [overPaths, CompatiblePaths.ofDiagram_eq hacc hfixed]
  exact hr

variable [Scalar α]

namespace Diagram.Valued

theorem weightedUtility_ok (h : dia.Valued) {s : Path} (hs : InSpace dia.S s) :
    ∃ x, weightedUtility dia s = .ok x := by
  obtain ⟨p, hp⟩ := h.probability s hs
  obtain ⟨u, hu⟩ := h.utility s hs
  refine ⟨p * u, ?_⟩
  rw [weightedUtility, hp, hu]
  rfl

/-- There is an expected utility if the chance states can be listed. -/
theorem expectedUtility_spec [Lengths] (h : dia.Valued) (hpos : ∀ n ∈ dia.S, 1 ≤ n) (hZ : Z.Fits dia) :
    ∃ u, expectedUtility dia Z = (CompatiblePaths.arranged dia Z .empty).checkFree.map fun _ => u := by
  refine overPaths_spec h.accepted hpos hZ (fun total s hs => ?_) 0
  obtain ⟨x, hx⟩ := h.weightedUtility_ok hs
  exact ⟨total + x, by rw [hx]; rfl⟩

end Diagram.Valued

namespace Diagram.Dimensioned

/-- There is a distribution of the utility if the chance states can be listed. -/
theorem utilityDistribution_spec [Lengths] (h : dia.Dimensioned) (hZ : Z.Fits dia) :
    ∃ dist, utilityDistribution dia Z = (CompatiblePaths.arranged dia Z .empty).checkFree.map fun _ => dist := by
  have hstep : ∀ mass s, InSpace dia.S s → ∃ next, addMass dia mass s = .ok next := by
    intro mass s hs
    obtain ⟨p, hp⟩ := h.valued.probability s hs
    obtain ⟨u, hu⟩ := h.valued.utility s hs
    rw [addMass, hp, hu]
    by_cases hzero : (p == 0) = true
    · exact ⟨mass, if_pos hzero⟩
    · exact ⟨_, if_neg hzero⟩
  obtain ⟨mass, hmass⟩ := overPaths_spec h.accepted h.counts_pos hZ hstep []
  refine ⟨⟨ascending (fun a b => decide (a.1 < b.1)) (fun a => a.1 == a.1) mass⟩, ?_⟩
  rw [utilityDistribution, hmass]
  cases (CompatiblePaths.arranged dia Z .empty).checkFree (α := α) <;> rfl

/-- **One step.** Every state of a path in space has a place among the totals. -/
theorem addPath_spec (h : dia.Dimensioned) (norm : α) {totals : List (List α)}
    (htotals : totals.map List.length = dia.S.map Int.toNat) {s : Path} (hs : InSpace dia.S s) :
    ∃ next, addPath dia norm totals s = .ok next ∧ next.map List.length = dia.S.map Int.toNat := by
  obtain ⟨p, hp⟩ := h.valued.probability s hs
  have hplaces : List.Forall₂ (fun (row : List α) k => InRange row.length k) totals s := by
    have hcounts : List.Forall₂ (fun (n : Nat) k => InRange n k) (dia.S.map Int.toNat) s := by
      rw [List.forall₂_map_left_iff]
      refine hs.forall₂.imp fun n k hk => ?_
      obtain ⟨h0, hlt⟩ := hk
      exact ⟨h0, by omega⟩
    rwa [← htotals, List.forall₂_map_left_iff] at hcounts
  obtain ⟨next, hnext, hlen⟩ := addAlong?_spec (p / norm) hplaces
  refine ⟨next, ?_, hlen.trans htotals⟩
  rw [addPath, hp]
  change orFault .outOfRange (addAlong? (p / norm) totals s) = _
  rw [hnext]
  rfl

/-- There are state probabilities if the states of all nodes can be listed. -/
theorem stateProbabilities_spec [Lengths] (h : dia.Dimensioned) (hZ : Z.Fits dia) :
    ∃ r, stateProbabilities dia Z none none none = (dia.S.mapM (zeros (α := α))).bind fun _ =>
      (CompatiblePaths.arranged dia Z .empty).checkFree.map fun _ => r := by
  have hfixed := FixedStates.onChance_empty dia
  have hrun := CompatiblePaths.arranged_runnable h.accepted h.counts_pos hZ hfixed
  have hkept : ∀ totals : List (List α), totals.map List.length = dia.S.map Int.toNat → ∀ s, InSpace dia.S s →
      ∃ next, addPath dia 1 totals s = .ok next ∧ next.map List.length = dia.S.map Int.toNat :=
    fun _ htotals _ hs => h.addPath_spec 1 htotals hs
  obtain ⟨r, hr, -⟩ :=
    hrun.foldPaths_spec hkept (dia.S.map fun n => List.replicate n.toNat 0) (by simp [Function.comp_def])
  refine ⟨⟨r, .empty, 1⟩, ?_⟩
  change StateProbabilities.unconditional dia Z = _
  rw [StateProbabilities.unconditional, CompatiblePaths.ofDiagram_eq h.accepted hfixed]
  change (stateTotals dia (CompatiblePaths.arranged dia Z .empty) 1).bind _ = _
  unfold stateTotals
  cases hmade : dia.S.mapM (zeros (α := α)) with
  | error f => rfl
  | ok totals =>
      obtain rfl := (mapM_zeros_yields dia.S).of_ok hmade
      change ((CompatiblePaths.arranged dia Z .empty).foldPaths (addPath dia 1) _).bind _ = _
      rw [hr]
      change Except.bind _ _ = Except.map _ _
      cases (CompatiblePaths.arranged dia Z .empty).checkFree (α := α) <;> rfl

end Diagram.Dimensioned
end InfluenceDiagrams
