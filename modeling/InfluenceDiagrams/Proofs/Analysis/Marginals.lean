import InfluenceDiagrams.Proofs.Numeric.Sums
import InfluenceDiagrams.Proofs.Probability.TotalProbability
import InfluenceDiagrams.Analysis.StateProbabilities

/-!
# `InfluenceDiagrams.Proofs.Analysis.Marginals` — amounts added up state by state

State totals go through a list of paths and add the amount of each path at every state on it. What comes
out has, for every state of every node, the amounts of the paths through that state. Each path goes through
one state of every node, so that the line of a node has the amounts of all paths as its sum.

## Contents
- **`massThrough`, `marginals`** — the amounts of the paths through a state, for every state of every node.
- **`sum_marginals`, `nth?_marginals`** — the sum of a line, and the entry for a state.
- **`addAlong?_marginals`** — adding one path.
- **`stateTotals_eq`** — the program computes the marginals of the probabilities.
-/

namespace InfluenceDiagrams

/-- The amounts of the paths with a state at a node, added up. -/
def massThrough (f : Path → Rat) (ss : List Path) (i : Node) (k : State) : Rat :=
  ((ss.filter fun s => entry s i == k).map f).sum

/-- For every node, and for every state of it, the amounts of the paths through the state. -/
def marginals (S : StateCounts) (f : Path → Rat) (ss : List Path) : List (List Rat) :=
  (statesBelow S.length).map fun i => (statesBelow (entry S i)).map (massThrough f ss i)

section

variable {S : StateCounts} (f : Path → Rat)

theorem massThrough_nil (i : Node) : massThrough f [] i = fun _ => 0 := rfl

theorem massThrough_append_singleton (ss : List Path) (s : Path) (i : Node) :
    massThrough f (ss ++ [s]) i = fun k => massThrough f ss i k + if k = entry s i then f s else 0 := by
  funext k
  rw [massThrough, massThrough, List.filter_append, List.map_append, List.sum_append]
  by_cases hk : entry s i = k
  · simp [hk]
  · simp [hk, Ne.symm hk]

theorem massThrough_div (ss : List Path) (norm : Rat) (i : Node) (k : State) :
    massThrough (fun s => f s / norm) ss i k = massThrough f ss i k / norm := by
  simp only [massThrough, div_eq_mul_inv]
  exact List.sum_map_mul_right ..

theorem lengths_marginals (ss : List Path) : (marginals S f ss).map List.length = S.map Int.toNat := by
  conv_rhs => rw [← map_entry_statesBelow S]
  rw [marginals, List.map_map, List.map_map]
  apply List.map_congr_left
  intro i _
  simp

/-- Every path goes through one state of every node. -/
theorem sum_massThrough {ss : List Path} (hss : ∀ s ∈ ss, InSpace S s) {i : Node} (hi : InRange S.length i) :
    ((statesBelow (entry S i)).map (massThrough f ss i)).sum = (ss.map f).sum := by
  induction ss using List.reverseRecOn with
  | nil => simp [massThrough_nil]
  | append_singleton ss s ih =>
      rw [List.forall_mem_append, List.forall_mem_singleton] at hss
      have hmem : entry s i ∈ statesBelow (entry S i) := mem_statesBelow.2 (hss.2.inRange_entry i hi)
      rw [massThrough_append_singleton, List.sum_map_add, ih hss.1, List.sum_map_ite_eq,
        (statesBelow_nodup _).count, if_pos hmem, one_nsmul, List.map_append, List.sum_append, List.map_singleton,
        List.sum_singleton]
      simp

/-- The sum of every line is the sum over all paths. -/
theorem sum_marginals {ss : List Path} (hss : ∀ s ∈ ss, InSpace S s) :
    ∀ row ∈ marginals S f ss, row.sum = (ss.map f).sum := by
  intro row hrow
  obtain ⟨i, hi, rfl⟩ := List.mem_map.1 hrow
  exact sum_massThrough f hss (mem_statesBelow.1 hi)

/-- The entry of a line for a state. -/
theorem nth?_marginals (ss : List Path) {i : Node} (hi : InRange S.length i) {k : State}
    (hk : InRange (entry S i) k) :
    (nth? (marginals S f ss) i).bind (nth? · k) = some (massThrough f ss i k) := by
  rw [marginals, nth?_map_statesBelow hi, Option.bind_some, nth?_map_statesBelow hk]

end

/-! ## Adding a path -/

/-- Add an amount to an entry of a list. -/
def addEntry (p : Rat) (row : List Rat) (k : State) : List Rat := row.set k.toNat (row.getD k.toNat 0 + p)

theorem addAlong?_eq (p : Rat) {rows : List (List Rat)} {s : Path}
    (h : List.Forall₂ (fun (row : List Rat) k => InRange row.length k) rows s) :
    addAlong? p rows s = some (List.zipWith (addEntry p) rows s) := by
  induction h with
  | nil => rfl
  | @cons row k rows s hk _ ih =>
      have hlt := hk.toNat_lt
      have hnth : nth? row k = some row[k.toNat] := by
        rw [nth?, position?_eq hk, Option.bind_some, List.getElem?_eq_getElem hlt]
      have hreplace : ∀ x, replace? row k x = some (row.set k.toNat x) := by
        intro x
        rw [replace?, position?_eq hk]
        rfl
      rw [addAlong?, hnth, Option.bind_some, hreplace, Option.bind_some, ih, List.zipWith_cons_cons, addEntry,
        List.getD_eq_getElem?_getD, List.getElem?_eq_getElem hlt]
      rfl

/-- In a list with an entry for each state, adding to one entry leaves the others. -/
theorem addEntry_map_statesBelow (p : Rat) {n : Int} {k : State} (hk : InRange n k) (g : State → Rat) :
    addEntry p ((statesBelow n).map g) k = (statesBelow n).map fun j => g j + if j = k then p else 0 := by
  have h0 := hk.1
  unfold addEntry
  apply List.ext_getElem (by simp)
  intro i hi hi'
  have hin : i < n.toNat := by simpa using hi'
  rw [List.getElem_set]
  by_cases hki : k.toNat = i
  · subst hki
    simp [statesBelow, h0, hin]
  · have hne : (i : Int) ≠ k := by omega
    simp [statesBelow, hki, hne]

/-- **One step.** Adding an amount along a path adds it at the states on the path. -/
theorem addAlong?_marginals {S : StateCounts} (f : Path → Rat) (ss : List Path) {s : Path} (hs : InSpace S s) :
    addAlong? (f s) (marginals S f ss) s = some (marginals S f (ss ++ [s])) := by
  have hstates : s = (statesBelow S.length).map (entry s) := by
    rw [← hs.length_eq, map_entry_statesBelow]
  have hrange : ∀ i ∈ statesBelow S.length, InRange (entry S i) (entry s i) :=
    fun i hi => hs.inRange_entry i (mem_statesBelow.1 hi)
  rw [addAlong?_eq]
  · congr 1
    conv_lhs => arg 3; rw [hstates]
    rw [marginals, marginals, List.zipWith_map, List.zipWith_self]
    apply List.map_congr_left
    intro i hi
    rw [addEntry_map_statesBelow _ (hrange i hi), massThrough_append_singleton]
  · conv => arg 3; rw [hstates]
    rw [marginals, List.forall₂_map_left_iff, List.forall₂_map_right_iff, List.forall₂_same]
    intro i hi
    obtain ⟨h0, hlt⟩ := hrange i hi
    rw [List.length_map, length_statesBelow]
    exact ⟨h0, by omega⟩

/-! ## State totals -/

variable {dia : Diagram Rat}

/-- **All steps.** The paths are added one after the other. -/
theorem foldlM_addPath_marginals (h : dia.Tabulated) (norm : Rat) {ss : List Path}
    (hss : ∀ s ∈ ss, InSpace dia.S s) (before : List Path) :
    ss.foldlM (addPath dia norm) (marginals dia.S (fun s => dia.prob s / norm) before) =
      .ok (marginals dia.S (fun s => dia.prob s / norm) (before ++ ss)) := by
  induction ss generalizing before with
  | nil =>
      rw [List.append_nil]
      rfl
  | cons s ss ih =>
      obtain ⟨hs, hss⟩ := List.forall_mem_cons.1 hss
      have hstep : addPath dia norm (marginals dia.S (fun s => dia.prob s / norm) before) s =
          .ok (marginals dia.S (fun s => dia.prob s / norm) (before ++ [s])) := by
        rw [addPath, h.eval_prob hs]
        show orFault .outOfRange (addAlong? (dia.prob s / norm) _ s) = _
        rw [addAlong?_marginals (fun s => dia.prob s / norm) before hs]
        rfl
      rw [List.foldlM_cons, hstep]
      show ss.foldlM (addPath dia norm) _ = _
      rw [ih hss, List.append_assoc]
      rfl

theorem marginals_nil (S : StateCounts) (f : Path → Rat) :
    marginals S f [] = S.map fun n => List.replicate n.toNat 0 := by
  conv_rhs => rw [← map_entry_statesBelow S]
  rw [marginals, List.map_map]
  apply List.map_congr_left
  intro i _
  rw [massThrough_nil, List.map_const', length_statesBelow, Function.comp_apply]

/-- The state totals of a list of paths are the marginals of their probabilities, divided by the norm. -/
theorem stateTotals_eq (h : dia.Tabulated) {cp : CompatiblePaths} {ss : List Path}
    (hcp : cp.toList (α := Rat) = .ok ss) (hss : ∀ s ∈ ss, InSpace dia.S s) (norm : Rat) :
    stateTotals dia cp norm = .ok (marginals dia.S (fun s => dia.prob s / norm) ss) := by
  have hzeros : dia.S.mapM (zeros (α := Rat)) = .ok (marginals dia.S (fun s => dia.prob s / norm) []) := by
    rw [marginals_nil]
    exact mapM_eq_pure fun n _ => rfl
  rw [stateTotals, hzeros]
  show cp.foldPaths (addPath dia norm) _ = _
  rw [CompatiblePaths.foldPaths_eq hcp]
  exact foldlM_addPath_marginals h norm hss []

end InfluenceDiagrams
