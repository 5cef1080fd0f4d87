import Mathlib.Tactic.Linarith
import InfluenceDiagrams.Proofs.Probability.TotalProbability

/-!
# `InfluenceDiagrams.Proofs.Diagram.Shift` — shifted utilities

A shift goes through the utilities of all paths of a state space and adds a constant to them. In a well-formed
diagram there is a path, and all paths have utilities, so that the shift succeeds. It leaves everything else as it
is, and the diagram is well-formed again, so that one shift may follow on another.

## Contents
- **`exists_inSpace`** — there is a path.
- **`Ordered.withUtility`** — a diagram with other tables for its value nodes.
- **`Ordered.utility_shifted`** — the utilities after a shift.
- **`Shift.Reached`** — the least utility is one, or the greatest minus one.
- **`Ordered.shift_ok`, `Ordered.shifts_ok`** — one shift, and shifts on top of each other.
- **`WellFormed.shift_positive`** — the positive shift of a well-formed diagram.
-/

namespace InfluenceDiagrams

/-- If every node has a state, all nodes may be in their first one. -/
theorem exists_inSpace {S : StateCounts} (h : ∀ n ∈ S, 1 ≤ n) : ∃ s, InSpace S s := by
  refine ⟨S.map fun _ => 0, List.length_map _, ?_⟩
  intro k hk
  have hlt : k.toNat < (S.map fun _ => (0 : State)).length := by
    rw [List.length_map]
    exact hk.toNat_lt
  rw [entry_eq_getElem hlt, List.getElem_map]
  exact ⟨le_rfl, entry_pos h hk⟩

/-- What a shift is made for: one is the least utility of a path, or minus one the greatest. -/
def Shift.Reached (dia : Diagram Rat) : Shift → Prop
  | .positive => (∀ s, InSpace dia.S s → 1 ≤ dia.utility s) ∧ ∃ s, InSpace dia.S s ∧ dia.utility s = 1
  | .negative => (∀ s, InSpace dia.S s → dia.utility s ≤ -1) ∧ ∃ s, InSpace dia.S s ∧ dia.utility s = -1

namespace Diagram.Ordered

variable {dia : Diagram Rat}

theorem withUtility (h : dia.Ordered) {U : PathUtility Rat} (hU : U.Fits dia.S dia.V) :
    (dia.withUtility U).Ordered where
  accepted := accepted_iff.2 ⟨h.accepted.indices_perm, h.accepted.info_inRange⟩
  counts_pos := h.counts_pos
  info_lt := h.info_lt
  probability := h.probability
  utility := hU

theorem utility_shifted (h : dia.Ordered) (t : Rat) {s : Path} (hs : InSpace dia.S s) :
    (dia.withUtility (.shifted dia.U t)).utility s = dia.utility s + t := by
  show ((dia.U.eval s).map (· + t)).toOption.getD 0 = _
  rw [h.eval_utility hs]
  rfl

/-- The utilities of all paths. -/
theorem values_eq (h : dia.Ordered) : dia.U.values dia.S = .ok ((paths dia.S .empty).map dia.utility) := by
  rw [PathUtility.values, listPaths_unbounded]
  exact mapM_eq_pure fun s hs => h.eval_utility (mem_paths_empty.1 hs)

theorem shift_eq (h : dia.Ordered) {direction : Shift} {t : Rat}
    (ht : PathUtility.shiftAmount? direction ((paths dia.S .empty).map dia.utility) = some t) :
    dia.shift direction = .ok (dia.withUtility (.shifted dia.U t)) := by
  rw [Diagram.shift, PathUtility.shift, h.values_eq]
  show Except.map _ (do
    let t ← orFault Fault.emptyExtremum (PathUtility.shiftAmount? direction _)
    .ok (.shifted dia.U t) : Except (Fault Rat) (PathUtility Rat)) = _
  rw [ht]
  rfl

/-- **One shift.** It succeeds, and the diagram with the shifted utility has what the shift is made for. -/
theorem shift_ok (h : dia.Ordered) (direction : Shift) :
    ∃ t, dia.shift direction = .ok (dia.withUtility (.shifted dia.U t)) ∧
      direction.Reached (dia.withUtility (.shifted dia.U t)) := by
  obtain ⟨s, hs⟩ := exists_inSpace h.counts_pos
  have hne : (paths dia.S .empty).map dia.utility ≠ [] :=
    List.ne_nil_of_mem (List.mem_map_of_mem (mem_paths_empty.2 hs))
  have hmem : ∀ s, InSpace dia.S s → dia.utility s ∈ (paths dia.S .empty).map dia.utility :=
    fun s hs => List.mem_map_of_mem (mem_paths_empty.2 hs)
  cases direction with
  | positive =>
      obtain ⟨m, hm, hleast, hle⟩ := least?_spec hne
      obtain ⟨t, ht, rfl⟩ := List.mem_map.1 hm
      have hamount := congrArg (Option.map fun u => -(u - 1)) hleast
      refine ⟨_, h.shift_eq hamount, ?_, t, mem_paths_empty.1 ht, ?_⟩
      · intro s hs
        rw [h.utility_shifted _ hs]
        have := hle _ (hmem s hs)
        linarith
      · rw [h.utility_shifted _ (mem_paths_empty.1 ht)]
        ring
  | negative =>
      obtain ⟨m, hm, hgreatest, hle⟩ := greatest?_spec hne
      obtain ⟨t, ht, rfl⟩ := List.mem_map.1 hm
      have hamount := congrArg (Option.map fun u => -(u + 1)) hgreatest
      refine ⟨_, h.shift_eq hamount, ?_, t, mem_paths_empty.1 ht, ?_⟩
      · intro s hs
        rw [h.utility_shifted _ hs]
        have := hle _ (hmem s hs)
        linarith
      · rw [h.utility_shifted _ (mem_paths_empty.1 ht)]
        ring

/-- **All shifts.** Shifts on top of each other succeed; each wraps the utility once, and the last one reaches
what it is made for. -/
theorem shifts_ok (h : dia.Ordered) (directions : List Shift) :
    ∃ amounts : List Rat, amounts.length = directions.length ∧
      dia.shifts directions = .ok (dia.withUtility (amounts.foldl .shifted dia.U)) ∧
      (dia.withUtility (amounts.foldl .shifted dia.U)).Ordered ∧
      ∀ direction, directions.getLast? = some direction →
        direction.Reached (dia.withUtility (amounts.foldl .shifted dia.U)) := by
  induction directions using List.reverseRecOn with
  | nil => exact ⟨[], rfl, rfl, h, by simp⟩
  | append_singleton directions direction ih =>
      obtain ⟨amounts, hlen, hrun, hordered, -⟩ := ih
      obtain ⟨t, hshift, hreached⟩ := hordered.shift_ok direction
      refine ⟨amounts ++ [t], by simp [hlen], ?_, ?_, ?_⟩
      · rw [Diagram.shifts, List.foldlM_append]
        show (dia.shifts directions).bind _ = _
        rw [hrun, List.foldl_append]
        show [direction].foldlM shift _ = _
        rw [List.foldlM_cons, hshift]
        rfl
      · rw [List.foldl_append]
        exact hordered.withUtility hordered.utility
      · intro last hlast
        obtain rfl : direction = last := by simpa using hlast
        rw [List.foldl_append]
        exact hreached

end Diagram.Ordered

namespace Diagram.WellFormed

variable {dia : Diagram Rat}

theorem withUtility (h : dia.WellFormed) {U : PathUtility Rat} (hU : U.Fits dia.S dia.V) :
    (dia.withUtility U).WellFormed where
  accepted := (h.ordered.withUtility hU).accepted
  counts_pos := h.counts_pos
  info_nodup := h.info_nodup
  info_lt := h.info_lt
  probability := h.probability
  utility := hU

theorem utility_shifted (h : dia.WellFormed) (t : Rat) {s : Path} (hs : InSpace dia.S s) :
    (dia.withUtility (.shifted dia.U t)).utility s = dia.utility s + t :=
  h.ordered.utility_shifted t hs

/-- **The positive shift.** It succeeds, and one is the least utility of a path then. -/
theorem shift_positive (h : dia.WellFormed) :
    ∃ t, dia.shift .positive = .ok (dia.withUtility (.shifted dia.U t)) ∧
      (∀ s, InSpace dia.S s → 1 ≤ dia.utility s + t) ∧ ∃ s, InSpace dia.S s ∧ dia.utility s + t = 1 := by
  obtain ⟨t, hshift, hleast, s, hs, hone⟩ := h.ordered.shift_ok .positive
  refine ⟨t, hshift, fun s hs => ?_, s, hs, ?_⟩
  · rw [← h.utility_shifted t hs]
    exact hleast s hs
  · rw [← h.utility_shifted t hs]
    exact hone

end Diagram.WellFormed
end InfluenceDiagrams
