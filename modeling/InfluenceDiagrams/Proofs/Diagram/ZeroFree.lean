import Mathlib.Algebra.Order.BigOperators.Group.List
import Mathlib.Tactic.Linarith
import InfluenceDiagrams.Proofs.Probability.TotalProbability

/-!
# `InfluenceDiagrams.Proofs.Diagram.ZeroFree` — probability tables without zeros

If no entry of a probability table is zero, all entries of a well-formed diagram are positive, and so are the
probabilities of all paths. The least entry tells something about the state counts. The entries of a line sum
up to one, so that an entry is below one where the node has two states or more, and is one where it has a single
state.

## Contents
- **`Table.exists_row_of_mem`, `Table.mem_entries_of_row`** — the entries of a table are those of its lines.
- **`Diagram.ZeroFree`**, **`WellFormed.prob_pos`** — no entry is zero, and every path has positive probability.
- **`Diagram.Certain`**, **`WellFormed.not_certain_iff`** — no chance node has a choice of states.
- **`WellFormed.minPositive_lt_one_iff`** — the least positive entry is below one unless that is so.
-/

namespace InfluenceDiagrams

/-! ## Entries and lines -/

namespace Table

theorem places_pos {shape : List Nat} (h : ∀ n ∈ shape, 0 < n) : 0 < places shape := by
  induction shape with
  | nil => exact Nat.one_pos
  | cons n shape ih =>
      obtain ⟨hn, hshape⟩ := List.forall_mem_cons.1 h
      exact Nat.mul_pos hn (ih hshape)

variable {β : Type} {t : Table β}

/-- Every entry stands in a line. -/
theorem exists_row_of_mem {lead : List Nat} {n : Nat} (hs : t.shape = lead ++ [n]) {x : β} (hx : x ∈ t.entries) :
    ∃ row ∈ t.rows, x ∈ row ∧ row.length = n := by
  obtain ⟨j, hj, rfl⟩ := List.getElem_of_mem hx
  have hsize : t.entries.length = n * places lead := by
    rw [t.size_eq, hs, places_append, places_cons, places_nil, Nat.mul_one, Nat.mul_comm]
  have hn : 0 < n := by
    rw [hsize] at hj
    exact Nat.pos_of_mul_pos_right (Nat.zero_lt_of_lt hj)
  -- the line and the place in it are quotient and remainder
  have hline : j / n < places lead := Nat.div_lt_of_lt_mul (hsize ▸ hj)
  refine ⟨t.rowAt (j / n), ?_, ?_, length_rowAt hs hline⟩
  · rw [rows, rowShape_eq hs]
    exact List.mem_map_of_mem (List.mem_range.2 hline)
  · apply List.mem_of_getElem? (i := j % n)
    rw [getElem?_rowAt (by rw [width_eq hs]; exact Nat.mod_lt j hn), width_eq hs, Nat.div_add_mod',
      List.getElem?_eq_getElem hj]

theorem mem_entries_of_row {row : List β} (hrow : row ∈ t.rows) {x : β} (hx : x ∈ row) : x ∈ t.entries := by
  obtain ⟨i, -, rfl⟩ := List.mem_map.1 hrow
  exact List.mem_of_mem_drop (List.mem_of_mem_take hx)

end Table

/-! ## Lines of positive numbers -/

/-- A number in a list of positive numbers that sum up to one is one if the list has no other place, and below
one otherwise. -/
theorem lt_one_iff_of_sum_eq_one {row : List Rat} (hpos : ∀ q ∈ row, 0 < q) (hsum : row.sum = 1) {x : Rat}
    (hx : x ∈ row) : x < 1 ↔ 2 ≤ row.length := by
  obtain ⟨before, after, rfl⟩ := List.append_of_mem hx
  rw [List.sum_append, List.sum_cons] at hsum
  rw [List.forall_mem_append, List.forall_mem_cons] at hpos
  rw [List.length_append, List.length_cons]
  have hbefore : before ≠ [] → 0 < before.sum := fun hne => List.sum_pos before hpos.1 hne
  have hafter : after ≠ [] → 0 < after.sum := fun hne => List.sum_pos after hpos.2.2 hne
  rcases eq_or_ne before [] with rfl | hne
  · rcases eq_or_ne after [] with rfl | hne'
    · simp at hsum ⊢
      exact le_of_eq hsum.symm
    · have := hafter hne'
      have := List.length_pos_iff.2 hne'
      simp only [List.sum_nil, List.length_nil] at hsum ⊢
      exact iff_of_true (by linarith) (by omega)
  · have := hbefore hne
    have := List.length_pos_iff.2 hne
    have : 0 ≤ after.sum := List.sum_nonneg fun q hq => le_of_lt (hpos.2.2 q hq)
    exact iff_of_true (by linarith) (by omega)

/-! ## Diagrams -/

namespace Diagram

/-- No entry of a probability table is zero. -/
def ZeroFree (dia : Diagram Rat) : Prop := ∀ P, dia.P = .tables P → P.hasStructuralZeros = false

/-- There are chance nodes, and each of them has a single state. -/
def Certain {α : Type} (dia : Diagram α) : Prop := dia.C ≠ [] ∧ ∀ c ∈ dia.C, entry dia.S c.index = 1

instance {α : Type} (dia : Diagram α) : Decidable dia.Certain :=
  inferInstanceAs (Decidable (dia.C ≠ [] ∧ ∀ c ∈ dia.C, entry dia.S c.index = 1))

namespace WellFormed

variable {dia : Diagram Rat} {P : ProbabilityTables Rat} {part : InfoNode × Table Rat}

section Entries

variable (h : dia.WellFormed) (hzero : dia.ZeroFree) (hP : dia.P = .tables P) (hfits : P.Fits dia.S dia.C)

include hzero hP hfits in
theorem pos_of_mem_entries (hpart : part ∈ P.parts) {x : Rat} (hx : x ∈ part.2.entries) : 0 < x := by
  have hne : x ≠ 0 := by
    have := List.any_eq_false.1 (List.any_eq_false.1 (hzero P hP) part hpart |> Bool.eq_false_iff.2) x hx
    rwa [beq_iff_eq] at this
  obtain ⟨row, hrow, hmem, -⟩ := Table.exists_row_of_mem (hfits.shaped part hpart).shape_append hx
  exact lt_of_le_of_ne ((hfits.stochastic part hpart row hrow).1 x hmem) hne.symm

include hzero hP hfits in
/-- An entry is below one if its node has another state. -/
theorem lt_one_iff_of_mem_entries (hpart : part ∈ P.parts) {x : Rat} (hx : x ∈ part.2.entries) :
    x < 1 ↔ 2 ≤ Table.extent dia.S part.1.index := by
  obtain ⟨row, hrow, hmem, hlen⟩ := Table.exists_row_of_mem (hfits.shaped part hpart).shape_append hx
  rw [← hlen]
  refine lt_one_iff_of_sum_eq_one ?_ (hfits.stochastic part hpart row hrow).2 hmem
  intro q hq
  exact pos_of_mem_entries hzero hP hfits hpart (Table.mem_entries_of_row hrow hq)

include h hfits in
theorem exists_mem_entries (hpart : part ∈ P.parts) : ∃ x, x ∈ part.2.entries := by
  have hn : part.1 ∈ dia.C ++ dia.D := List.mem_append_left _ (hfits.mem_chance hpart)
  apply List.exists_mem_of_length_pos
  rw [part.2.size_eq, hfits.shaped part hpart]
  apply Table.places_pos
  intro n hn'
  obtain ⟨k, hk, rfl⟩ := List.mem_map.1 hn'
  have hrange : InRange dia.S.length k := by
    rcases List.mem_append.1 hk with hk | hk
    · exact (h.info_before hn k hk).1
    · rw [List.mem_singleton.1 hk]
      exact h.index_inRange hn
  have := entry_pos h.counts_pos hrange
  rw [Table.extent]
  omega

include h hfits in
/-- If there are chance nodes, they are certain unless one of them has another state. -/
theorem not_certain_iff (hparts : P.parts ≠ []) :
    ¬dia.Certain ↔ ∃ part ∈ P.parts, 2 ≤ Table.extent dia.S part.1.index := by
  have hC : dia.C ≠ [] := hfits.nodes ▸ mt List.map_eq_nil_iff.1 hparts
  rw [Certain, and_iff_right hC, ← hfits.nodes, List.forall_mem_map]
  push Not
  refine exists_congr fun part => and_congr_right fun hpart => ?_
  have hrange := h.index_inRange (List.mem_append_left _ (hfits.mem_chance hpart))
  have hpos := entry_pos h.counts_pos hrange
  rw [entry_eq_extent h.counts_pos hrange] at hpos ⊢
  omega

include h hzero hP hfits in
/-- The least positive entry is below one unless there are chance nodes and none of them has a choice. -/
theorem minPositive_lt_one_iff : P.minPositive < 1 ↔ ¬dia.Certain := by
  let positive := P.parts.flatMap fun part => part.2.entries.filter fun x => decide (0 < x)
  have hmem : ∀ {x}, x ∈ positive ↔ ∃ part ∈ P.parts, x ∈ part.2.entries := by
    intro x
    rw [List.mem_flatMap]
    refine exists_congr fun part => and_congr_right fun hpart => ?_
    rw [List.mem_filter, decide_eq_true_eq]
    exact and_iff_left_of_imp (pos_of_mem_entries hzero hP hfits hpart)
  change (Scalar.least? positive).getD 0 < 1 ↔ _
  rcases eq_or_ne P.parts [] with hparts | hparts
  · -- without tables there is no entry, and without chance nodes nothing is certain
    have hnone : positive = [] := by simp [positive, hparts]
    have hC : dia.C = [] := by rw [← hfits.nodes, hparts, List.map_nil]
    rw [hnone]
    exact iff_of_true (show (0 : Rat) < 1 from zero_lt_one) fun hcertain => hcertain.1 hC
  · obtain ⟨first, hfirst⟩ := List.exists_mem_of_ne_nil _ hparts
    obtain ⟨x, hx⟩ := exists_mem_entries h hfits hfirst
    obtain ⟨m, hm, hleast, hle⟩ := least?_spec (List.ne_nil_of_mem (hmem.2 ⟨first, hfirst, hx⟩))
    rw [hleast, Option.getD_some, not_certain_iff h hfits hparts]
    constructor
    · intro hlt
      obtain ⟨part, hpart, hm⟩ := hmem.1 hm
      exact ⟨part, hpart, (lt_one_iff_of_mem_entries hzero hP hfits hpart hm).1 hlt⟩
    · rintro ⟨part, hpart, htwo⟩
      -- the table of a node with another state has an entry, and all of its entries are below one
      obtain ⟨y, hy⟩ := exists_mem_entries h hfits hpart
      exact lt_of_le_of_lt (hle y (hmem.2 ⟨part, hpart, hy⟩))
        ((lt_one_iff_of_mem_entries hzero hP hfits hpart hy).2 htwo)

theorem minPositive_nonneg (P : ProbabilityTables Rat) : 0 ≤ P.minPositive := by
  show 0 ≤ (Scalar.least? (P.parts.flatMap fun part => part.2.entries.filter fun x => decide (0 < x))).getD 0
  generalize hpositive : (P.parts.flatMap fun part => part.2.entries.filter fun x => decide (0 < x)) = positive
  rcases eq_or_ne positive [] with rfl | hne
  · exact le_rfl
  · obtain ⟨m, hm, hleast, -⟩ := least?_spec hne
    rw [hleast, Option.getD_some]
    rw [← hpositive] at hm
    obtain ⟨part, -, hm⟩ := List.mem_flatMap.1 hm
    rw [List.mem_filter, decide_eq_true_eq] at hm
    exact le_of_lt hm.2

end Entries

/-- Without zeros every path has a positive probability. -/
theorem prob_pos (h : dia.WellFormed) (hzero : dia.ZeroFree) {s : Path} (hs : InSpace dia.S s) : 0 < dia.prob s := by
  obtain ⟨P, hP, hfits⟩ := h.probability
  rw [Diagram.prob, h.tabulated.eval_entries hP hfits.toShaped hs]
  show 0 < (P.parts.map fun part => ProbabilityTables.entryAt part s).prod
  apply List.prod_pos
  intro x hx
  obtain ⟨part, hpart, rfl⟩ := List.mem_map.1 hx
  have hn : part.1 ∈ dia.C ++ dia.D := List.mem_append_left _ (hfits.mem_chance hpart)
  have hcell := ProbabilityTables.get?_own hs (hfits.shaped part hpart) (fun i hi => (h.info_before hn i hi).1)
    (h.index_inRange hn)
  obtain ⟨i, -, hi⟩ := Option.bind_eq_some_iff.1 hcell
  exact pos_of_mem_entries hzero hP hfits hpart (List.mem_of_getElem? hi)

end WellFormed
end Diagram

/-! ## Examples -/

/-- A fair coin, a guess at the side that is seen, and a reward for guessing right. -/
def fairCoin : Diagram Rat where
  S := [2, 2]
  C := [⟨0, []⟩]
  D := [⟨1, [0]⟩]
  V := [⟨2, [0, 1]⟩]
  P := .tables ⟨[(⟨0, []⟩, ⟨[2], [1/2, 1/2], rfl⟩)]⟩
  U := .tables [(⟨2, [0, 1]⟩, ⟨[2, 2], [1, 0, 0, 1], rfl⟩)] 0

theorem fairCoin_wellFormed : fairCoin.WellFormed where
  accepted := Diagram.accepted_iff.2 (by decide)
  counts_pos := by decide
  info_nodup := by decide
  info_lt := by decide
  probability := ⟨_, rfl, by decide, by decide, by decide +kernel⟩
  utility := ⟨rfl, by decide⟩

theorem fairCoin_zeroFree : fairCoin.ZeroFree := by
  rintro P ⟨⟩
  decide +kernel

/-- Guess the side that is seen. -/
def fairCoinStrategy : Strategy := ⟨[⟨⟨1, [0]⟩, ⟨[2, 2], [true, false, false, true], by decide⟩⟩]⟩

theorem fairCoinStrategy_fits : fairCoinStrategy.Fits fairCoin where
  nodes := by decide
  parts := by
    intro z hz
    rw [List.mem_singleton.1 hz]
    exact ⟨by decide, by decide⟩

/-- A chance node with a single state. -/
def foregone : Diagram Rat where
  S := [1]
  C := [⟨0, []⟩]
  D := []
  V := []
  P := .tables ⟨[(⟨0, []⟩, ⟨[1], [1], rfl⟩)]⟩
  U := .tables [] 0

theorem foregone_wellFormed : foregone.WellFormed where
  accepted := Diagram.accepted_iff.2 (by decide)
  counts_pos := by decide
  info_nodup := by decide
  info_lt := by decide
  probability := ⟨_, rfl, by decide, by decide, by decide +kernel⟩
  utility := ⟨rfl, by decide⟩

theorem foregone_zeroFree : foregone.ZeroFree := by
  rintro P ⟨⟩
  decide +kernel

end InfluenceDiagrams
