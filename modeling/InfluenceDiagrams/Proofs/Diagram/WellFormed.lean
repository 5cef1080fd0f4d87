import Mathlib.Data.Rat.Defs
import Mathlib.Algebra.Order.Ring.Rat
import Mathlib.Algebra.BigOperators.Group.List.Basic
import InfluenceDiagrams.Strategy.Basic
import InfluenceDiagrams.Proofs.Diagram.Cells
import InfluenceDiagrams.Proofs.Numeric.Sorting

/-!
# `InfluenceDiagrams.Proofs.Diagram.WellFormed` — diagrams whose tables fit their nodes

Acceptance says that nodes are numbered by the places of the state space and observe such places only.
A well-formed diagram has more: every node has a state, nodes observe earlier nodes, tables have a
dimension for every node they depend on, and the lines of a probability table are distributions. A
strategy fits a diagram when it has a table of matching shape for every decision node, each line
selecting one state.

## Contents
- **`Diagram.accepted_iff`** — what acceptance says.
- **`ProbabilityTables.Shaped`, `Diagram.Tabulated`** — diagrams whose probability tables match the state counts.
- **`Table.Stochastic`, `PathUtility.Fits`, `Diagram.WellFormed`** — well-formed diagrams.
- **`Diagram.Ordered`** — the same where nodes may list an earlier node more than once; **`Diagram.Staged`** — what
  remains without the tables.
- **`LocalStrategy.Fits`, `Strategy.Fits`** — strategies that fit.
- **`LocalStrategy.choose?_spec`** — a strategy that fits selects a state in every information state.
- **`umbrella`** — a small diagram that is well-formed.
-/

namespace InfluenceDiagrams

/-! ## Acceptance -/

namespace Diagram

variable {α : Type} {dia : Diagram α}

theorem checkInfo_eq_ok_iff {count : Nat} {nodes : List InfoNode} :
    checkInfo (α := α) count nodes = .ok () ↔ ∀ n ∈ nodes, ∀ i ∈ n.info, InRange count i := by
  induction nodes with
  | nil => simp [checkInfo]
  | cons m nodes ih =>
      rw [List.forall_mem_cons, checkInfo]
      by_cases hm : ∀ i ∈ m.info, InRange count i
      · rw [if_pos (by simpa [InRange] using hm), ih]
        exact (and_iff_right hm).symm
      · rw [if_neg (by simpa [InRange] using hm)]
        exact iff_of_false (fun h => by cases h) fun h => hm h.1

theorem sortedIndices_eq_iff :
    dia.sortedIndices = statesBelow dia.S.length ↔
      ((dia.C ++ dia.D).map InfoNode.index).Perm (statesBelow dia.S.length) := by
  have hperm : dia.sortedIndices.Perm ((dia.C ++ dia.D).map InfoNode.index) := List.mergeSort_perm _ _
  constructor
  · intro h
    rw [← h]
    exact hperm.symm
  · intro h
    have hsorted : dia.sortedIndices.Pairwise (· ≤ ·) :=
      mergeSort_sorted id (fun _ _ => decide_eq_true_iff) _
    refine (hperm.trans h).eq_of_pairwise ?_ hsorted ((statesBelow_sorted _).imp le_of_lt)
    intro a b _ _ hab hba
    exact le_antisymm hab hba

/-- A diagram is accepted if its chance and decision nodes are numbered by the places of the state space,
each place once, and no node observes a place outside it. -/
theorem accepted_iff :
    dia.Accepted ↔ ((dia.C ++ dia.D).map InfoNode.index).Perm (statesBelow dia.S.length) ∧
      ∀ n ∈ dia.C ++ dia.D ++ dia.V, ∀ i ∈ n.info, InRange dia.S.length i := by
  rw [← sortedIndices_eq_iff, ← checkInfo_eq_ok_iff (α := α), Accepted, check]
  by_cases hs : dia.sortedIndices = statesBelow dia.S.length
  · rw [if_pos hs, and_iff_right hs]
    cases checkInfo (α := α) dia.S.length (dia.C ++ dia.D ++ dia.V) with
    | error f => exact iff_of_false (fun ⟨_, h⟩ => by cases h) (fun h => by cases h)
    | ok u => exact iff_of_true ⟨dia, rfl⟩ rfl
  · rw [if_neg hs]
    exact iff_of_false (fun ⟨_, h⟩ => by cases h) fun h => hs h.1

theorem Accepted.indices_perm (h : dia.Accepted) :
    ((dia.C ++ dia.D).map InfoNode.index).Perm (statesBelow dia.S.length) :=
  (accepted_iff.1 h).1

theorem Accepted.info_inRange (h : dia.Accepted) :
    ∀ n ∈ dia.C ++ dia.D ++ dia.V, ∀ i ∈ n.info, InRange dia.S.length i :=
  (accepted_iff.1 h).2

theorem Accepted.info_inRange_of_mem (h : dia.Accepted) {n : InfoNode} (hn : n ∈ dia.C ++ dia.D) :
    ∀ i ∈ n.info, InRange dia.S.length i :=
  h.info_inRange n (List.mem_append_left _ hn)

theorem Accepted.index_inRange (h : dia.Accepted) {n : InfoNode} (hn : n ∈ dia.C ++ dia.D) :
    InRange dia.S.length n.index :=
  mem_statesBelow.1 (h.indices_perm.mem_iff.1 (List.mem_map_of_mem hn))

theorem Accepted.chance_inRange (h : dia.Accepted) {k : Node} (hk : k ∈ dia.indices .chance) :
    InRange dia.S.length k := by
  obtain ⟨c, hc, rfl⟩ := List.mem_map.1 hk
  exact h.index_inRange (List.mem_append_left _ hc)

theorem Accepted.decision_inRange (h : dia.Accepted) {k : Node} (hk : k ∈ dia.indices .decision) :
    InRange dia.S.length k := by
  obtain ⟨d, hd, rfl⟩ := List.mem_map.1 hk
  exact h.index_inRange (List.mem_append_right _ hd)

theorem Accepted.indices_nodup (h : dia.Accepted) : ((dia.C ++ dia.D).map InfoNode.index).Nodup :=
  h.indices_perm.nodup_iff.2 (statesBelow_nodup _)

/-- Every place of the state space belongs to a chance or a decision node. -/
theorem Accepted.exists_node (h : dia.Accepted) {k : Node} (hk : InRange dia.S.length k) :
    (∃ c ∈ dia.C, c.index = k) ∨ ∃ d ∈ dia.D, d.index = k := by
  have hmem := h.indices_perm.mem_iff.2 (mem_statesBelow.2 hk)
  obtain ⟨n, hn, rfl⟩ := List.mem_map.1 hmem
  rcases List.mem_append.1 hn with hn | hn
  · exact Or.inl ⟨n, hn, rfl⟩
  · exact Or.inr ⟨n, hn, rfl⟩

theorem Accepted.chance_ne_decision (h : dia.Accepted) {c d : InfoNode} (hc : c ∈ dia.C)
    (hd : d ∈ dia.D) : c.index ≠ d.index := by
  have hnodup := h.indices_nodup
  rw [List.map_append] at hnodup
  exact (List.nodup_append.1 hnodup).2.2 _ (List.mem_map_of_mem hc) _ (List.mem_map_of_mem hd)

theorem Accepted.chance_nodup (h : dia.Accepted) : (dia.indices .chance).Nodup := by
  have hnodup := h.indices_nodup
  rw [List.map_append] at hnodup
  exact hnodup.of_append_left

theorem Accepted.decision_nodup (h : dia.Accepted) : (dia.indices .decision).Nodup := by
  have hnodup := h.indices_nodup
  rw [List.map_append] at hnodup
  exact hnodup.of_append_right

end Diagram

/-! ## Tables that match -/

/-- A probability table for every chance node, over the nodes it depends on and the node itself. -/
structure ProbabilityTables.Shaped (P : ProbabilityTables Rat) (S : StateCounts) (C : List InfoNode) : Prop where
  nodes : P.parts.map Prod.fst = C
  shaped : ∀ part ∈ P.parts, part.2.Over S (part.1.info ++ [part.1.index])

theorem ProbabilityTables.Shaped.mem_chance {P : ProbabilityTables Rat} {S : StateCounts} {C : List InfoNode}
    (h : P.Shaped S C) {part : InfoNode × Table Rat} (hpart : part ∈ P.parts) : part.1 ∈ C := by
  rw [← h.nodes]
  exact List.mem_map_of_mem hpart

/-- An accepted diagram whose probability tables match the state counts. Nothing is asked of the entries, and
chance nodes may depend on any nodes. -/
structure Diagram.Tabulated (dia : Diagram Rat) : Prop where
  accepted : dia.Accepted
  probability : ∃ P, dia.P = .tables P ∧ P.Shaped dia.S dia.C

/-- No entry of a probability table is negative. -/
def Diagram.NonnegTables (dia : Diagram Rat) : Prop :=
  ∀ P, dia.P = .tables P → ∀ part ∈ P.parts, ∀ x ∈ part.2.entries, 0 ≤ x

/-- Every entry of a probability table is positive. -/
def Diagram.PositiveTables (dia : Diagram Rat) : Prop :=
  ∀ P, dia.P = .tables P → ∀ part ∈ P.parts, ∀ x ∈ part.2.entries, 0 < x

/-! ## Well-formed diagrams -/

/-- Every line of the table is a probability distribution. -/
def Table.Stochastic (t : Table Rat) : Prop := ∀ row ∈ t.rows, (∀ q ∈ row, 0 ≤ q) ∧ row.sum = 1

instance (t : Table Rat) : Decidable t.Stochastic :=
  inferInstanceAs (Decidable (∀ row ∈ t.rows, (∀ q ∈ row, 0 ≤ q) ∧ row.sum = 1))

/-- The tables below all shifts are those of the value nodes, each with a dimension for every node that
it depends on. -/
def PathUtility.Fits {α : Type} (S : StateCounts) (V : List InfoNode) : PathUtility α → Prop
  | .tables parts _ => parts.map Prod.fst = V ∧ ∀ part ∈ parts, part.2.Over S part.1.info
  | .shifted inner _ => inner.Fits S V

/-- A probability table for every chance node, over the nodes it depends on and the node itself. -/
structure ProbabilityTables.Fits (P : ProbabilityTables Rat) (S : StateCounts) (C : List InfoNode) : Prop where
  nodes : P.parts.map Prod.fst = C
  shaped : ∀ part ∈ P.parts, part.2.Over S (part.1.info ++ [part.1.index])
  stochastic : ∀ part ∈ P.parts, part.2.Stochastic

theorem ProbabilityTables.Fits.toShaped {P : ProbabilityTables Rat} {S : StateCounts} {C : List InfoNode}
    (h : P.Fits S C) : P.Shaped S C :=
  ⟨h.nodes, h.shaped⟩

theorem ProbabilityTables.Fits.mem_chance {P : ProbabilityTables Rat} {S : StateCounts} {C : List InfoNode}
    (h : P.Fits S C) {part : InfoNode × Table Rat} (hpart : part ∈ P.parts) : part.1 ∈ C :=
  h.toShaped.mem_chance hpart

/-- An accepted diagram with a state for every node, whose chance and decision nodes observe distinct
earlier nodes, and whose tables match the state counts. -/
structure Diagram.WellFormed (dia : Diagram Rat) : Prop where
  accepted : dia.Accepted
  counts_pos : ∀ n ∈ dia.S, 1 ≤ n
  info_nodup : ∀ n ∈ dia.C ++ dia.D, n.info.Nodup
  info_lt : ∀ n ∈ dia.C ++ dia.D, ∀ i ∈ n.info, i < n.index
  probability : ∃ P, dia.P = .tables P ∧ P.Fits dia.S dia.C
  utility : dia.U.Fits dia.S dia.V

/-- What a well-formed diagram has but for distinctness: a chance or decision node may list an earlier node
more than once. -/
structure Diagram.Ordered (dia : Diagram Rat) : Prop where
  accepted : dia.Accepted
  counts_pos : ∀ n ∈ dia.S, 1 ≤ n
  info_lt : ∀ n ∈ dia.C ++ dia.D, ∀ i ∈ n.info, i < n.index
  probability : ∃ P, dia.P = .tables P ∧ P.Fits dia.S dia.C
  utility : dia.U.Fits dia.S dia.V

/-- What does not depend on any table: an accepted diagram with a state for every node, whose chance and decision nodes
observe earlier nodes. -/
structure Diagram.Staged {α : Type} (dia : Diagram α) : Prop where
  accepted : dia.Accepted
  counts_pos : ∀ n ∈ dia.S, 1 ≤ n
  info_lt : ∀ n ∈ dia.C ++ dia.D, ∀ i ∈ n.info, i < n.index

theorem Diagram.Ordered.staged {dia : Diagram Rat} (h : dia.Ordered) : dia.Staged :=
  ⟨h.accepted, h.counts_pos, h.info_lt⟩

theorem Diagram.Ordered.tabulated {dia : Diagram Rat} (h : dia.Ordered) : dia.Tabulated := by
  obtain ⟨P, hP, hfits⟩ := h.probability
  exact ⟨h.accepted, P, hP, hfits.toShaped⟩

theorem Diagram.Ordered.nonnegTables {dia : Diagram Rat} (h : dia.Ordered) : dia.NonnegTables := by
  obtain ⟨P, hP, hfits⟩ := h.probability
  rintro P' hP' part hpart x hx
  obtain rfl : P = P' := by rw [hP] at hP'; cases hP'; rfl
  obtain ⟨row, hrow, hmem⟩ := Table.exists_row_of_mem_entries (hfits.shaped part hpart).shape_append hx
  exact (hfits.stochastic part hpart row hrow).1 x hmem

theorem Diagram.WellFormed.ordered {dia : Diagram Rat} (h : dia.WellFormed) : dia.Ordered where
  accepted := h.accepted
  counts_pos := h.counts_pos
  info_lt := h.info_lt
  probability := h.probability
  utility := h.utility

theorem Diagram.WellFormed.tabulated {dia : Diagram Rat} (h : dia.WellFormed) : dia.Tabulated :=
  h.ordered.tabulated

theorem Diagram.WellFormed.staged {dia : Diagram Rat} (h : dia.WellFormed) : dia.Staged := h.ordered.staged

theorem entry_of_forall {S : StateCounts} {p : Int → Prop} (h : ∀ n ∈ S, p n) {k : Int} (hk : InRange S.length k) :
    p (entry S k) := by
  rw [entry_eq_getElem hk.toNat_lt]
  exact h _ (List.getElem_mem _)

theorem entry_pos {S : StateCounts} (h : ∀ n ∈ S, 1 ≤ n) {k : Int} (hk : InRange S.length k) : 1 ≤ entry S k :=
  entry_of_forall h hk

theorem forall_one_le {S : StateCounts} (h : ∀ k, InRange S.length k → 1 ≤ entry S k) : ∀ n ∈ S, 1 ≤ n := by
  intro n hn
  obtain ⟨i, hi, rfl⟩ := List.getElem_of_mem hn
  have := h i (inRange_natCast hi)
  rwa [entry_eq_getElem (by simpa using hi)] at this

/-! ## Strategies that fit -/

/-- The table has a dimension for every observed node and one for the node itself, and every line selects
exactly one state. -/
structure LocalStrategy.Fits (S : StateCounts) (z : LocalStrategy) : Prop where
  shaped : z.table.Over S (z.node.info ++ [z.node.index])
  selects : ∀ row ∈ z.table.rows, row.count true = 1

/-- One local strategy for every decision node, in any order. -/
structure Strategy.Fits {α : Type} (dia : Diagram α) (Z : Strategy) : Prop where
  nodes : Z.nodes.Perm dia.D
  parts : ∀ z ∈ Z.parts, z.Fits dia.S

theorem Strategy.Fits.mem_decision {α : Type} {dia : Diagram α} {Z : Strategy} (h : Z.Fits dia)
    {z : LocalStrategy} (hz : z ∈ Z.parts) : z.node ∈ dia.D :=
  h.nodes.mem_iff.1 (List.mem_map_of_mem hz)

theorem Strategy.Fits.exists_part {α : Type} {dia : Diagram α} {Z : Strategy} (h : Z.Fits dia)
    {d : InfoNode} (hd : d ∈ dia.D) : ∃ z ∈ Z.parts, z.node = d := by
  have := h.nodes.mem_iff.2 hd
  rwa [Strategy.nodes, List.mem_map] at this

theorem Strategy.Fits.indices_perm {α : Type} {dia : Diagram α} {Z : Strategy} (h : Z.Fits dia) :
    (Z.parts.map fun z => z.node.index).Perm (dia.indices .decision) := by
  have := h.nodes.map InfoNode.index
  rwa [Strategy.nodes, List.map_map] at this

/-- Parts of one node are the same part. -/
theorem Strategy.Fits.part_unique {α : Type} {dia : Diagram α} {Z : Strategy} (hZ : Z.Fits dia) (h : dia.Accepted)
    {y z : LocalStrategy} (hy : y ∈ Z.parts) (hz : z ∈ Z.parts) (hindex : y.node.index = z.node.index) : y = z := by
  have hnodup : (Z.parts.map fun z => z.node.index).Nodup := hZ.indices_perm.nodup_iff.2 h.decision_nodup
  exact List.inj_on_of_nodup_map hnodup hy hz hindex

theorem Strategy.Fits.part_eq {α : Type} {dia : Diagram α} {Z : Strategy} (hZ : Z.Fits dia) (h : dia.Accepted)
    {z : LocalStrategy} (hz : z ∈ Z.parts) : Z.part z.node.index = (.ok z : Except (Fault α) LocalStrategy) := by
  rw [Strategy.part]
  cases hfind : Z.parts.find? fun y => y.node.index == z.node.index with
  | none => exact absurd (beq_self_eq_true _) (List.find?_eq_none.1 hfind z hz)
  | some y =>
      have hindex : y.node.index = z.node.index := by simpa using List.find?_some hfind
      rw [hZ.part_unique h (List.mem_of_find?_eq_some hfind) hz hindex]
      rfl

namespace LocalStrategy

variable {S : StateCounts} {z : LocalStrategy}

/-- Where a line selects exactly one state, that state is the first one selected. -/
theorem getElem_eq_true_iff {row : List Bool} (h : row.count true = 1) {i : Nat} :
    row[i]? = some true ↔ i = row.idxOf true := by
  induction row generalizing i with
  | nil => simp at h
  | cons b row ih =>
      cases b with
      | true =>
          have hrow : true ∉ row := by
            rw [List.count_cons_self] at h
            exact List.count_eq_zero.1 (by omega)
          cases i with
          | zero => simp
          | succ i =>
              simp only [List.getElem?_cons_succ, List.idxOf_cons_self, Nat.succ_ne_zero, iff_false]
              exact fun hi => hrow (List.mem_of_getElem? hi)
      | false =>
          rw [List.count_cons_of_ne (by simp)] at h
          cases i with
          | zero => simp [List.idxOf_cons_ne]
          | succ i => simpa [List.idxOf_cons_ne] using ih h

/-- A local strategy that fits selects one of the node's states in every information state, and its table
has a one in that cell and nowhere else above the information state. -/
theorem choose?_spec (h : z.Fits S) {info : List State}
    (hinfo : Table.IndexOf (z.node.info.map (Table.extent S)) info) :
    ∃ k, z.choose? info = some k ∧ InRange (Table.extent S z.node.index) k ∧
      ∀ i, InRange (Table.extent S z.node.index) i → (z.table.get? (info ++ [i]) = some true ↔ i = k) := by
  obtain ⟨row, hrow, hline, hlen, hcells⟩ := Table.row?_spec h.shaped.shape_append hinfo
  have hone := h.selects row hrow
  have hmem : true ∈ row := by
    rw [← List.count_pos_iff, hone]
    exact Nat.one_pos
  refine ⟨selectedState row, ?_, ?_, ?_⟩
  · rw [choose?, hline]
    rfl
  · have := List.idxOf_lt_length_of_mem hmem
    rw [hlen] at this
    exact inRange_natCast this
  · intro i hi
    rw [hcells i hi, getElem_eq_true_iff hone, selectedState]
    have h0 := hi.1
    omega

end LocalStrategy

/-! ## Examples -/

/-- Rain, a forecast that is never wrong about dry days, the decision to take an umbrella, wet clothes. -/
def umbrella : Diagram Rat where
  S := [2, 2, 2, 2]
  C := [⟨0, []⟩, ⟨1, [0]⟩, ⟨3, [0, 2]⟩]
  D := [⟨2, [1]⟩]
  V := [⟨4, [2, 3]⟩]
  P := .tables ⟨[(⟨0, []⟩, ⟨[2], [3/4, 1/4], rfl⟩), (⟨1, [0]⟩, ⟨[2, 2], [1, 0, 1/4, 3/4], rfl⟩),
    (⟨3, [0, 2]⟩, ⟨[2, 2, 2], [1, 0, 1, 0, 0, 1, 9/10, 1/10], rfl⟩)]⟩
  U := .tables [(⟨4, [2, 3]⟩, ⟨[2, 2], [100, 0, 80, 30], rfl⟩)] 0

theorem umbrella_wellFormed : umbrella.WellFormed where
  accepted := Diagram.accepted_iff.2 (by decide)
  counts_pos := by decide
  info_nodup := by decide
  info_lt := by decide
  probability := ⟨_, rfl, by decide, by decide, by decide +kernel⟩
  utility := ⟨rfl, by decide⟩

/-- Take the umbrella if rain is forecast. -/
def umbrellaStrategy : Strategy := ⟨[⟨⟨2, [1]⟩, ⟨[2, 2], [true, false, false, true], rfl⟩⟩]⟩

theorem umbrellaStrategy_fits : umbrellaStrategy.Fits umbrella where
  nodes := by decide
  parts := by
    intro z hz
    rw [List.mem_singleton.1 hz]
    exact ⟨by decide, by decide⟩

/-- A form with a single entry, and a clerk who reads it sixty-four times before the only thing that can be done. -/
def rereading : Diagram Rat where
  S := [1, 1]
  C := [⟨0, []⟩]
  D := [⟨1, List.replicate 64 0⟩]
  V := []
  P := .tables ⟨[(⟨0, []⟩, ⟨[1], [1], by decide⟩)]⟩
  U := .tables [] 0

theorem rereading_accepted : rereading.Accepted := Diagram.accepted_iff.2 (by decide)

end InfluenceDiagrams
