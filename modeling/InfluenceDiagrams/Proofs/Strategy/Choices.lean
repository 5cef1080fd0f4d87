import InfluenceDiagrams.Strategy.Improvement
import InfluenceDiagrams.Proofs.Diagram.WellFormed
import InfluenceDiagrams.Proofs.Program.Outcomes

/-!
# `InfluenceDiagrams.Proofs.Strategy.Choices` — what a strategy chooses, and one choice changed

A local strategy is known by the states that it selects in its information states: two that fit a node and select the
same states have the same table. So a strategy is a choice of states, one for every information state of every decision
node, and there are as many strategies as such choices. Changing the line of one information state changes one of the
choices and keeps the others.

## Contents
- **`LocalStrategy.ofTable_ok`** — what holds of an accepted table; **`Strategy.Made`** — strategies made of such tables.
- **`numInfoStates`, `Fits.choose?_eq`, `Fits.eq_of_choices`** — a local strategy by its choices.
- **`LocalStrategy.Fits.select`, `LocalStrategy.Fits.selectedState_select`** — one line changed.
- **`Strategy.DiffersAt`**, **`Strategy.Fits.select_differsAt`**, **`Strategy.Fits.exists_select_perm`** — one choice of a
  strategy changed.
- **`Diagram.numStrategies`**, **`Diagram.length_le_numStrategies`** — how many strategies there are.
-/

namespace InfluenceDiagrams

variable {α : Type}

/-! ## Tables that are accepted -/

namespace LocalStrategy

/-- The lines are checked in order. They are accepted if there is nothing wrong with any of them, and the first
one with which there is makes the strategy malformed. -/
theorem checkRows_yields [Scalar α] (node : Node) (rows : List (List State × List (Numeral α))) :
    Yields (checkRows node rows) (fun _ => ∀ row ∈ rows.map Prod.snd, RowDefect.ofRow? row = none)
      (fun f => (¬∀ row ∈ rows.map Prod.snd, RowDefect.ofRow? row = none) ∧
        ∃ info defect, f = .malformedStrategy node info defect) := by
  induction rows with
  | nil => exact fun row hrow => absurd hrow List.not_mem_nil
  | cons first rows ih =>
      obtain ⟨info, row⟩ := first
      rw [checkRows]
      cases hrow : RowDefect.ofRow? row with
      | none =>
          refine ih.mono (fun _ _ hrows => List.forall_mem_cons.2 ⟨hrow, hrows⟩) ?_
          rintro f ⟨hsome, hf⟩
          exact ⟨fun hall => hsome (List.forall_mem_cons.1 hall).2, hf⟩
      | some defect =>
          refine ⟨fun hall => ?_, info, defect, rfl⟩
          have hnone := (List.forall_mem_cons.1 hall).1
          cases hrow.symm.trans hnone

/-- A line with nothing wrong has a single one. -/
theorem count_of_ofRow? [Scalar α] {row : List (Numeral α)} (h : RowDefect.ofRow? row = none) :
    (row.map Numeral.isOne).count true = 1 := by
  have hcount : (row.map Numeral.isOne).count true = row.countP Numeral.isOne := by
    rw [List.count, List.countP_map]
    congr 1
    funext e
    exact beq_true _
  rw [RowDefect.ofRow?] at h
  split at h
  · split at h
    · rename_i hone
      rw [hcount, hone]
    · cases h
  · cases h

/-- A table that is not too deep and has the dimensions of its node has its lines checked. -/
theorem ofTable_eq_bind [Scalar α] {node : InfoNode} {data : Table (Numeral α)} (hdepth : data.rank ≤ Table.maxRank)
    (hrank : data.rank = node.info.length + 1) :
    ofTable node data = (checkRows node.index ((Table.indices data.rowShape).zip data.rows)).bind fun _ =>
      if data.width = 0 then .error .emptyExtremum else .ok ⟨node, data.map Numeral.isOne⟩ := by
  rw [ofTable, Table.checkRank_ok hdepth]
  exact if_pos hrank

/-- A table of which a local strategy was made is not too deep and has the dimensions of its node. -/
theorem rank_of_ofTable [Scalar α] {node : InfoNode} {data : Table (Numeral α)} {z : LocalStrategy}
    (h : ofTable node data = .ok z) : data.rank ≤ Table.maxRank ∧ data.rank = node.info.length + 1 := by
  by_cases hdepth : data.rank ≤ Table.maxRank
  · refine ⟨hdepth, ?_⟩
    by_contra hrank
    rw [ofTable, Table.checkRank_ok hdepth] at h
    change (if data.rank = node.info.length + 1 then _ else _) = _ at h
    rw [if_neg hrank] at h
    cases h
  · rw [ofTable, Table.checkRank_error (Nat.lt_of_not_le hdepth)] at h
    cases h

/-- A local strategy that was made of a table has the ones of the table, a single one in each line, and the node has
a state. -/
theorem ofTable_ok [Scalar α] {node : InfoNode} {data : Table (Numeral α)} {z : LocalStrategy}
    (h : ofTable node data = .ok z) :
    z = ⟨node, data.map Numeral.isOne⟩ ∧ (∀ row ∈ data.rows, (row.map Numeral.isOne).count true = 1) ∧
      data.width ≠ 0 := by
  have hrows : ((Table.indices data.rowShape).zip data.rows).map Prod.snd = data.rows := by
    apply List.map_snd_zip
    rw [Table.indices_eq_indexPaths, Table.length_indexPaths, Table.rows, List.length_map, List.length_range]
  obtain ⟨hdepth, hrank⟩ := rank_of_ofTable h
  rw [ofTable_eq_bind hdepth hrank] at h
  have hcheck := checkRows_yields node.index ((Table.indices data.rowShape).zip data.rows)
  rw [hrows] at hcheck
  cases hchecked : checkRows node.index ((Table.indices data.rowShape).zip data.rows) with
  | error f =>
      rw [hchecked] at h
      cases h
  | ok u =>
      rw [hchecked] at h
      change (if data.width = 0 then _ else _) = _ at h
      split at h
      · cases h
      · rename_i hwidth
        exact ⟨(Except.ok.inj h).symm, fun row hrow => count_of_ofRow? (hcheck.of_ok hchecked row hrow), hwidth⟩

/-- A local strategy that was made of a table with the dimensions of its nodes fits. -/
theorem ofTable_fits [Scalar α] {S : StateCounts} {node : InfoNode} {data : Table (Numeral α)} {z : LocalStrategy}
    (hover : data.Over S (node.info ++ [node.index])) (h : ofTable node data = .ok z) : z.Fits S := by
  obtain ⟨rfl, hone, -⟩ := ofTable_ok h
  refine ⟨hover, ?_⟩
  intro row hrow
  obtain ⟨i, hi, rfl⟩ := List.mem_map.1 hrow
  have hmem : data.rowAt i ∈ data.rows := List.mem_map_of_mem hi
  rw [Table.rowAt_map]
  exact hone _ hmem

end LocalStrategy

/-- One local strategy for every decision node, in any order, each made of a table of numbers with a dimension for every
observed node and one for the node itself. -/
structure Strategy.Made [Scalar α] (dia : Diagram α) (Z : Strategy) : Prop where
  nodes : Z.nodes.Perm dia.D
  parts : ∀ z ∈ Z.parts, ∃ data : Table (Numeral α), data.Over dia.S (z.node.info ++ [z.node.index]) ∧
    LocalStrategy.ofTable z.node data = .ok z

namespace Strategy.Made

variable [Scalar α] {dia : Diagram α} {Z : Strategy}

theorem fits (h : Z.Made dia) : Z.Fits dia where
  nodes := h.nodes
  parts := by
    intro z hz
    obtain ⟨data, hover, hmade⟩ := h.parts z hz
    exact LocalStrategy.ofTable_fits hover hmade

/-- A node with a local strategy has a state. -/
theorem count_pos (h : Z.Made dia) {d : InfoNode} (hd : d ∈ dia.D) : 1 ≤ entry dia.S d.index := by
  obtain ⟨z, hz, rfl⟩ := h.fits.exists_part hd
  obtain ⟨data, hover, hmade⟩ := h.parts z hz
  have hwidth := (LocalStrategy.ofTable_ok hmade).2.2
  rw [Table.width_eq hover.shape_append, Table.extent] at hwidth
  omega

end Strategy.Made

/-! ## A local strategy by its choices -/

/-- The number of information states of a decision node. -/
def numInfoStates (S : StateCounts) (d : InfoNode) : Nat := Table.places (d.info.map (Table.extent S))

namespace LocalStrategy

variable {S : StateCounts} {y z : LocalStrategy}

theorem Fits.rowShape_eq (h : z.Fits S) : z.table.rowShape = z.node.info.map (Table.extent S) :=
  Table.rowShape_eq h.shaped.shape_append

theorem Fits.width_eq (h : z.Fits S) : z.table.width = Table.extent S z.node.index :=
  Table.width_eq h.shaped.shape_append

theorem Fits.length_rowAt (h : z.Fits S) {i : Nat} (hi : i < numInfoStates S z.node) :
    (z.table.rowAt i).length = Table.extent S z.node.index :=
  Table.length_rowAt h.shaped.shape_append hi

theorem Fits.count_rowAt (h : z.Fits S) {i : Nat} (hi : i < numInfoStates S z.node) :
    (z.table.rowAt i).count true = 1 := by
  apply h.selects
  rw [Table.rows, h.rowShape_eq]
  exact List.mem_map_of_mem (List.mem_range.2 hi)

/-- The choices are those of the lines, in order. -/
theorem Fits.choices_eq (h : z.Fits S) :
    z.choices = (List.range (numInfoStates S z.node)).map fun i => selectedState (z.table.rowAt i) := by
  rw [choices, Table.rows, h.rowShape_eq, List.map_map]
  rfl

theorem Fits.getElem?_choices (h : z.Fits S) {i : Nat} (hi : i < numInfoStates S z.node) :
    z.choices[i]? = some (selectedState (z.table.rowAt i)) := by
  rw [h.choices_eq, List.getElem?_map, List.getElem?_range hi]
  rfl

/-- Every choice is a state of the node. -/
theorem Fits.selectedState_inRange (h : z.Fits S) {i : Nat} (hi : i < numInfoStates S z.node) :
    InRange (Table.extent S z.node.index) (selectedState (z.table.rowAt i)) := by
  have hmem : true ∈ z.table.rowAt i := by
    rw [← List.count_pos_iff, h.count_rowAt hi]
    exact Nat.one_pos
  have hlt := List.idxOf_lt_length_of_mem hmem
  rw [h.length_rowAt hi] at hlt
  exact inRange_natCast hlt

/-- The state selected in an information state is the choice in its place. -/
theorem Fits.choose?_eq (h : z.Fits S) {info : List State} {i : Nat}
    (hi : Table.place? (z.node.info.map (Table.extent S)) info = some i) :
    z.choose? info = some (selectedState (z.table.rowAt i)) := by
  rw [choose?, Table.row?, h.rowShape_eq, hi]
  rfl

/-- Lines with a single one are equal if they select the same state. -/
theorem eq_of_selectedState {a b : List Bool} (hlen : a.length = b.length) (ha : a.count true = 1)
    (hb : b.count true = 1) (h : selectedState a = selectedState b) : a = b := by
  have hidx : a.idxOf true = b.idxOf true := Int.ofNat.inj h
  apply List.ext_getElem hlen
  intro i hi hi'
  have hiff : a[i]? = some true ↔ b[i]? = some true := by
    rw [getElem_eq_true_iff ha, getElem_eq_true_iff hb, hidx]
  rw [List.getElem?_eq_getElem hi, List.getElem?_eq_getElem hi', Option.some_inj, Option.some_inj] at hiff
  exact Bool.eq_iff_iff.2 hiff

/-- A local strategy that fits is known by its node and its choices. -/
theorem Fits.eq_of_choices (hy : y.Fits S) (hz : z.Fits S) (hnode : y.node = z.node) (h : y.choices = z.choices) :
    y = z := by
  have hshape : y.table.shape = z.table.shape := by rw [hy.shaped, hz.shaped, hnode]
  have htable : y.table = z.table := by
    refine Table.ext_get? hshape fun index hindex => ?_
    rw [hy.shaped.shape_append] at hindex
    obtain ⟨info, k, hinfo, hk, rfl⟩ := hindex.exists_append
    obtain ⟨i, hi, hlt⟩ := Table.place?_of_inRange hinfo
    have hlt' : i < numInfoStates S z.node := hnode ▸ hlt
    have hline : y.table.rowAt i = z.table.rowAt i := by
      refine eq_of_selectedState ?_ (hy.count_rowAt hlt) (hz.count_rowAt hlt') ?_
      · rw [hy.length_rowAt hlt, hz.length_rowAt hlt', hnode]
      · have hsome := (hy.getElem?_choices hlt).symm.trans ((congrArg (·[i]?) h).trans (hz.getElem?_choices hlt'))
        exact Option.some.inj hsome
    have hilen : info.length = (y.node.info.map (Table.extent S)).length := (List.Forall₂.length_eq hinfo).symm
    rw [Table.get?_append_singleton hy.shaped.shape_append hilen hi hk, hline]
    rw [hnode] at hilen hi hk
    exact (Table.get?_append_singleton hz.shaped.shape_append hilen hi hk).symm
  cases y
  cases z
  cases hnode
  cases htable
  rfl

/-! ## One line changed -/

theorem count_oneHot {w k : Nat} (hk : k < w) : ((List.range w).map (· == k)).count true = 1 := by
  have hcount : ((List.range w).map (· == k)).count true = (List.range w).count k := by
    rw [List.count, List.countP_map]
    congr 1
    funext i
    exact beq_true _
  rw [hcount]
  exact List.count_eq_one_of_mem List.nodup_range (List.mem_range.2 hk)

theorem selectedState_oneHot {w k : Nat} (hk : k < w) : selectedState ((List.range w).map (· == k)) = (k : Int) := by
  have hcell : ((List.range w).map (· == k))[k]? = some true := by simp [hk]
  rw [selectedState, ← (getElem_eq_true_iff (count_oneHot hk)).1 hcell]

variable {row state : Nat}

theorem rowAt_select_self {lead : List Nat} {n : Nat} (hshape : z.table.shape = lead ++ [n])
    (hrow : row < Table.places lead) (state : Nat) :
    (z.select row state).table.rowAt row = (List.range n).map (· == state) := by
  have hwidth : z.table.width = n := Table.width_eq hshape
  show (z.table.setRow row _).rowAt row = _
  rw [Table.rowAt_setRow_self hshape hrow (by rw [List.length_map, List.length_range, hwidth]), hwidth]

theorem rowAt_select_ne {i : Nat} (hne : i ≠ row) (state : Nat) :
    (z.select row state).table.rowAt i = z.table.rowAt i :=
  Table.rowAt_setRow_ne hne _

/-- The choices when one of them is changed. -/
theorem Fits.selectedState_select (h : z.Fits S) (hrow : row < numInfoStates S z.node)
    (hstate : state < Table.extent S z.node.index) (i : Nat) :
    selectedState ((z.select row state).table.rowAt i) =
      if i = row then (state : Int) else selectedState (z.table.rowAt i) := by
  split
  · rename_i heq
    rw [heq, rowAt_select_self h.shaped.shape_append hrow, selectedState_oneHot hstate]
  · rename_i hne
    rw [rowAt_select_ne hne]

theorem Fits.select (h : z.Fits S) (hrow : row < numInfoStates S z.node)
    (hstate : state < Table.extent S z.node.index) : (z.select row state).Fits S where
  shaped := h.shaped
  selects := by
    intro line hline
    obtain ⟨i, hi, rfl⟩ := List.mem_map.1 hline
    have hi : i < numInfoStates S z.node := by
      rw [numInfoStates, ← h.rowShape_eq]
      exact List.mem_range.1 hi
    by_cases heq : i = row
    · rw [heq, rowAt_select_self h.shaped.shape_append hrow]
      exact count_oneHot hstate
    · rw [rowAt_select_ne heq]
      exact h.count_rowAt hi

end LocalStrategy

/-! ## One choice of a strategy changed -/

/-- Two strategies choose the same states except in one information state of one decision node. -/
def Strategy.DiffersAt (dia : Diagram α) (Z Z' : Strategy) (d : InfoNode) (info : List State) : Prop :=
  ∀ e ∈ dia.D, ∀ i, Table.IndexOf (e.info.map (Table.extent dia.S)) i →
    ((Z.choose e.index i : Except (Fault α) State) ≠ Z'.choose e.index i ↔ e = d ∧ i = info)

namespace Strategy

variable {dia : Diagram α} {Z : Strategy} {z : LocalStrategy} {k row state : Nat}

theorem getElem?_select (Z : Strategy) (k row state j : Nat) :
    (Z.select k row state).parts[j]? = Z.parts[j]?.map fun y => if k = j then y.select row state else y := by
  rw [select, List.getElem?_modify]
  rfl

theorem exists_part_of_nodes {d : InfoNode} (h : Z.nodes[k]? = some d) : ∃ z, Z.parts[k]? = some z ∧ z.node = d := by
  rw [nodes, List.getElem?_map] at h
  exact Option.map_eq_some_iff.1 h

/-- The nodes stay, with their order. -/
theorem select_nodes (Z : Strategy) (k row state : Nat) : (Z.select k row state).nodes = Z.nodes := by
  apply List.ext_getElem?
  intro j
  rw [nodes, nodes, List.getElem?_map, List.getElem?_map, getElem?_select, Option.map_map]
  congr 1
  funext y
  show (if k = j then y.select row state else y).node = y.node
  split <;> rfl

namespace Fits

theorem select (hZ : Z.Fits dia) (hz : Z.parts[k]? = some z) (hrow : row < numInfoStates dia.S z.node)
    (hstate : state < Table.extent dia.S z.node.index) : (Z.select k row state).Fits dia where
  nodes := by
    rw [select_nodes]
    exact hZ.nodes
  parts := by
    intro y hy
    obtain ⟨j, hj⟩ := List.mem_iff_getElem?.1 hy
    rw [getElem?_select] at hj
    obtain ⟨x, hx, rfl⟩ := Option.map_eq_some_iff.1 hj
    have hfits := hZ.parts x (List.mem_of_getElem? hx)
    split
    · rename_i heq
      subst heq
      obtain rfl := Option.some.inj (hx.symm.trans hz)
      exact hfits.select hrow hstate
    · exact hfits

/-- The state that a part chooses is that of the strategy. -/
theorem choose_eq (hZ : Z.Fits dia) (h : dia.Accepted) (hz : z ∈ Z.parts) {info : List State} {i : Nat}
    (hi : Table.place? (z.node.info.map (Table.extent dia.S)) info = some i) :
    (Z.choose z.node.index info : Except (Fault α) State) = .ok (selectedState (z.table.rowAt i)) := by
  rw [choose, hZ.part_eq h hz]
  change z.choose info = _
  rw [LocalStrategy.choose, (hZ.parts z hz).choose?_eq hi]

/-- A part of a strategy with one line changed: the node stays, and so do the choices but for one. -/
theorem exists_part_select (hZ : Z.Fits dia) (hz : Z.parts[k]? = some z) (hrow : row < numInfoStates dia.S z.node)
    (hstate : state < Table.extent dia.S z.node.index) {j : Nat} {y : LocalStrategy} (hy : Z.parts[j]? = some y) :
    ∃ y', (Z.select k row state).parts[j]? = some y' ∧ y'.node = y.node ∧ ∀ i,
      selectedState (y'.table.rowAt i) =
        if k = j ∧ i = row then (state : Int) else selectedState (y.table.rowAt i) := by
  refine ⟨if k = j then y.select row state else y, by rw [getElem?_select, hy]; rfl, ?_⟩
  by_cases hkj : k = j
  · subst hkj
    obtain rfl := Option.some.inj (hy.symm.trans hz)
    rw [if_pos rfl]
    refine ⟨rfl, fun i => ?_⟩
    rw [(hZ.parts y (List.mem_of_getElem? hy)).selectedState_select hrow hstate]
    exact if_congr (and_iff_right rfl).symm rfl rfl
  · rw [if_neg hkj]
    exact ⟨rfl, fun i => (if_neg fun h => hkj h.1).symm⟩

/-- A strategy with one line changed chooses another state in the information state of that line, and the same states
everywhere else. -/
theorem select_differsAt (hZ : Z.Fits dia) (h : dia.Accepted) (hz : Z.parts[k]? = some z)
    (hstate : state < Table.extent dia.S z.node.index) (hne : selectedState (z.table.rowAt row) ≠ (state : Int))
    {info : List State} (hinfo : Table.IndexOf (z.node.info.map (Table.extent dia.S)) info)
    (hrow : Table.place? (z.node.info.map (Table.extent dia.S)) info = some row) :
    Z.DiffersAt dia (Z.select k row state) z.node info := by
  have hlt : row < numInfoStates dia.S z.node := Table.place?_lt hrow
  intro e he i hi
  obtain ⟨y, hy, rfl⟩ := hZ.exists_part he
  obtain ⟨j, hj⟩ := List.mem_iff_getElem?.1 hy
  obtain ⟨p, hp, -⟩ := Table.place?_of_inRange hi
  obtain ⟨y', hy', hnode, hselected⟩ := hZ.exists_part_select hz hlt hstate hj
  have hold := hZ.choose_eq h hy hp
  have hnew := (hZ.select hz hlt hstate).choose_eq h (List.mem_of_getElem? hy') (hnode.symm ▸ hp)
  rw [hnode, hselected] at hnew
  rw [hold, hnew]
  constructor
  · intro hdiff
    -- only one choice has been changed
    obtain ⟨rfl, rfl⟩ : k = j ∧ p = row := by
      by_contra hnot
      rw [if_neg hnot] at hdiff
      exact hdiff rfl
    obtain rfl := Option.some.inj (hj.symm.trans hz)
    exact ⟨rfl, Table.place?_inj hi hinfo (hp.trans hrow.symm)⟩
  · rintro ⟨hsame, rfl⟩
    obtain rfl := hZ.part_unique h hy (List.mem_of_getElem? hz) (congrArg InfoNode.index hsame)
    have hnodup : Z.parts.Nodup := (hZ.indices_perm.nodup_iff.2 h.decision_nodup).of_map _
    have hjlt : j < Z.parts.length := (List.getElem?_eq_some_iff.1 hj).1
    have hjk : j = k := (List.getElem?_inj hjlt hnodup).1 (hj.trans hz.symm)
    have hpr : p = row := Option.some.inj (hp.symm.trans hrow)
    rw [if_pos ⟨hjk.symm, hpr⟩, hpr]
    exact fun heq => hne (Except.ok.inj heq)

/-- A strategy that fits is known by its nodes and its choices. -/
theorem eq_of_choices {Y : Strategy} (hY : Y.Fits dia) (hZ : Z.Fits dia) (hnodes : Y.nodes = Z.nodes)
    (h : Y.parts.map LocalStrategy.choices = Z.parts.map LocalStrategy.choices) : Y = Z := by
  have hparts : Y.parts = Z.parts := by
    apply List.ext_getElem?
    intro k
    have hnode := congrArg (·[k]?) hnodes
    have hchoices := congrArg (·[k]?) h
    change (Y.parts.map LocalStrategy.node)[k]? = (Z.parts.map LocalStrategy.node)[k]? at hnode
    simp only [List.getElem?_map] at hnode hchoices
    cases hy : Y.parts[k]? with
    | none =>
        rw [hy, Option.map_none] at hnode
        exact (Option.map_eq_none_iff.1 hnode.symm).symm
    | some y =>
        rw [hy, Option.map_some] at hnode hchoices
        obtain ⟨z, hz, hzn⟩ := Option.map_eq_some_iff.1 hnode.symm
        rw [hz, Option.map_some, Option.some_inj] at hchoices
        rw [hz, (hY.parts y (List.mem_of_getElem? hy)).eq_of_choices (hZ.parts z (List.mem_of_getElem? hz)) hzn.symm
          hchoices]
  exact congrArg Strategy.mk hparts

/-- In the information state of the changed line, the new state is chosen. -/
theorem select_choose (hZ : Z.Fits dia) (h : dia.Accepted) (hz : Z.parts[k]? = some z)
    (hstate : state < Table.extent dia.S z.node.index) {info : List State}
    (hplace : Table.place? (z.node.info.map (Table.extent dia.S)) info = some row) :
    ((Z.select k row state).choose z.node.index info : Except (Fault α) State) = .ok (state : Int) := by
  have hrow : row < numInfoStates dia.S z.node := Table.place?_lt hplace
  obtain ⟨y, hy, hnode, hselected⟩ := hZ.exists_part_select hz hrow hstate hz
  have hchoose := (hZ.select hz hrow hstate).choose_eq h (List.mem_of_getElem? hy) (hnode.symm ▸ hplace)
  rwa [hnode, hselected, if_pos ⟨rfl, rfl⟩] at hchoose

/-- Strategies that choose the same states everywhere have the same parts, in some order. -/
theorem parts_perm_of_choose_eq (h : dia.Accepted) {Y : Strategy} (hY : Y.Fits dia) (hZ : Z.Fits dia)
    (hsame : ∀ e ∈ dia.D, ∀ i, Table.IndexOf (e.info.map (Table.extent dia.S)) i →
      (Y.choose e.index i : Except (Fault α) State) = Z.choose e.index i) : Y.parts.Perm Z.parts := by
  have hnodup : Y.parts.Nodup := (hY.indices_perm.nodup_iff.2 h.decision_nodup).of_map _
  have hsub : Y.parts ⊆ Z.parts := by
    intro y hy
    have hd := hY.mem_decision hy
    obtain ⟨z, hz, hnode⟩ := hZ.exists_part hd
    have hyfits := hY.parts y hy
    have hzfits := hZ.parts z hz
    have hchoices : y.choices = z.choices := by
      rw [hyfits.choices_eq, hzfits.choices_eq, hnode]
      apply List.map_congr_left
      intro row hrow
      obtain ⟨info, hinfo, hplace⟩ := Table.exists_place?_eq (List.mem_range.1 hrow)
      have hchoose := hsame y.node hd info hinfo
      rw [hY.choose_eq h hy hplace, ← hnode, hZ.choose_eq h hz (hnode.symm ▸ hplace)] at hchoose
      exact Except.ok.inj hchoose
    rwa [hyfits.eq_of_choices hzfits hnode.symm hchoices]
  refine (List.subperm_of_subset hnodup hsub).perm_of_length_le (le_of_eq ?_)
  have hlen := (hZ.nodes.trans hY.nodes.symm).length_eq
  rwa [Strategy.nodes, Strategy.nodes, List.length_map, List.length_map] at hlen

/-- A strategy that differs from another in one choice has the parts of the other one with that choice changed, in some
order. -/
theorem exists_select_perm (h : dia.Accepted) {Y : Strategy} (hY : Y.Fits dia) (hZ : Z.Fits dia) {d : InfoNode}
    (hd : d ∈ dia.D) {info : List State} (hinfo : Table.IndexOf (d.info.map (Table.extent dia.S)) info)
    (hdiffers : Z.DiffersAt dia Y d info) :
    ∃ (k : Nat) (z : LocalStrategy) (row state : Nat), Z.parts[k]? = some z ∧ z.node = d ∧
      row < numInfoStates dia.S d ∧ state < Table.extent dia.S d.index ∧
      selectedState (z.table.rowAt row) ≠ (state : Int) ∧ Y.parts.Perm (Z.select k row state).parts := by
  obtain ⟨z, hz, rfl⟩ := hZ.exists_part hd
  obtain ⟨k, hk⟩ := List.mem_iff_getElem?.1 hz
  obtain ⟨y, hy, hnode⟩ := hY.exists_part hd
  obtain ⟨row, hplace, hrow⟩ := Table.place?_of_inRange hinfo
  have hinRange : InRange (Table.extent dia.S z.node.index) (selectedState (y.table.rowAt row)) := by
    rw [← hnode]
    exact (hY.parts y hy).selectedState_inRange (hnode ▸ hrow)
  obtain ⟨state, hselected⟩ := Int.eq_ofNat_of_zero_le hinRange.1
  have hstate : state < Table.extent dia.S z.node.index := by
    have := hinRange.2
    omega
  have hchoose : (Y.choose z.node.index info : Except (Fault α) State) = .ok (state : Int) := by
    rw [← hselected, ← hnode]
    exact hY.choose_eq h hy (hnode.symm ▸ hplace)
  have hchange : selectedState (z.table.rowAt row) ≠ (state : Int) := by
    intro hsame
    apply (hdiffers z.node hd info hinfo).2 ⟨rfl, rfl⟩
    rw [hchoose, hZ.choose_eq h hz hplace, hsame]
  have hselect := hZ.select hk hrow hstate
  have hchanged := hZ.select_differsAt h hk hstate hchange hinfo hplace
  refine ⟨k, z, row, state, hk, rfl, hrow, hstate, hchange, parts_perm_of_choose_eq h hY hselect ?_⟩
  intro e he i hi
  by_cases hplaced : e = z.node ∧ i = info
  · obtain ⟨rfl, rfl⟩ := hplaced
    rw [hchoose, hZ.select_choose h hk hstate hplace]
  · -- everywhere else both choose what is chosen before
    rw [← not_ne_iff.1 (mt (hdiffers e he i hi).1 hplaced), ← not_ne_iff.1 (mt (hchanged e he i hi).1 hplaced)]

end Fits
end Strategy

/-! ## How many strategies there are -/

/-- The number of ways to choose a state in every information state of every decision node. -/
def Diagram.numStrategies (dia : Diagram α) : Nat :=
  (dia.D.map fun d => Table.extent dia.S d.index ^ numInfoStates dia.S d).prod

theorem LocalStrategy.Fits.choices_mem {S : StateCounts} {z : LocalStrategy} (h : z.Fits S) :
    z.choices ∈ InfluenceDiagrams.choices
      (List.replicate (numInfoStates S z.node) (statesBelow (Table.extent S z.node.index))) := by
  have hdomains : List.replicate (numInfoStates S z.node) (statesBelow (Table.extent S z.node.index)) =
      (List.range (numInfoStates S z.node)).map fun _ => statesBelow (Table.extent S z.node.index) := by
    rw [List.map_const', List.length_range]
  rw [mem_choices, hdomains, h.choices_eq, List.forall₂_map_left_iff, List.forall₂_map_right_iff, List.forall₂_same]
  intro i hi
  exact mem_statesBelow.2 (h.selectedState_inRange (List.mem_range.1 hi))

/-- Of strategies with the same nodes, no two of which make the same choices, there are no more than choices. -/
theorem Diagram.length_le_numStrategies {dia : Diagram α} {nodes : List InfoNode} (hnodes : nodes.Perm dia.D)
    {Zs : List Strategy} (h : ∀ Z ∈ Zs, Z.nodes = nodes ∧ Z.Fits dia)
    (hnodup : (Zs.map fun Z => Z.parts.map LocalStrategy.choices).Nodup) : Zs.length ≤ dia.numStrategies := by
  let all := choices (nodes.map fun d =>
    choices (List.replicate (numInfoStates dia.S d) (statesBelow (Table.extent dia.S d.index))))
  have hsub : (Zs.map fun Z => Z.parts.map LocalStrategy.choices) ⊆ all := by
    intro c hc
    obtain ⟨Z, hZ, rfl⟩ := List.mem_map.1 hc
    obtain ⟨rfl, hfits⟩ := h Z hZ
    rw [mem_choices, Strategy.nodes, List.forall₂_map_left_iff, List.forall₂_map_right_iff, List.forall₂_map_right_iff,
      List.forall₂_same]
    exact fun z hz => (hfits.parts z hz).choices_mem
  have hlen : all.length = dia.numStrategies := by
    rw [Diagram.numStrategies, ← (hnodes.map _).prod_eq, length_choices, List.map_map]
    congr 1
    apply List.map_congr_left
    intro d _
    rw [Function.comp_apply, length_choices, List.map_replicate, List.prod_replicate, length_statesBelow,
      Int.toNat_natCast]
  rw [← hlen, ← List.length_map (f := fun Z : Strategy => Z.parts.map LocalStrategy.choices)]
  exact hnodup.length_le_of_subset hsub

end InfluenceDiagrams
