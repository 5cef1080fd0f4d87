import InfluenceDiagrams.Proofs.Strategy.Choices

/-!
# `InfluenceDiagrams.Proofs.Strategy.Validation` — which tables are local strategies, and what is said of the others

A table of numbers becomes a local strategy if it has the right number of dimensions, which is not more than a table
can have, and every line is one-hot. The lines are checked in row-major order, which is the ascending order of their
information states, so that of several lines that are wrong the one with the least information state is reported. Nothing
is assumed of the numbers: an entry that is not equal to anything is neither zero nor one.

## Contents
- **`OneHot`**, **`LineDefect`** — a line that selects a state, and what is wrong with another one; **`ofRow?_eq_none_iff`**,
  **`ofRow?_eq_some_iff`** — the check of one line finds exactly that.
- **`LocalStrategy.checkRows_error_iff`** — the first wrong line, by induction on the information states.
- **`Table.zip_rows`** — the lines of a table, each with its information state.
- **`Table.FirstDefect`**, **`LocalStrategy.checkRows_table`** — the lines of a table checked.
- **`LocalStrategy.choose_ofTable`** — the state that an accepted table selects.
- **`LocalStrategy.ofTable_bits_select`** — a local strategy with a changed line is accepted again.
- **`LocalStrategy.ofWritten_eq`** — nested lists are read as a table.
- **`LocalStrategy.ofTable_validates`** — which tables are accepted, what they select, and the faults of the others.
-/

namespace InfluenceDiagrams

variable {α : Type} [Scalar α]

/-! ## One line -/

/-- The entry is zero or one. -/
def Numeral.IsBit (e : Numeral α) : Prop := e.isZero = true ∨ e.isOne = true

instance (e : Numeral α) : Decidable e.IsBit := inferInstanceAs (Decidable (_ ∨ _))

/-- Zeros and ones, of these a single one. -/
structure OneHot (row : List (Numeral α)) : Prop where
  bits : ∀ e ∈ row, e.IsBit
  one : row.countP Numeral.isOne = 1

instance (row : List (Numeral α)) : Decidable (OneHot row) :=
  decidable_of_iff ((∀ e ∈ row, e.IsBit) ∧ row.countP Numeral.isOne = 1)
    ⟨fun h => ⟨h.1, h.2⟩, fun h => ⟨h.bits, h.one⟩⟩

/-- What is wrong with a line that is not one-hot. A number of ones is only reported of a line of zeros and ones. -/
inductive LineDefect (row : List (Numeral α)) : RowDefect α → Prop
  | entries : (∃ e ∈ row, ¬e.IsBit) → LineDefect row (.entries row)
  | selected : (∀ e ∈ row, e.IsBit) → row.countP Numeral.isOne ≠ 1 →
      LineDefect row (.selected (row.countP Numeral.isOne))

theorem all_isBit {row : List (Numeral α)} :
    (row.all fun e => e.isZero || e.isOne) = true ↔ ∀ e ∈ row, e.IsBit := by
  simp only [List.all_eq_true, Bool.or_eq_true]
  rfl

theorem ofRow?_eq_none_iff {row : List (Numeral α)} : RowDefect.ofRow? row = none ↔ OneHot row := by
  rw [RowDefect.ofRow?]
  by_cases hbits : ∀ e ∈ row, e.IsBit
  · rw [if_pos (all_isBit.2 hbits)]
    by_cases hone : row.countP Numeral.isOne = 1
    · rw [if_pos hone]
      exact iff_of_true rfl ⟨hbits, hone⟩
    · rw [if_neg hone]
      exact iff_of_false (Option.some_ne_none _) fun h => hone h.one
  · rw [if_neg fun hall => hbits (all_isBit.1 hall)]
    exact iff_of_false (Option.some_ne_none _) fun h => hbits h.bits

theorem ofRow?_eq_some_iff {row : List (Numeral α)} {defect : RowDefect α} :
    RowDefect.ofRow? row = some defect ↔ LineDefect row defect := by
  rw [RowDefect.ofRow?]
  constructor
  · intro h
    split at h
    · rename_i hall
      split at h
      · cases h
      · rename_i hone
        obtain rfl := Option.some.inj h
        exact .selected (all_isBit.1 hall) hone
    · rename_i hall
      obtain rfl := Option.some.inj h
      refine .entries ?_
      by_contra hnone
      push Not at hnone
      exact hall (all_isBit.2 hnone)
  · rintro (⟨e, he, hbit⟩ | ⟨hbits, hone⟩)
    · rw [if_neg fun hall => hbit (all_isBit.1 hall e he)]
    · rw [if_pos (all_isBit.2 hbits), if_neg hone]

/-- A line is one-hot, or one thing is wrong with it. -/
theorem OneHot.not_lineDefect {row : List (Numeral α)} (h : OneHot row) (defect : RowDefect α) :
    ¬LineDefect row defect := by
  rw [← ofRow?_eq_some_iff, ofRow?_eq_none_iff.2 h]
  exact (Option.some_ne_none defect).symm

/-! ## One line after the other -/

namespace LocalStrategy

/-- The lines of information states in ascending order are accepted if all of them are one-hot. -/
theorem checkRows_ok_iff {node : Node} {infos : List (List State)} {line : List State → List (Numeral α)} :
    checkRows node (infos.map fun info => (info, line info)) = .ok () ↔ ∀ info ∈ infos, OneHot (line info) := by
  induction infos with
  | nil => exact iff_of_true rfl fun info hinfo => absurd hinfo List.not_mem_nil
  | cons info infos ih =>
      rw [List.map_cons, checkRows, List.forall_mem_cons, ← ih, ← ofRow?_eq_none_iff]
      cases hrow : RowDefect.ofRow? (line info) with
      | none => simp
      | some defect => simp

/-- Of information states in ascending order, the least one with a wrong line is reported. -/
theorem checkRows_error_iff {node : Node} {infos : List (List State)} {line : List State → List (Numeral α)}
    {f : Fault α} (hsorted : infos.Pairwise (· < ·)) :
    checkRows node (infos.map fun info => (info, line info)) = .error f ↔
      ∃ info ∈ infos, ∃ defect, LineDefect (line info) defect ∧ (∀ i ∈ infos, i < info → OneHot (line i)) ∧
        f = .malformedStrategy node info defect := by
  induction infos with
  | nil => simp [checkRows]
  | cons first infos ih =>
      obtain ⟨hfirst, hsorted⟩ := List.pairwise_cons.1 hsorted
      rw [List.map_cons, checkRows]
      cases hrow : RowDefect.ofRow? (line first) with
      | none =>
          have hone := ofRow?_eq_none_iff.1 hrow
          change checkRows node _ = _ ↔ _
          rw [ih hsorted]
          constructor
          · rintro ⟨info, hinfo, defect, hdefect, hbefore, rfl⟩
            exact ⟨info, List.mem_cons_of_mem _ hinfo, defect, hdefect,
              List.forall_mem_cons.2 ⟨fun _ => hone, hbefore⟩, rfl⟩
          · rintro ⟨info, hinfo, defect, hdefect, hbefore, rfl⟩
            rcases List.mem_cons.1 hinfo with rfl | hinfo
            · exact absurd hdefect (hone.not_lineDefect defect)
            · exact ⟨info, hinfo, defect, hdefect, (List.forall_mem_cons.1 hbefore).2, rfl⟩
      | some defect =>
          change Except.error _ = _ ↔ _
          rw [Except.error.injEq]
          constructor
          · rintro rfl
            refine ⟨first, List.mem_cons_self, defect, ofRow?_eq_some_iff.1 hrow, ?_, rfl⟩
            -- no information state is before the first one
            intro i hi hlt
            rcases List.mem_cons.1 hi with rfl | hi
            · exact absurd hlt (List.lt_irrefl _)
            · exact absurd hlt (List.lt_asymm (hfirst i hi))
          · rintro ⟨info, hinfo, other, hother, hbefore, rfl⟩
            rcases List.mem_cons.1 hinfo with rfl | hinfo
            · rw [← ofRow?_eq_some_iff, hrow] at hother
              rw [Option.some.inj hother]
            · have hone := hbefore first List.mem_cons_self (hfirst info hinfo)
              exact absurd (ofRow?_eq_some_iff.1 hrow) (hone.not_lineDefect defect)

end LocalStrategy

/-! ## The lines of a table -/

namespace Table

variable {β : Type}

theorem exists_row? {t : Table β} {index : List State} (h : IndexOf t.rowShape index) :
    t.row? index = some ((t.row? index).getD []) := by
  obtain ⟨i, hi, -⟩ := place?_of_inRange h
  rw [row?, hi]
  rfl

theorem rows_eq (t : Table β) : t.rows = (indexPaths t.rowShape).map fun info => (t.row? info).getD [] := by
  have hplaces := congrArg (List.map fun i : Option Nat => (i.map t.rowAt).getD []) (map_place?_indexPaths t.rowShape)
  rw [List.map_map, List.map_map] at hplaces
  exact hplaces.symm

/-- The lines of a table in order, each with its information state. -/
theorem zip_rows (t : Table β) :
    (indices t.rowShape).zip t.rows = (indexPaths t.rowShape).map fun info => (info, (t.row? info).getD []) := by
  rw [indices_eq_indexPaths, rows_eq]
  exact List.map_prod_left_eq_zip.symm

theorem indexPaths_sorted (shape : List Nat) : (indexPaths shape).Pairwise (· < ·) := paths_sorted _ _

/-- The line at an information state is the first one that is not one-hot. -/
structure FirstDefect (data : Table (Numeral α)) (info : List State) (defect : RowDefect α) : Prop where
  index : IndexOf data.rowShape info
  line : ∃ row, data.row? info = some row ∧ LineDefect row defect
  before : ∀ i, IndexOf data.rowShape i → i < info → ∃ row, data.row? i = some row ∧ OneHot row

/-- One state for each dimension, counted from either end. -/
def Reached (shape : List Nat) (index : List State) : Prop :=
  List.Forall₂ (fun (n : Nat) k => -(n : Int) ≤ k ∧ k < n) shape index

/-- All dimensions but the last, and the last. -/
theorem shape_eq {t : Table β} (h : t.shape ≠ []) : t.shape = t.rowShape ++ [t.width] := by
  rw [rowShape, width, List.getLast?_eq_some_getLast h]
  exact (List.dropLast_append_getLast h).symm

theorem place?_of_reached {shape : List Nat} {index : List State} (h : Reached shape index) :
    ∃ i, place? shape index = some i ∧ i < places shape := by
  unfold Reached at h
  induction h with
  | nil => exact ⟨0, rfl, Nat.one_pos⟩
  | @cons n k shape index hk _ ih =>
      obtain ⟨i, hi, -⟩ := ih
      obtain ⟨j, hj⟩ := Option.isSome_iff_exists.1 (position?_isSome.2 hk)
      have hp : place? (n :: shape) (k :: index) = some (j * places shape + i) := by
        simp [place?, hj, hi]
      exact ⟨_, hp, place?_lt hp⟩

end Table

namespace LocalStrategy

variable (node : InfoNode) {data : Table (Numeral α)}

/-- The lines of a table are accepted if all of them are one-hot. -/
theorem checkRows_table_ok_iff :
    checkRows node.index ((Table.indices data.rowShape).zip data.rows) = .ok () ↔ ∀ row ∈ data.rows, OneHot row := by
  rw [Table.zip_rows, checkRows_ok_iff, Table.rows_eq, List.forall_mem_map]

/-- Otherwise the first line that is not is reported, with its information state. -/
theorem checkRows_table_error_iff {f : Fault α} :
    checkRows node.index ((Table.indices data.rowShape).zip data.rows) = .error f ↔
      ∃ info defect, data.FirstDefect info defect ∧ f = .malformedStrategy node.index info defect := by
  rw [Table.zip_rows, checkRows_error_iff (Table.indexPaths_sorted _)]
  constructor
  · rintro ⟨info, hinfo, defect, hdefect, hbefore, rfl⟩
    have hindex := Table.mem_indexPaths.1 hinfo
    refine ⟨info, defect, ⟨hindex, ⟨_, Table.exists_row? hindex, hdefect⟩, ?_⟩, rfl⟩
    intro i hi hlt
    exact ⟨_, Table.exists_row? hi, hbefore i (Table.mem_indexPaths.2 hi) hlt⟩
  · rintro ⟨info, defect, ⟨hindex, ⟨row, hrow, hdefect⟩, hbefore⟩, rfl⟩
    refine ⟨info, Table.mem_indexPaths.2 hindex, defect, ?_, ?_, rfl⟩
    · rwa [hrow]
    · intro i hi hlt
      obtain ⟨line, hline, hone⟩ := hbefore i (Table.mem_indexPaths.1 hi) hlt
      rwa [hline]

variable {node}

/-- In every information state, counted from either end, an accepted table selects the one state whose entry is one. -/
theorem choose_ofTable {z : LocalStrategy} (h : ofTable node data = .ok z) {info : List State}
    (hinfo : Table.Reached data.rowShape info) :
    ∃ k, (z.choose info : Except (Fault α) State) = .ok k ∧ InRange data.width k ∧
      ∀ i, InRange data.width i → ∃ e, data.get? (info ++ [i]) = some e ∧ (e.isOne = true ↔ i = k) := by
  obtain ⟨rfl, hones, hwidth⟩ := ofTable_ok h
  have hshape : data.shape = data.rowShape ++ [data.width] := by
    refine Table.shape_eq fun hnil => hwidth ?_
    rw [Table.width, hnil]
    rfl
  obtain ⟨p, hp, hlt⟩ := Table.place?_of_reached hinfo
  have hone : ((data.rowAt p).map Numeral.isOne).count true = 1 :=
    hones _ (List.mem_map_of_mem (List.mem_range.2 hlt))
  have hlen : (data.rowAt p).length = data.width := Table.length_rowAt hshape hlt
  refine ⟨selectedState ((data.rowAt p).map Numeral.isOne), ?_, ?_, ?_⟩
  · have hchoose : choose? ⟨node, data.map Numeral.isOne⟩ info = some (selectedState ((data.rowAt p).map Numeral.isOne)) := by
      rw [choose?, Table.row?, ← Table.rowAt_map]
      change ((Table.place? data.rowShape info).map _).map _ = _
      rw [hp]
      rfl
    rw [choose, hchoose]
  · have hmem : true ∈ (data.rowAt p).map Numeral.isOne := by
      rw [← List.count_pos_iff, hone]
      exact Nat.one_pos
    have hidx := List.idxOf_lt_length_of_mem hmem
    rw [List.length_map, hlen] at hidx
    exact inRange_natCast hidx
  · intro i hi
    have hcell : i.toNat < (data.rowAt p).length := hlen ▸ hi.toNat_lt
    refine ⟨(data.rowAt p)[i.toNat], ?_, ?_⟩
    · rw [Table.get?_append_singleton hshape (List.Forall₂.length_eq hinfo).symm hp hi,
        List.getElem?_eq_getElem hcell]
    · have hiff := getElem_eq_true_iff hone (i := i.toNat)
      rw [List.getElem?_map, List.getElem?_eq_getElem hcell, Option.map_some, Option.some_inj] at hiff
      rw [hiff, selectedState]
      have h0 := hi.1
      omega

/-- A table with the right number of dimensions, none of them of length zero, has its lines checked. -/
theorem ofTable_eq_checkRows (hdepth : data.rank ≤ Table.maxRank) (hrank : data.rank = node.info.length + 1)
    (hshape : ∀ n ∈ data.shape, 0 < n) :
    ofTable node data = (checkRows node.index ((Table.indices data.rowShape).zip data.rows)).map
      fun _ => ⟨node, data.map Numeral.isOne⟩ := by
  have hwidth : data.width ≠ 0 := by
    have hne : data.shape ≠ [] := List.ne_nil_of_length_eq_add_one hrank
    refine Nat.ne_of_gt (hshape data.width ?_)
    rw [Table.shape_eq hne]
    exact List.mem_concat_self
  rw [ofTable_eq_bind hdepth hrank, if_neg hwidth]
  cases checkRows node.index ((Table.indices data.rowShape).zip data.rows) <;> rfl

theorem ofTable_of_tooDeep (node : InfoNode) (hdepth : Table.maxRank < data.rank) :
    ofTable node data = .error .tooManyDimensions := by
  rw [ofTable, Table.checkRank_error hdepth]
  rfl

theorem ofTable_of_rank_ne {node : InfoNode} (hdepth : data.rank ≤ Table.maxRank)
    (hrank : data.rank ≠ node.info.length + 1) : ofTable node data =
      .error (.malformedStrategy node.index [] (.dimensions (node.info.length + 1) data.rank)) := by
  rw [ofTable, Table.checkRank_ok hdepth]
  exact if_neg hrank

theorem ofTable_ok_iff (node : InfoNode) (hshape : ∀ n ∈ data.shape, 0 < n) :
    (∃ z, ofTable node data = .ok z) ↔
      data.rank ≤ Table.maxRank ∧ data.rank = node.info.length + 1 ∧ ∀ row ∈ data.rows, OneHot row := by
  constructor
  · rintro ⟨z, hz⟩
    obtain ⟨hdepth, hrank⟩ := rank_of_ofTable hz
    refine ⟨hdepth, hrank, (checkRows_table_ok_iff node).1 ?_⟩
    rw [ofTable_eq_checkRows hdepth hrank hshape] at hz
    cases hcheck : checkRows node.index ((Table.indices data.rowShape).zip data.rows) with
    | ok u => rfl
    | error f =>
        rw [hcheck] at hz
        cases hz
  · rintro ⟨hdepth, hrank, hrows⟩
    rw [ofTable_eq_checkRows hdepth hrank hshape, (checkRows_table_ok_iff node).2 hrows]
    exact ⟨_, rfl⟩

theorem ofTable_error_iff (node : InfoNode) (hshape : ∀ n ∈ data.shape, 0 < n) {f : Fault α} :
    ofTable node data = .error f ↔
      (Table.maxRank < data.rank ∧ f = .tooManyDimensions) ∨
      (data.rank ≤ Table.maxRank ∧ data.rank ≠ node.info.length + 1 ∧
        f = .malformedStrategy node.index [] (.dimensions (node.info.length + 1) data.rank)) ∨
      (data.rank ≤ Table.maxRank ∧ data.rank = node.info.length + 1 ∧ ∃ info defect, data.FirstDefect info defect ∧
        f = .malformedStrategy node.index info defect) := by
  rcases Nat.lt_or_ge Table.maxRank data.rank with hdeep | hdepth
  · rw [ofTable_of_tooDeep node hdeep, Except.error.injEq]
    simp [hdeep, Nat.not_le_of_lt hdeep, eq_comm]
  by_cases hrank : data.rank = node.info.length + 1
  · rw [ofTable_eq_checkRows hdepth hrank hshape, or_iff_right fun h => Nat.not_lt_of_le hdepth h.1,
      or_iff_right fun h => h.2.1 hrank, and_iff_right hdepth, and_iff_right hrank, ← checkRows_table_error_iff node]
    cases checkRows node.index ((Table.indices data.rowShape).zip data.rows) with
    | ok u =>
        constructor
        · intro hfault
          cases hfault
        · intro hfault
          cases hfault
    | error g =>
        change Except.error g = _ ↔ _
        rw [Except.error.injEq, Except.error.injEq]
  · rw [ofTable_of_rank_ne hdepth hrank, Except.error.injEq, or_iff_right fun h => Nat.not_lt_of_le hdepth h.1,
      or_iff_left fun h => hrank h.2.1, and_iff_right hdepth, and_iff_right hrank, eq_comm]

/-! ## Validated again -/

/-- The entries of a local strategy as numbers. -/
def bits (z : LocalStrategy) : Table (Numeral α) := z.table.map fun b => .int (if b then 1 else 0)

theorem oneHot_bits {row : List Bool} (h : row.count true = 1) :
    OneHot (row.map fun b => (Numeral.int (if b then 1 else 0) : Numeral α)) := by
  constructor
  · rw [List.forall_mem_map]
    intro b _
    cases b with
    | false => exact Or.inl rfl
    | true => exact Or.inr rfl
  · rw [List.countP_map, ← h, List.count]
    refine List.countP_congr fun b _ => ?_
    cases b <;> simp [Numeral.isOne]

theorem map_isOne_bits (z : LocalStrategy) : (bits z : Table (Numeral α)).map Numeral.isOne = z.table := by
  have hid : (Numeral.isOne ∘ fun b => (Numeral.int (if b then 1 else 0) : Numeral α)) = id := by
    funext b
    cases b <;> rfl
  simp only [bits, Table.map, List.map_map, hid, List.map_id]

/-- The entries of a local strategy are accepted, and give it back, if it has the dimensions of its node and selects
one state in every line. -/
theorem ofTable_bits (z : LocalStrategy) (hdepth : z.table.rank ≤ Table.maxRank)
    (hrank : z.table.rank = z.node.info.length + 1) (hwidth : z.table.width ≠ 0)
    (hones : ∀ row ∈ z.table.rows, row.count true = 1) : ofTable z.node (bits z : Table (Numeral α)) = .ok z := by
  have hrows : ∀ row ∈ (bits z : Table (Numeral α)).rows, OneHot row := by
    intro row hrow
    obtain ⟨i, hi, rfl⟩ := List.mem_map.1 hrow
    rw [bits, Table.rowAt_map]
    exact oneHot_bits (hones _ (List.mem_map_of_mem hi))
  rw [ofTable_eq_bind hdepth hrank, (checkRows_table_ok_iff z.node).2 hrows]
  show (if z.table.width = 0 then _ else Except.ok (⟨z.node, (bits z).map Numeral.isOne⟩ : LocalStrategy)) = _
  rw [if_neg hwidth, map_isOne_bits]

/-- **A changed line.** A local strategy that was made of a table is made of its own entries as well, and so it is
when a line of it has been made to select another state. -/
theorem ofTable_bits_select {z : LocalStrategy} (h : ofTable node data = .ok z) {row state : Nat}
    (hrow : row < Table.places z.table.rowShape) (hstate : state < z.table.width) :
    ofTable z.node (bits z : Table (Numeral α)) = .ok z ∧
      ofTable z.node (bits (z.select row state) : Table (Numeral α)) = .ok (z.select row state) := by
  obtain ⟨hdepth, hrank⟩ := rank_of_ofTable h
  obtain ⟨rfl, hones, hwidth⟩ := ofTable_ok h
  have hrows : ∀ line ∈ (data.map Numeral.isOne).rows, line.count true = 1 := by
    intro line hline
    obtain ⟨i, hi, rfl⟩ := List.mem_map.1 hline
    rw [Table.rowAt_map]
    exact hones _ (List.mem_map_of_mem hi)
  refine ⟨ofTable_bits _ hdepth hrank hwidth hrows, ofTable_bits _ hdepth hrank hwidth ?_⟩
  intro line hline
  obtain ⟨i, hi, rfl⟩ := List.mem_map.1 hline
  by_cases heq : i = row
  · have hshape := Table.shape_eq (List.ne_nil_of_length_eq_add_one hrank)
    rw [heq, rowAt_select_self hshape hrow]
    exact count_oneHot hstate
  · rw [rowAt_select_ne heq]
    exact hrows _ (List.mem_map_of_mem hi)

/-- Nested lists that are not ragged are read as the table of their entries, brought to one kind. -/
theorem ofWritten_eq (node : InfoNode) {x : Written α} {t : Table (Numeral α)} (hx : x.rectangle? = some t) :
    ofWritten node x = ofTable node (t.map (Numeral.unify t.entries)) := by
  rw [ofWritten, Written.entries, Written.table, hx]
  change (((Table.checkRank t.rank).bind fun _ => Except.ok t).map _).bind _ = _
  rcases Nat.lt_or_ge Table.maxRank t.rank with hdeep | hdepth
  · have hdeep' : Table.maxRank < (t.map (Numeral.unify t.entries)).rank := hdeep
    rw [Table.checkRank_error hdeep, ofTable_of_tooDeep node hdeep']
    rfl
  · rw [Table.checkRank_ok hdepth]
    rfl

/-- **Validation of a table.** A table without a dimension of length zero is a local strategy exactly if it has no more
dimensions than a table can have, one dimension for each observed node and one more, and every line is one-hot. It then
selects, in every information state in range, the only state whose entry is one. Otherwise too many dimensions are
reported if that is what is wrong, and else the strategy is malformed: a wrong number of dimensions is reported with no
information state, and after that the line with the least information state that is not one-hot. -/
theorem ofTable_validates (node : InfoNode) {data : Table (Numeral α)} (hshape : ∀ n ∈ data.shape, 0 < n) :
    ((∃ z, ofTable node data = .ok z) ↔
      data.rank ≤ Table.maxRank ∧ data.rank = node.info.length + 1 ∧ ∀ row ∈ data.rows, OneHot row) ∧
    (∀ z, ofTable node data = .ok z → z.node = node ∧ ∀ info, Table.Reached data.rowShape info →
      ∃ k, (z.choose info : Except (Fault α) State) = .ok k ∧ InRange data.width k ∧
        ∀ i, InRange data.width i → ∃ e, data.get? (info ++ [i]) = some e ∧ (e.isOne = true ↔ i = k)) ∧
    ∀ f, ofTable node data = .error f ↔
      (Table.maxRank < data.rank ∧ f = .tooManyDimensions) ∨
      (data.rank ≤ Table.maxRank ∧ data.rank ≠ node.info.length + 1 ∧
        f = .malformedStrategy node.index [] (.dimensions (node.info.length + 1) data.rank)) ∨
      (data.rank ≤ Table.maxRank ∧ data.rank = node.info.length + 1 ∧ ∃ info defect, data.FirstDefect info defect ∧
        f = .malformedStrategy node.index info defect) := by
  refine ⟨ofTable_ok_iff node hshape, ?_, fun f => ofTable_error_iff node hshape⟩
  intro z hz
  have hnode : z.node = node := by rw [(ofTable_ok hz).1]
  exact ⟨hnode, fun info hinfo => choose_ofTable hz hinfo⟩

/-- Of three lines the second selects two states; that the third one has a two in it is not reported. -/
def crowdedLines : Table (Numeral Float) := ⟨[3, 2], [.int 1, .int 0, .bool true, .bool true, .int 2, .int 0], rfl⟩

theorem crowdedLines_firstDefect : crowdedLines.FirstDefect [1] (.selected 2) where
  index := Table.mem_indexPaths.1 (by decide)
  line := ⟨[.bool true, .bool true], rfl, .selected (by decide) (by decide)⟩
  before := by
    have hone : ∀ i ∈ Table.indexPaths [3], i < [1] → OneHot ((crowdedLines.row? i).getD []) := by decide
    exact fun i hi hlt => ⟨_, Table.exists_row? hi, hone i (Table.mem_indexPaths.2 hi) hlt⟩

theorem ofTable_validates_crowdedLines :
    ofTable ⟨2, [1]⟩ crowdedLines = .error (.malformedStrategy 2 [1] (.selected 2)) ∧
      ∃ z, ofTable ⟨2, [1]⟩ (⟨[2, 2], [.int 1, .int 0, .bool false, .bool true], rfl⟩ : Table (Numeral Float)) =
        .ok z :=
  ⟨((ofTable_validates ⟨2, [1]⟩ (by decide)).2.2 _).2
      (.inr (.inr ⟨by decide, rfl, [1], .selected 2, crowdedLines_firstDefect, rfl⟩)),
    (ofTable_validates ⟨2, [1]⟩ (by decide)).1.2 ⟨by decide, rfl, by decide⟩⟩

/-- A one inside of many brackets. -/
def deepOne : Table (Numeral Float) := ⟨List.replicate 65 1, [.int 1], by decide⟩

/-- A table with too many dimensions is not malformed, although its number of dimensions is wrong. -/
theorem ofTable_refuses_deepOne : ¬∀ (node : InfoNode) (data : Table (Numeral Float)), (∀ n ∈ data.shape, 0 < n) →
    data.rank ≠ node.info.length + 1 → ofTable node data =
      .error (.malformedStrategy node.index [] (.dimensions (node.info.length + 1) data.rank)) := by
  intro h
  have hmalformed := h ⟨1, []⟩ deepOne (by decide) (by decide)
  rw [ofTable_of_tooDeep ⟨1, []⟩ (by decide)] at hmalformed
  cases hmalformed

end LocalStrategy
end InfluenceDiagrams
