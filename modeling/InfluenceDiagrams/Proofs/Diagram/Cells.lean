import InfluenceDiagrams.Diagram.Table
import InfluenceDiagrams.Proofs.Path.Enumeration

/-!
# `InfluenceDiagrams.Proofs.Diagram.Cells` — the cells of a table, and its lines

A table over some nodes has one dimension for each of them. An index with one admissible state per
dimension has a cell, and the cells that differ in the last state only are the entries of one line.

## Contents
- **`Table.Over`** — the table has a dimension for each of some nodes.
- **`Table.place?_of_inRange`, `Table.get?_of_inRange`** — an index in range has a place and a cell.
- **`Table.row?_spec`** — the line at an index is one of the lines, and holds the cells above it.
- **`Table.rowAt_setRow_self`, `Table.rowAt_setRow_ne`** — the lines of a table when one of them is replaced.
- **`Table.map_place?_indexPaths`** — indices in ascending order have the places `0, 1, …`.
- **`Table.tabulate`**, **`Table.forall_rows_tabulate`** — the table whose cells are given by a function, and
  its lines.
-/

namespace InfluenceDiagrams.Table

variable {β : Type}

/-! ## Indices in range -/

/-- The number of states of a node as a dimension of a table. -/
def extent (S : StateCounts) (k : Node) : Nat := (entry S k).toNat

/-- The table has one dimension for each of some nodes, as long as the node has states. -/
def Over (S : StateCounts) (nodes : List Node) (t : Table β) : Prop := t.shape = nodes.map (extent S)

instance (S : StateCounts) (nodes : List Node) (t : Table β) : Decidable (t.Over S nodes) :=
  inferInstanceAs (Decidable (t.shape = nodes.map (extent S)))

/-- The last dimension is that of the last node. -/
theorem Over.shape_append {S : StateCounts} {info : List Node} {k : Node} {t : Table β}
    (h : t.Over S (info ++ [k])) : t.shape = info.map (extent S) ++ [extent S k] := by
  rw [h, List.map_append]
  rfl

/-- One admissible state for each dimension. -/
def IndexOf (shape : List Nat) (index : List State) : Prop :=
  List.Forall₂ (fun (n : Nat) k => InRange n k) shape index

/-- An index over all dimensions is one over all but the last, with a state for the last one. -/
theorem IndexOf.exists_append {n : Nat} : ∀ {lead : List Nat} {index : List State}, IndexOf (lead ++ [n]) index →
    ∃ info k, IndexOf lead info ∧ InRange n k ∧ index = info ++ [k]
  | [], _, .cons hk .nil => ⟨[], _, .nil, hk, rfl⟩
  | _ :: _, _, .cons hj h => by
      obtain ⟨info, k, hinfo, hk, rfl⟩ := IndexOf.exists_append h
      exact ⟨_ :: info, k, .cons hj hinfo, hk, rfl⟩

theorem indexOf_map {S : StateCounts} {s : Path} (hs : InSpace S s) {nodes : List Node}
    (hn : ∀ k ∈ nodes, InRange S.length k) : IndexOf (nodes.map (extent S)) (nodes.map (entry s)) := by
  unfold IndexOf
  rw [List.forall₂_map_left_iff, List.forall₂_map_right_iff, List.forall₂_same]
  intro k hk
  obtain ⟨h0, hlt⟩ := hs.inRange_entry k (hn k hk)
  rw [extent, Int.toNat_of_nonneg (by omega)]
  exact ⟨h0, hlt⟩

theorem place?_of_inRange {shape : List Nat} {index : List State} (h : IndexOf shape index) :
    ∃ i, place? shape index = some i ∧ i < places shape := by
  unfold IndexOf at h
  induction h with
  | nil => exact ⟨0, rfl, Nat.one_pos⟩
  | @cons n k shape index hk _ ih =>
      obtain ⟨i, hi, -⟩ := ih
      have hp : place? (n :: shape) (k :: index) = some (k.toNat * places shape + i) := by
        simp [place?, position?_eq hk, hi]
      exact ⟨_, hp, place?_lt hp⟩

theorem get?_of_inRange {t : Table β} {index : List State} (h : IndexOf t.shape index) :
    ∃ x, t.get? index = some x := by
  obtain ⟨i, hi, hlt⟩ := place?_of_inRange h
  rw [← t.size_eq] at hlt
  exact ⟨t.entries[i], by simp [get?, hi, hlt]⟩

/-! ## Lines -/

theorem place?_append_singleton {n : Nat} {k : State} :
    ∀ {lead : List Nat} {info : List State}, info.length = lead.length →
      place? (lead ++ [n]) (info ++ [k]) =
        (place? lead info).bind fun i => (position? n k).map (i * n + ·)
  | [], [], _ => by cases h : position? n k <;> simp [place?, h]
  | m :: lead, a :: info, hlen => by
      have hlen' : info.length = lead.length := by simpa using hlen
      have ih := place?_append_singleton (n := n) (k := k) hlen'
      rw [List.cons_append, List.cons_append, place?, place?, ih]
      cases position? m a with
      | none => rfl
      | some i =>
          cases place? lead info with
          | none => rfl
          | some j =>
              cases position? n k with
              | none => rfl
              | some l =>
                  -- both sides are `(i * places lead + j) * n + l`
                  simp only [Option.bind_some, Option.map_some, places_append, places_cons, places_nil]
                  congr 1
                  ring
  | [], _ :: _, hlen => by simp at hlen
  | _ :: _, [], hlen => by simp at hlen

theorem getElem?_rowAt {t : Table β} {i k : Nat} (hk : k < t.width) :
    (t.rowAt i)[k]? = t.entries[i * t.width + k]? := by
  rw [rowAt, List.getElem?_take_of_lt hk, List.getElem?_drop]

theorem rowAt_map {γ : Type} (f : β → γ) (t : Table β) (i : Nat) : (t.map f).rowAt i = (t.rowAt i).map f := by
  rw [rowAt, rowAt, List.map_take, List.map_drop]
  rfl

theorem width_eq {t : Table β} {lead : List Nat} {n : Nat} (hs : t.shape = lead ++ [n]) :
    t.width = n := by
  simp [width, hs]

theorem rowShape_eq {t : Table β} {lead : List Nat} {n : Nat} (hs : t.shape = lead ++ [n]) :
    t.rowShape = lead := by
  simp [rowShape, hs]

theorem length_rowAt {t : Table β} {lead : List Nat} {n i : Nat} (hs : t.shape = lead ++ [n])
    (hi : i < places lead) : (t.rowAt i).length = n := by
  have hsize : t.entries.length = places lead * n := by
    rw [t.size_eq, hs, places_append, places_cons, places_nil, Nat.mul_one]
  -- the line with number `i` ends where the next one starts, inside the entries
  have hle : (i + 1) * n ≤ places lead * n := Nat.mul_le_mul_right n hi
  rw [Nat.succ_mul] at hle
  rw [rowAt, List.length_take, List.length_drop, hsize, width_eq hs]
  omega

/-- A cell is an entry of the line at the other states of its index. -/
theorem get?_append_singleton {t : Table β} {lead : List Nat} {n i : Nat} (hs : t.shape = lead ++ [n])
    {info : List State} (hlen : info.length = lead.length) (hi : place? lead info = some i) {k : State}
    (hk : InRange n k) : t.get? (info ++ [k]) = (t.rowAt i)[k.toNat]? := by
  have hw : k.toNat < t.width := by
    rw [width_eq hs]
    exact hk.toNat_lt
  rw [getElem?_rowAt hw, get?, hs, place?_append_singleton hlen, hi, position?_eq hk, width_eq hs]
  rfl

/-- The line at an index over all dimensions but the last is one of the lines, and the cells above the
index are its entries in order. -/
theorem row?_spec {t : Table β} {lead : List Nat} {n : Nat} (hs : t.shape = lead ++ [n])
    {info : List State} (hinfo : IndexOf lead info) :
    ∃ row ∈ t.rows, t.row? info = some row ∧ row.length = n ∧
      (∀ k, InRange n k → t.get? (info ++ [k]) = row[k.toNat]?) := by
  obtain ⟨i, hi, hlt⟩ := place?_of_inRange hinfo
  refine ⟨t.rowAt i, ?_, ?_, length_rowAt hs hlt, ?_⟩
  · rw [rows, rowShape_eq hs]
    exact List.mem_map_of_mem (List.mem_range.2 hlt)
  · rw [row?, rowShape_eq hs, hi]
    rfl
  · intro k hk
    exact get?_append_singleton hs (List.Forall₂.length_eq hinfo).symm hi hk

/-- Every entry stands in a line. -/
theorem exists_row_of_mem_entries {t : Table β} {lead : List Nat} {n : Nat} (hs : t.shape = lead ++ [n])
    {x : β} (hx : x ∈ t.entries) : ∃ row ∈ t.rows, x ∈ row := by
  obtain ⟨i, hi, rfl⟩ := List.getElem_of_mem hx
  have hsize : i < places lead * n := by
    rwa [t.size_eq, hs, places_append, places_cons, places_nil, Nat.mul_one] at hi
  have hn : 0 < n := Nat.pos_of_ne_zero fun h0 => by simp [h0] at hsize
  refine ⟨t.rowAt (i / n), ?_, ?_⟩
  · rw [rows, rowShape_eq hs]
    exact List.mem_map_of_mem (List.mem_range.2 (Nat.div_lt_of_lt_mul (by rwa [Nat.mul_comm])))
  · have hk : i % n < t.width := by
      rw [width_eq hs]
      exact Nat.mod_lt i hn
    have hcell := getElem?_rowAt (i := i / n) hk
    rw [width_eq hs, Nat.div_add_mod', List.getElem?_eq_getElem hi] at hcell
    exact List.mem_of_getElem? hcell

/-! ## Replacing a line -/

theorem getElem?_overwrite (entries : List β) (start : Nat) (new : List β) (m : Nat) :
    (overwrite entries start new)[m]? =
      entries[m]?.map fun x => if start ≤ m then (new[m - start]?).getD x else x := by
  rw [overwrite, List.getElem?_map, List.getElem?_zipIdx, Option.map_map]
  simp [Function.comp_def]

/-- The line that was replaced. -/
theorem rowAt_setRow_self {t : Table β} {lead : List Nat} {n i : Nat} (hs : t.shape = lead ++ [n])
    (hi : i < places lead) {row : List β} (hrow : row.length = n) : (t.setRow i row).rowAt i = row := by
  have hw : t.width = n := width_eq hs
  have hlen : ((t.setRow i row).rowAt i).length = n := length_rowAt (t := t.setRow i row) hs hi
  apply List.ext_getElem?
  intro k
  by_cases hk : k < n
  · have hold : k < (t.rowAt i).length := by rw [length_rowAt hs hi]; exact hk
    have hcell : t.entries[i * n + k]? = some (t.rowAt i)[k] := by
      rw [← List.getElem?_eq_getElem hold, getElem?_rowAt (by rwa [hw]), hw]
    rw [getElem?_rowAt (t := t.setRow i row) (show k < t.width by rwa [hw])]
    show (overwrite t.entries (i * t.width) (row.take t.width))[i * t.width + k]? = row[k]?
    rw [getElem?_overwrite, hw, hcell, Option.map_some, if_pos (Nat.le_add_right _ _), Nat.add_sub_cancel_left,
      List.take_of_length_le (Nat.le_of_eq hrow), List.getElem?_eq_getElem (by rwa [hrow]), Option.getD_some]
  · rw [List.getElem?_eq_none (by omega), List.getElem?_eq_none (by omega)]

/-- The other lines stay. -/
theorem rowAt_setRow_ne {t : Table β} {i j : Nat} (hne : j ≠ i) (row : List β) :
    (t.setRow i row).rowAt j = t.rowAt j := by
  apply List.ext_getElem?
  intro k
  by_cases hk : k < t.width
  · rw [getElem?_rowAt hk, getElem?_rowAt (t := t.setRow i row) hk]
    show (overwrite t.entries (i * t.width) (row.take t.width))[j * t.width + k]? = t.entries[j * t.width + k]?
    -- an earlier line ends before the replaced one starts, and a later one starts after it
    have hcell : ∀ x, (if i * t.width ≤ j * t.width + k then
        ((row.take t.width)[j * t.width + k - i * t.width]?).getD x else x) = x := by
      intro x
      rcases Nat.lt_or_gt_of_ne hne with hlt | hgt
      · have hle := Nat.mul_le_mul_right t.width hlt
        rw [Nat.succ_mul] at hle
        rw [if_neg (by omega)]
      · have hle := Nat.mul_le_mul_right t.width hgt
        rw [Nat.succ_mul] at hle
        have htake := List.length_take_le t.width row
        rw [List.getElem?_eq_none (by omega), Option.getD_none, ite_self]
    rw [getElem?_overwrite]
    simp only [hcell]
    exact Option.map_id'
  · have hle : t.width ≤ k := Nat.le_of_not_lt hk
    exact (List.getElem?_take_eq_none hle).trans (List.getElem?_take_eq_none hle).symm

/-- A line read off cell by cell. -/
theorem map_statesBelow_eq {row : List β} {n : Nat} (hlen : row.length = n) {f : State → β}
    (h : ∀ k, InRange n k → some (f k) = row[k.toNat]?) : (statesBelow n).map f = row := by
  apply List.ext_getElem
  · simp [hlen]
  · intro i hi hi'
    have := h (i : Int) (inRange_natCast (by omega))
    simpa [statesBelow, hi'] using this

/-! ## Tables given by a function -/

/-- The indices of a shape as paths over its dimensions. -/
def indexPaths (shape : List Nat) : List (List State) := paths (shape.map Int.ofNat) .empty

theorem mem_indexPaths {shape : List Nat} {index : List State} :
    index ∈ indexPaths shape ↔ IndexOf shape index := by
  rw [indexPaths, mem_paths_empty, IndexOf, List.forall₂_iff_get]
  constructor
  · rintro ⟨hlen, h⟩
    rw [List.length_map] at hlen
    refine ⟨hlen.symm, ?_⟩
    intro i hi hi'
    have := h (i : Int) (inRange_natCast (by simpa using hi))
    rw [entry_natCast, entry_natCast] at this
    simpa [hi, hi'] using this
  · rintro ⟨hlen, h⟩
    refine ⟨by simp [hlen], ?_⟩
    intro k hk
    have hi : k.toNat < shape.length := by simpa using hk.toNat_lt
    have := h k.toNat hi (hlen ▸ hi)
    rw [entry, entry]
    simpa [hi, hlen ▸ hi] using this

theorem flatMap_range_mul (n m : Nat) :
    ((List.range n).flatMap fun i => (List.range m).map (i * m + ·)) = List.range (n * m) := by
  induction n with
  | zero => simp
  | succ n ih => rw [List.range_succ, List.flatMap_append, ih, List.flatMap_singleton, Nat.succ_mul, List.range_add]

/-- The indices of a shape, in ascending order, have the places of the table in order. -/
theorem map_place?_indexPaths (shape : List Nat) :
    (indexPaths shape).map (place? shape) = (List.range (places shape)).map some := by
  unfold indexPaths
  rw [paths_empty]
  induction shape with
  | nil => rfl
  | cons n shape ih =>
      -- the indices that start with `i` have the places of the `i`-th block
      have hline : ∀ i ∈ List.range n,
          (choices ((shape.map Int.ofNat).map statesBelow)).map
            (fun index => place? (n :: shape) ((i : Int) :: index)) =
              ((List.range (places shape)).map (i * places shape + ·)).map some := by
        intro i hi
        have hplace : (fun index => place? (n :: shape) ((i : Int) :: index)) =
            Option.map (i * places shape + ·) ∘ place? shape := by
          funext index
          simp [place?, position?_natCast (List.mem_range.1 hi)]
        rw [hplace, ← List.map_map, ih, List.map_map, List.map_map]
        rfl
      rw [List.map_cons, List.map_cons, choices, places_cons, ← flatMap_range_mul, List.map_flatMap,
        List.map_flatMap, statesBelow, List.flatMap_map]
      simp only [List.map_map, Function.comp_def] at hline ⊢
      exact List.flatMap_congr hline

theorem length_indexPaths (shape : List Nat) : (indexPaths shape).length = places shape := by
  have := congrArg List.length (map_place?_indexPaths shape)
  simpa using this

theorem place?_getElem_indexPaths {shape : List Nat} {i : Nat} (hi : i < (indexPaths shape).length) :
    place? shape (indexPaths shape)[i] = some i := by
  have h : ((indexPaths shape).map (place? shape))[i]? = ((List.range (places shape)).map some)[i]? := by
    rw [map_place?_indexPaths]
  have hlt : i < places shape := by rwa [← length_indexPaths]
  simpa [hi, hlt] using h

/-- Every line is the line at an index. -/
theorem exists_row?_eq {t : Table β} {lead : List Nat} {n : Nat} (hs : t.shape = lead ++ [n]) {row : List β}
    (hrow : row ∈ t.rows) : ∃ info, IndexOf lead info ∧ t.row? info = some row := by
  rw [rows, rowShape_eq hs] at hrow
  obtain ⟨i, hi, rfl⟩ := List.mem_map.1 hrow
  have hlt : i < (indexPaths lead).length := by rwa [length_indexPaths, ← List.mem_range]
  refine ⟨(indexPaths lead)[i], mem_indexPaths.1 (List.getElem_mem hlt), ?_⟩
  rw [row?, rowShape_eq hs, place?_getElem_indexPaths hlt]
  rfl

theorem indices_eq_indexPaths (shape : List Nat) : indices shape = indexPaths shape := by
  rw [indexPaths, paths_empty, indices, List.map_map]
  rfl

/-- Every place of a shape is that of an index. -/
theorem exists_place?_eq {shape : List Nat} {i : Nat} (hi : i < places shape) :
    ∃ index, IndexOf shape index ∧ place? shape index = some i := by
  have hlt : i < (indexPaths shape).length := by rwa [length_indexPaths]
  exact ⟨(indexPaths shape)[i], mem_indexPaths.1 (List.getElem_mem hlt), place?_getElem_indexPaths hlt⟩

/-- Indices in one place are the same index. -/
theorem place?_inj {shape : List Nat} {a b : List State} (ha : IndexOf shape a) (hb : IndexOf shape b)
    (h : place? shape a = place? shape b) : a = b := by
  have hnodup : ((indexPaths shape).map (place? shape)).Nodup := by
    rw [map_place?_indexPaths]
    exact List.nodup_range.map (Option.some_injective _)
  exact List.inj_on_of_nodup_map hnodup (mem_indexPaths.2 ha) (mem_indexPaths.2 hb) h

/-- The table whose cells are given by a function of the index. -/
def tabulate (shape : List Nat) (f : List State → β) : Table β :=
  ⟨shape, (indexPaths shape).map f, by rw [List.length_map, length_indexPaths]⟩

theorem get?_tabulate {shape : List Nat} (f : List State → β) {index : List State}
    (h : IndexOf shape index) : (tabulate shape f).get? index = some (f index) := by
  obtain ⟨i, hi, rfl⟩ := List.getElem_of_mem (mem_indexPaths.2 h)
  have hplace : place? (tabulate shape f).shape (indexPaths shape)[i] = some i :=
    place?_getElem_indexPaths hi
  rw [get?, hplace]
  simp [tabulate, hi]

theorem map_tabulate {γ : Type} (g : β → γ) (shape : List Nat) (f : List State → β) :
    (tabulate shape f).map g = tabulate shape fun index => g (f index) := by
  simp only [tabulate, map, List.map_map]
  rfl

/-- The line at an index holds the values for all states of the last dimension. -/
theorem row?_tabulate {lead : List Nat} {n : Nat} (f : List State → β) {info : List State}
    (h : IndexOf lead info) :
    (tabulate (lead ++ [n]) f).row? info = some ((statesBelow n).map fun k => f (info ++ [k])) := by
  obtain ⟨row, -, hline, hlen, hcells⟩ := row?_spec (t := tabulate (lead ++ [n]) f) rfl h
  rw [hline, Option.some_inj]
  refine (map_statesBelow_eq hlen fun k hk => ?_).symm
  rw [← hcells k hk, get?_tabulate]
  exact List.rel_append h (.cons hk .nil)

/-- What holds of all lines holds of the values at every index over all dimensions but the last. -/
theorem forall_rows_tabulate {lead : List Nat} {n : Nat} (f : List State → β) {p : List β → Prop} :
    (∀ row ∈ (tabulate (lead ++ [n]) f).rows, p row) ↔
      ∀ info, IndexOf lead info → p ((statesBelow n).map fun k => f (info ++ [k])) := by
  constructor
  · intro hrows info hinfo
    obtain ⟨row, hrow, hline, -⟩ := row?_spec (t := tabulate (lead ++ [n]) f) rfl hinfo
    rw [row?_tabulate f hinfo, Option.some_inj] at hline
    exact hline ▸ hrows row hrow
  · intro hinfos row hrow
    obtain ⟨info, hinfo, hline⟩ := exists_row?_eq (t := tabulate (lead ++ [n]) f) rfl hrow
    rw [row?_tabulate f hinfo, Option.some_inj] at hline
    exact hline ▸ hinfos info hinfo

/-- Tables of one shape with the same cells are equal. -/
theorem ext_get? {t u : Table β} (hs : t.shape = u.shape)
    (h : ∀ index, IndexOf t.shape index → t.get? index = u.get? index) : t = u := by
  have hentries : t.entries = u.entries := by
    apply List.ext_getElem (by rw [t.size_eq, u.size_eq, hs])
    intro i ht hu
    have hi : i < (indexPaths t.shape).length := by rwa [length_indexPaths, ← t.size_eq]
    have hplace := place?_getElem_indexPaths hi
    have hcell := h _ (mem_indexPaths.1 (List.getElem_mem hi))
    rw [get?, get?, ← hs, hplace] at hcell
    simpa [ht, hu] using hcell
  -- the number of entries is a proof about the other two fields
  cases t
  cases u
  cases hs
  cases hentries
  rfl

end InfluenceDiagrams.Table
