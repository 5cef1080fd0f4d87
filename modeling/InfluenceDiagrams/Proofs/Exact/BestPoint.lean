import InfluenceDiagrams.Proofs.Exact.Tableau

/-!
# `InfluenceDiagrams.Proofs.Exact.BestPoint` — the best point of a box is feasible

The best point of a box is inside of it, and satisfies all rows: those that are left out because they hold everywhere
in the box, and those that the repairs are about, in which the variables whose bounds meet are put in.

## Contents
- **`Box.Proper`**, **`Row.Regular`** — boxes that are not empty, and rows that name a variable once.
- **`Row.sumAt`** — the sum of a row at a point; **`Row.sumAt_mem_range`** — its range over a box.
- **`Row.sumAt_eq_add`** — the variables whose bounds meet, and the others.
- **`Tableau.follows_ofBox`**, **`Tableau.run_ofBox_spec`** — the start of the repairs, and what they leave.
- **`bestPoint_spec`** — the main statement.
-/

namespace InfluenceDiagrams.Exact

variable {tol : Tolerance Rat} {b : Box Rat} {p : BoxProgram Rat} {r : Row Rat} {x : Nat → Rat}

/-- The bounds of no variable are the wrong way round, and every variable has two. -/
structure Box.Proper (b : Box Rat) : Prop where
  size_eq : b.highs.size = b.lows.size
  low_le_high : ∀ i, b.low i ≤ b.high i

theorem Box.Proper.betterBound_spec (hb : b.Proper) (p : BoxProgram Rat) (i : Nat) :
    b.low i ≤ betterBound p b i ∧ betterBound p b i ≤ b.high i := by
  unfold betterBound
  split
  · exact ⟨hb.low_le_high i, le_refl _⟩
  · exact ⟨le_refl _, hb.low_le_high i⟩

/-- A row that names a variable once at most, of a number of variables, and whose bounds are not the wrong way round. -/
structure Row.Regular (r : Row Rat) (size : Nat) : Prop where
  distinct : (r.terms.map Prod.fst).Nodup
  lt_size : ∀ t ∈ r.terms, t.1 < size
  low_le_high : ∀ l h, r.low = some l → r.high = some h → l ≤ h

/-- A number between bounds from which a part is taken. -/
theorem Between.of_map_sub {low high : Option Rat} {part y : Rat}
    (h : Between (low.map (· - part)) (high.map (· - part)) y) : Between low high (part + y) where
  low_le l hl := sub_le_iff_le_add'.1 (h.low_le (l - part) (congrArg (Option.map (· - part)) hl))
  le_high u hu := le_sub_iff_add_le'.1 (h.le_high (u - part) (congrArg (Option.map (· - part)) hu))

/-- The sum of a row at a point. -/
def Row.sumAt (r : Row Rat) (x : Nat → Rat) : Rat := (r.terms.map fun t => t.2 * x t.1).sum

/-! ## Rows over a box -/

/-- The value of a term inside of a box is in its range. -/
theorem Box.termRange_spec {t : Nat × Rat} (hlow : b.low t.1 ≤ x t.1) (hhigh : x t.1 ≤ b.high t.1) :
    (b.termRange t).1 ≤ t.2 * x t.1 ∧ t.2 * x t.1 ≤ (b.termRange t).2 := by
  unfold Box.termRange
  split
  · next hpos =>
      have hpos : (0 : Rat) < t.2 := hpos
      exact ⟨mul_le_mul_of_nonneg_left hlow hpos.le, mul_le_mul_of_nonneg_left hhigh hpos.le⟩
  · next hneg =>
      have hneg : t.2 ≤ 0 := not_lt.1 hneg
      exact ⟨mul_le_mul_of_nonpos_left hhigh hneg, mul_le_mul_of_nonpos_left hlow hneg⟩

/-- The sum of a row inside of a box is in its range. -/
theorem Row.sumAt_mem_range (hx : ∀ t ∈ r.terms, b.low t.1 ≤ x t.1 ∧ x t.1 ≤ b.high t.1) :
    (r.range b).1 ≤ r.sumAt x ∧ r.sumAt x ≤ (r.range b).2 := by
  have hfold : ∀ (terms : List (Nat × Rat)) (acc : Rat × Rat),
      (∀ t ∈ terms, b.low t.1 ≤ x t.1 ∧ x t.1 ≤ b.high t.1) →
      let range := terms.foldl (fun acc t => (acc.1 + (b.termRange t).1, acc.2 + (b.termRange t).2)) acc
      range.1 ≤ acc.1 + (terms.map fun t => t.2 * x t.1).sum ∧
        acc.2 + (terms.map fun t => t.2 * x t.1).sum ≤ range.2 := by
    intro terms
    induction terms with
    | nil => exact fun acc _ => ⟨(add_zero _).ge, (add_zero _).le⟩
    | cons t terms ih =>
        intro acc hall
        obtain ⟨ht, hterms⟩ := List.forall_mem_cons.1 hall
        obtain ⟨hlow, hhigh⟩ := Box.termRange_spec ht.1 ht.2
        obtain ⟨hleast, hgreatest⟩ := ih (acc.1 + (b.termRange t).1, acc.2 + (b.termRange t).2) hterms
        rw [List.map_cons, List.sum_cons]
        exact ⟨le_trans hleast (by dsimp only; linarith), le_trans (by dsimp only; linarith) hgreatest⟩
  obtain ⟨hleast, hgreatest⟩ := hfold r.terms (0, 0) hx
  exact ⟨hleast.trans (zero_add _).le, (zero_add _).ge.trans hgreatest⟩

theorem Row.between_of_holdsOn (htol : tol.feasible = 0) (h : r.holdsOn tol b = true)
    (hx : ∀ t ∈ r.terms, b.low t.1 ≤ x t.1 ∧ x t.1 ≤ b.high t.1) : Between r.low r.high (r.sumAt x) := by
  obtain ⟨hleast, hgreatest⟩ := Row.sumAt_mem_range hx
  obtain ⟨habove, hbelow⟩ := Bool.and_eq_true_iff.1 h
  constructor
  · intro l hl
    rw [hl, Option.all_some, decide_eq_true_iff, Tolerance.at_eq_zero htol] at hbelow
    linarith
  · intro u hu
    rw [hu, Option.all_some, decide_eq_true_iff, Tolerance.at_eq_zero htol] at habove
    linarith

theorem Row.coeffOf_cons (t : Nat × Rat) (terms : List (Nat × Rat)) (low high : Option Rat) (i : Nat) :
    Row.coeffOf ⟨t :: terms, low, high⟩ i = if t.1 = i then t.2 else Row.coeffOf ⟨terms, low, high⟩ i := by
  rw [Row.coeffOf, List.find?_cons]
  by_cases h : t.1 = i
  · rw [if_pos h, beq_iff_eq.2 h]
    rfl
  · rw [if_neg h, beq_false_of_ne h]
    rfl

/-- The sum over some variables of their terms is the sum of the terms of these variables. -/
theorem Row.sum_coeffOf {vars : List Nat} (hvars : vars.Nodup) (hr : (r.terms.map Prod.fst).Nodup) :
    (vars.map fun i => r.coeffOf i * x i).sum =
      ((r.terms.filter fun t => decide (t.1 ∈ vars)).map fun t => t.2 * x t.1).sum := by
  obtain ⟨terms, low, high⟩ := r
  induction terms with
  | nil =>
      refine List.sum_eq_zero fun y hy => ?_
      obtain ⟨i, -, rfl⟩ := List.mem_map.1 hy
      exact zero_mul _
  | cons t terms ih =>
      rw [List.map_cons, List.nodup_cons] at hr
      have hnone : Row.coeffOf ⟨terms, low, high⟩ t.1 = 0 := by
        rw [Row.coeffOf, List.find?_eq_none.2]
        · rfl
        · intro u hu heq
          exact hr.1 (eq_of_beq heq ▸ List.mem_map_of_mem hu)
      have hsplit : ∀ i, Row.coeffOf ⟨t :: terms, low, high⟩ i * x i =
          (if t.1 = i then t.2 * x i else 0) + Row.coeffOf ⟨terms, low, high⟩ i * x i := by
        intro i
        rw [Row.coeffOf_cons]
        by_cases h : t.1 = i
        · rw [if_pos h, if_pos h, ← h, hnone, zero_mul, add_zero]
        · rw [if_neg h, if_neg h, zero_add]
      have hsingle : (vars.map fun i => if t.1 = i then t.2 * x i else 0).sum =
          if t.1 ∈ vars then t.2 * x t.1 else 0 := by
        rw [← List.sum_toFinset _ hvars, Finset.sum_ite_eq]
        simp only [List.mem_toFinset]
      simp only [hsplit]
      rw [List.sum_map_add, hsingle, ih hr.2, List.filter_cons]
      by_cases h : t.1 ∈ vars
      · rw [if_pos h, if_pos (decide_eq_true h), List.map_cons, List.sum_cons]
      · rw [if_neg h, if_neg (by rwa [decide_eq_true_iff]), zero_add]

/-- The variables of a row whose bounds meet, and the others. -/
theorem Row.sumAt_eq_add (hr : r.Regular b.lows.size)
    (hfixed : ∀ i < b.lows.size, i ∉ b.openVars tol → x i = betterBound p b i) :
    r.sumAt x = r.fixedPart tol p b + ((b.openVars tol).map fun i => r.coeffOf i * x i).sum := by
  have hvars : (b.openVars tol).Nodup := List.nodup_range.filter _
  have hopen : ∀ t ∈ r.terms, t.1 ∈ b.openVars tol ↔ b.isFixed tol t.1 = false := by
    intro t ht
    rw [Box.openVars, List.mem_filter, List.mem_range, Bool.not_eq_true', and_iff_right (hr.lt_size t ht)]
  rw [Row.sumAt, Row.fixedPart, scalarSum_eq_sum, Row.sum_coeffOf hvars hr.distinct, sum_map_filter, sum_map_filter,
    ← List.sum_map_add]
  refine congrArg List.sum (List.map_congr_left fun t ht => ?_)
  cases h : b.isFixed tol t.1 with
  | true =>
      have hnot : t.1 ∉ b.openVars tol := by rw [hopen t ht, h]; exact Bool.noConfusion
      rw [if_pos rfl, if_neg (by rwa [decide_eq_true_iff]), hfixed t.1 (hr.lt_size t ht) hnot]
      exact (add_zero _).symm
  | false =>
      rw [if_neg Bool.false_ne_true, if_pos (decide_eq_true ((hopen t ht).2 h)), zero_add]

/-! ## The start of the repairs -/

namespace Tableau

theorem ids_columns_ofBox : (ofBox tol p b).columns.map Column.id = b.openVars tol := by
  rw [ofBox, List.map_map]
  exact List.map_id _

theorem mem_basics_ofBox {o : Basic Rat} : o ∈ (ofBox tol p b).basics ↔
    ∃ (k : Nat) (r : Row Rat), p.rows[k]? = some r ∧ r.holdsOn tol b = false ∧ r.basic tol p b (b.lows.size + k) = o := by
  rw [ofBox, List.mem_filterMap]
  constructor
  · rintro ⟨⟨r, k⟩, hmem, h⟩
    dsimp only at h
    cases hholds : r.holdsOn tol b with
    | true =>
        rw [hholds, if_pos rfl] at h
        cases h
    | false =>
        rw [hholds, if_neg Bool.false_ne_true] at h
        exact ⟨k, r, List.mem_zipIdx_iff_getElem?.1 hmem, hholds, Option.some.inj h⟩
  · rintro ⟨k, r, hk, hholds, rfl⟩
    refine ⟨(r, k), List.mem_zipIdx_iff_getElem?.2 hk, ?_⟩
    dsimp only
    rw [hholds, if_neg Bool.false_ne_true]

theorem id_of_eq_some {a : Row Rat × Nat} {o : Basic Rat}
    (h : (match a with
      | (r, k) => if r.holdsOn tol b then none else some (r.basic tol p b (b.lows.size + k))) = some o) :
    o.id = b.lows.size + a.2 := by
  obtain ⟨r, k⟩ := a
  dsimp only at h
  split at h
  · cases h
  · exact (congrArg Basic.id (Option.some.inj h)).symm

theorem ids_ofBox : (ofBox tol p b).entries.map Prod.fst = b.openVars tol ++ (ofBox tol p b).basics.map Basic.id := by
  rw [entries, List.map_append, List.map_map, List.map_map, ← ids_columns_ofBox (p := p)]
  rfl

theorem size_le_of_basics_ofBox {id : Nat} (h : id ∈ (ofBox tol p b).basics.map Basic.id) : b.lows.size ≤ id := by
  obtain ⟨o, ho, rfl⟩ := List.mem_map.1 h
  obtain ⟨k, r, -, -, rfl⟩ := mem_basics_ofBox.1 ho
  exact Nat.le_add_right _ _

theorem ids_ofBox_nodup : ((ofBox tol p b).entries.map Prod.fst).Nodup := by
  have hvars : (b.openVars tol).Nodup := List.nodup_range.filter _
  have hrows : ((ofBox tol p b).basics.map Basic.id).Nodup := by
    rw [List.Nodup, List.pairwise_map, ofBox, List.pairwise_filterMap]
    have hplaces : (p.rows.zipIdx.map Prod.snd).Nodup := by
      rw [List.zipIdx_map_snd]
      exact List.nodup_range'
    refine (List.pairwise_map.1 hplaces).imp fun {a c} hne o ho o' ho' heq => hne ?_
    have hid := id_of_eq_some ho
    have hid' := id_of_eq_some ho'
    omega
  rw [ids_ofBox, List.nodup_append]
  refine ⟨hvars, hrows, ?_⟩
  rintro i hi _ hmem rfl
  exact absurd (List.mem_range.1 (List.mem_filter.1 hi).1) (Nat.not_lt.2 (size_le_of_basics_ofBox hmem))

/-- At the start a row is the combination of the open variables. -/
theorem dot_idAt_ofBox (r : Row Rat) (x : Nat → Rat) :
    dot ((b.openVars tol).map r.coeffOf) (fun i => x ((ofBox tol p b).idAt i)) =
      ((b.openVars tol).map fun i => r.coeffOf i * x i).sum := by
  have hlen : ((b.openVars tol).map r.coeffOf).length = (b.openVars tol).length := List.length_map _
  have hzip := sum_zipWith_eq_dot x hlen
  rw [List.zipWith_map_left, List.zipWith_self] at hzip
  rw [hzip]
  refine dot_congr fun i hi => ?_
  rw [hlen] at hi
  rw [idAt, ids_columns_ofBox, List.getD_eq_getElem _ _ hi, List.getD_eq_getElem _ _ (by rwa [List.length_map]),
    List.getElem_map]

theorem follows_ofBox (hb : b.Proper) : Follows (ofBox tol p b) (ofBox tol p b) where
  entries_perm := .refl _
  coeffs_length := by
    intro o ho
    obtain ⟨k, r, -, -, rfl⟩ := mem_basics_ofBox.1 ho
    exact (List.length_map _).trans (List.length_map _).symm
  inside := by
    intro c hc
    obtain ⟨i, -, rfl⟩ := List.mem_map.1 hc
    have hbetter := hb.betterBound_spec p i
    exact ⟨fun l hl => Option.some.inj hl ▸ hbetter.1, fun u hu => Option.some.inj hu ▸ hbetter.2⟩
  solves := fun _ hx => hx

theorem low_le_high_ofBox (hb : b.Proper) (hrows : ∀ r ∈ p.rows, r.Regular b.lows.size) :
    ∀ e ∈ (ofBox tol p b).entries, ∀ l u, e.2.1 = some l → e.2.2 = some u → l ≤ u := by
  intro e he l u hl hu
  rcases List.mem_append.1 he with hmem | hmem
  · obtain ⟨c, hc, rfl⟩ := List.mem_map.1 hmem
    obtain ⟨i, -, rfl⟩ := List.mem_map.1 hc
    obtain rfl := Option.some.inj hl
    obtain rfl := Option.some.inj hu
    exact hb.low_le_high i
  · obtain ⟨o, ho, rfl⟩ := List.mem_map.1 hmem
    obtain ⟨k, r, hk, -, rfl⟩ := mem_basics_ofBox.1 ho
    obtain ⟨l, hlow, rfl⟩ := Option.map_eq_some_iff.1 hl
    obtain ⟨u, hhigh, rfl⟩ := Option.map_eq_some_iff.1 hu
    exact sub_le_sub_right ((hrows r (List.mem_of_getElem? hk)).low_le_high l u hlow hhigh) _

/-- **What the repairs of a box leave.** The open variables have values between their bounds, the others have none, and the
rows that do not hold everywhere hold for these values. -/
theorem run_ofBox_spec (htol : tol.feasible = 0) (hb : b.Proper) (hrows : ∀ r ∈ p.rows, r.Regular b.lows.size)
    {n : Nat} {t : Tableau Rat} (h : (ofBox tol p b).run tol n = some t) :
    ∃ x : Nat → Rat,
      (∀ i ∈ b.openVars tol, t.value? i = some (x i) ∧ b.low i ≤ x i ∧ x i ≤ b.high i) ∧
      (∀ i < b.lows.size, i ∉ b.openVars tol → t.value? i = none) ∧
      ∀ r ∈ p.rows, r.holdsOn tol b = false →
        Between r.low r.high (r.fixedPart tol p b + ((b.openVars tol).map fun i => r.coeffOf i * x i).sum) := by
  obtain ⟨hfollows, hdone⟩ := (follows_ofBox hb).run htol ids_ofBox_nodup (low_le_high_ofBox hb hrows) h
  obtain ⟨x, hx, hsolves⟩ := hfollows.exists_values htol ids_ofBox_nodup hdone
  refine ⟨x, fun i hi => ?_, fun i hi hnot => ?_, fun r hr hholds => ?_⟩
  · have hmem : ((i, some (b.low i), some (b.high i)) : Entry) ∈ (ofBox tol p b).entries :=
      List.mem_append_left _ (List.mem_map.2 ⟨_, List.mem_map_of_mem hi, rfl⟩)
    obtain ⟨hvalue, hbetween⟩ := hx _ hmem
    exact ⟨hvalue, hbetween.low_le _ rfl, hbetween.le_high _ rfl⟩
  · refine hfollows.value?_eq_none ?_
    rw [ids_ofBox, List.mem_append, not_or]
    exact ⟨hnot, fun hmem => absurd hi (Nat.not_lt.2 (size_le_of_basics_ofBox hmem))⟩
  · obtain ⟨k, hk⟩ := List.getElem?_of_mem hr
    have ho := mem_basics_ofBox.2 ⟨k, r, hk, hholds, rfl⟩
    obtain ⟨-, hbetween⟩ := hx _ (List.mem_append_right _ (List.mem_map_of_mem ho))
    rw [← (hsolves _ ho).trans (dot_idAt_ofBox r x)]
    exact hbetween.of_map_sub

end Tableau

/-! ## The main statement -/

/-- **The best point of a box** is inside of it and satisfies all rows. -/
theorem bestPoint_spec (htol : tol.feasible = 0) (hb : b.Proper) (hrows : ∀ r ∈ p.rows, r.Regular b.lows.size)
    {point : Array Rat} (h : bestPoint tol p b = some point) :
    point.size = b.lows.size ∧
      (∀ i < b.lows.size, b.low i ≤ point.getD i 0 ∧ point.getD i 0 ≤ b.high i) ∧
      ∀ r ∈ p.rows, Between r.low r.high (r.sumAt fun i => point.getD i 0) := by
  obtain ⟨t, hrun, rfl⟩ := Option.map_eq_some_iff.1 h
  obtain ⟨x, hopen, hmet, hsums⟩ := Tableau.run_ofBox_spec htol hb hrows hrun
  have hpoint : ∀ i < b.lows.size, ((List.range b.lows.size).map fun i =>
      (t.value? i).getD (betterBound p b i)).toArray.getD i 0 = (t.value? i).getD (betterBound p b i) := by
    intro i hi
    simp [hi]
  have hsize : ((List.range b.lows.size).map fun i =>
      (t.value? i).getD (betterBound p b i)).toArray.size = b.lows.size := by simp
  generalize (List.map _ _).toArray = point at hpoint hsize ⊢
  have hvalue : ∀ i ∈ b.openVars tol, point.getD i 0 = x i := by
    intro i hi
    rw [hpoint i (List.mem_range.1 (List.mem_filter.1 hi).1), (hopen i hi).1, Option.getD_some]
  have hbound : ∀ i < b.lows.size, i ∉ b.openVars tol → point.getD i 0 = betterBound p b i := by
    intro i hi hnot
    rw [hpoint i hi, hmet i hi hnot, Option.getD_none]
  have hinside : ∀ i < b.lows.size, b.low i ≤ point.getD i 0 ∧ point.getD i 0 ≤ b.high i := by
    intro i hi
    by_cases hvar : i ∈ b.openVars tol
    · rw [hvalue i hvar]
      exact (hopen i hvar).2
    · rw [hbound i hi hvar]
      exact hb.betterBound_spec p i
  refine ⟨hsize, hinside, fun r hr => ?_⟩
  have hregular := hrows r hr
  cases hholds : r.holdsOn tol b with
  | true => exact Row.between_of_holdsOn htol hholds fun t ht => hinside t.1 (hregular.lt_size t ht)
  | false =>
      have hvalues : ((b.openVars tol).map fun i => r.coeffOf i * point.getD i 0) =
          (b.openVars tol).map fun i => r.coeffOf i * x i :=
        List.map_congr_left fun i hi => by rw [hvalue i hi]
      rw [Row.sumAt_eq_add hregular hbound, hvalues]
      exact hsums r hr hholds

end InfluenceDiagrams.Exact
