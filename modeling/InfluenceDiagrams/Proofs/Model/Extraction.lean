import Mathlib.Data.Rat.Floor
import Mathlib.Tactic.Linarith
import InfluenceDiagrams.Proofs.Model.Encoding
import InfluenceDiagrams.Proofs.Model.Insertion
import InfluenceDiagrams.Proofs.Strategy.Choices

/-!
# `InfluenceDiagrams.Proofs.Model.Extraction` — strategies read back from values

The decision variables come with one constraint for every information state, and a strategy is read back by rounding
their values, line by line of a table. The two look at the same cells: the indices of the variables, in order, are
those of the table, and the variables of one constraint are a line of it. So with zeros and ones for values a
strategy is read back exactly where the constraints hold. Rounding takes every number to the integer that is
less than one half away, hence values near the table of a strategy give back the strategy.

## Contents
- **`nearestInt?_eq`, `roundedEntry_of_near`** — rounding.
- **`LocalStrategy.ofTable_yields`** — which tables are accepted.
- **`Diagram.nodeBlock`, `decisionVariables_gives`, `decisionVariables_extends`** — the variables and constraints, in a
  family of their own.
- **`Diagram.SelectsOne`** — one state is selected in every information state of a node.
- **`extractLocal_eq_ofTable`, `extractLocal_yields`, `extractStrategy_yields`** — what is read from values near zeros and ones.
- **`extractStrategy_binary`, `Strategy.Fits.extractStrategy_near`** — zeros and ones, and values near a strategy.
- **`extraction_iff_constraints`** — the main statement; **`extraction_refuses_rereading`** — variables that are not read.
-/

namespace InfluenceDiagrams

/-! ## Rounding -/

/-- The integer less than one half away is the nearest one. -/
theorem nearestInt?_eq {x : Rat} {n : Int} (h : |x - n| < 1 / 2) : Scalar.nearestInt? x = some n := by
  have hhalf : (Scalar.half : Rat) = 1 / 2 := by decide +kernel
  obtain ⟨hlow, hhigh⟩ := abs_lt.1 h
  have hfloor : Scalar.floor? x = some ⌊x⌋ := rfl
  rw [Scalar.nearestInt?, hfloor, Option.map_some, hhalf]
  show some (if x - (⌊x⌋ : Rat) < 1 / 2 then ⌊x⌋ else if 1 / 2 < x - (⌊x⌋ : Rat) then ⌊x⌋ + 1
    else if ⌊x⌋ % 2 = 0 then ⌊x⌋ else ⌊x⌋ + 1) = some n
  -- the number lies above the integer or below it
  by_cases hle : (n : Rat) ≤ x
  · have hx : ⌊x⌋ = n := Int.floor_eq_iff.2 ⟨hle, by linarith⟩
    rw [hx, if_pos hhigh]
  · have hx : ⌊x⌋ = n - 1 := by
      rw [Int.floor_eq_iff]
      push_cast
      exact ⟨by linarith, by linarith⟩
    have hrest : x - ((n - 1 : Int) : Rat) = x - n + 1 := by
      push_cast
      ring
    rw [hx, hrest, if_neg (by linarith), if_pos (by linarith), sub_add_cancel]

/-- Zero or one, as an entry of a table of integers. -/
def bit (b : Bool) : Numeral Rat := .int (if b then 1 else 0)

theorem number_bit (b : Bool) : (bit b).number = if b then 1 else 0 := by
  cases b <;> rfl

/-- A value less than one half away from zero or one is rounded to it. -/
theorem roundedEntry_of_near {value : Numeral Rat} {b : Bool} (h : |value.number - (bit b).number| < 1 / 2) :
    roundedEntry value = .ok (bit b) := by
  have hint : (bit b).number = ((if b then 1 else 0 : Int) : Rat) := by cases b <;> rfl
  rw [hint] at h
  have hnear := nearestInt?_eq h
  have hentry : (tableEntry (if b then 1 else 0) : Except (Fault Rat) (Numeral Rat)) = .ok (bit b) := by
    cases b <;> rfl
  cases value with
  | int n =>
      -- an integer that is so near is the same
      have hsame : n = if b then 1 else 0 := by
        have hn : Scalar.nearestInt? (n : Rat) = some n := nearestInt?_eq (by simp)
        exact Option.some.inj (hn.symm.trans hnear)
      rw [roundedEntry, hsame, if_pos (by cases b <;> rfl), hentry]
  | bool c => simp only [roundedEntry, hnear, hentry]
  | real x => simp only [roundedEntry, hnear, hentry]

/-! ## Tables that are accepted -/

namespace LocalStrategy

/-- A table with a dimension for every observed node and one for the own states is accepted if these are not too many
and there is nothing wrong with any line. -/
theorem ofTable_yields {node : InfoNode} {data : Table (Numeral Rat)} {lead : List Nat} {n : Nat}
    (hdepth : node.info.length < Table.maxRank) (hshape : data.shape = lead ++ [n])
    (hrank : lead.length = node.info.length) (hpos : 0 < n) :
    Yields (ofTable node data)
      (fun z => z = ⟨node, data.map Numeral.isOne⟩ ∧ ∀ row ∈ data.rows, RowDefect.ofRow? row = none)
      (fun f => (¬∀ row ∈ data.rows, RowDefect.ofRow? row = none) ∧
        ∃ info defect, f = .malformedStrategy node.index info defect) := by
  have hdimensions : data.rank = node.info.length + 1 := by
    rw [Table.rank, hshape, List.length_append, hrank]
    rfl
  -- every line is checked, each with its information state
  have hrows : ((Table.indices data.rowShape).zip data.rows).map Prod.snd = data.rows := by
    apply List.map_snd_zip
    rw [Table.indices_eq_indexPaths, Table.length_indexPaths, Table.rows, List.length_map, List.length_range]
  rw [ofTable_eq_bind (hdimensions ▸ hdepth) hdimensions]
  have hcheck := checkRows_yields node.index ((Table.indices data.rowShape).zip data.rows)
  rw [hrows] at hcheck
  refine hcheck.bind fun _ hgood => ?_
  rw [if_neg (by rw [Table.width_eq hshape]; omega)]
  exact ⟨rfl, hgood⟩

end LocalStrategy

theorem isOne_bit (b : Bool) : (bit b).isOne = b := by
  cases b <;> rfl

/-- A line of zeros and ones is in order if it has a single one. -/
theorem ofRow?_map_bit (row : List Bool) : RowDefect.ofRow? (row.map bit) = none ↔ row.count true = 1 := by
  have hentries : ((row.map bit).all fun e => e.isZero || e.isOne) = true := by
    rw [List.all_map, List.all_eq_true]
    intro b _
    cases b <;> rfl
  have hcount : (row.map bit).countP Numeral.isOne = row.count true := by
    rw [List.countP_map, List.count]
    congr 1
    funext b
    cases b <;> rfl
  rw [RowDefect.ofRow?, if_pos hentries, hcount]
  split
  · rename_i hone
    exact iff_of_true rfl hone
  · rename_i hone
    exact iff_of_false (by simp) hone

/-! ## Variables and constraints -/

namespace Diagram

variable {dia : Diagram Rat}

/-- The variables of a decision node in a family. -/
def nodeBlock {α : Type} [Scalar α] (dia : Diagram α) (family : Nat) (d : InfoNode) : DecisionVariables α :=
  ⟨d, nodeShape dia.S d, (paths (nodeShape dia.S d) .empty).map fun i => (i, decisionVariable family d.index i)⟩

/-- Creating the decision variables of an accepted diagram gives those of all its decision nodes, in one family, unless
there are too many to list or the name of a constraint is taken. -/
theorem decisionVariables_gives [Lengths] {α : Type} [Scalar α] {dia : Diagram α} (h : dia.Accepted) :
    (decisionVariables dia).Gives (fun z => ∃ family, z = dia.D.map (dia.nodeBlock family))
      fun f => f.OfLength ∨ ∃ name, f = .duplicateConstraint name := by
  have hnode : ∀ d ∈ dia.D, ∀ family, (nodeVariables dia.S family d).Gives (dia.nodeBlock family d = ·)
      fun f => f.OfLength ∨ ∃ name, f = .duplicateConstraint name := by
    intro d hd family
    unfold nodeVariables
    rw [h.decisionShape?_eq (List.mem_append_right _ hd)]
    refine Build.Gives.lift_bind (p := (· = nodeShape dia.S d)) (rfl : _ = _) fun shape hshape => ?_
    subst hshape
    refine Build.Gives.lift_bind ((listPaths_yields _ _).mono (fun _ _ hp => hp) fun _ hf => Or.inl hf)
      fun places hplaces => ?_
    refine Build.Gives.bind (p := fun _ => True) (Build.Gives.forM fun info _ => ?_) fun _ _ => ?_
    · exact Build.Gives.addConstraint fun name => Or.inr ⟨name, rfl⟩
    · rw [hplaces]
      exact Build.Gives.pure rfl
  unfold decisionVariables
  refine Build.Gives.bind (p := fun _ => True) (fun _ _ => trivial) fun family _ => ?_
  refine (Build.Gives.mapM fun d hd => hnode d hd family).mono (fun z hz => ⟨family, ?_⟩) fun _ hf => hf
  rw [← List.forall₂_eq_eq_eq, List.forall₂_map_right_iff]
  exact hz.flip.imp fun _ _ hb => hb.symm

/-- The constraints that one state is selected in every information state of a decision node. -/
def nodeRows (dia : Diagram Rat) (family : Nat) (d : InfoNode) : List (String × Constraint Rat) :=
  (paths (d.info.map (entry dia.S)) .empty).map fun info =>
    (oneDecisionName d.index info, oneDecision family d.index (entry dia.S d.index) info)

/-- The indices of the variables of a decision node, in order, are those of its table. -/
theorem paths_nodeShape (h : dia.Accepted) (hpos : ∀ n ∈ dia.S, 1 ≤ n) {d : InfoNode} (hd : d ∈ dia.D) :
    paths (nodeShape dia.S d) .empty = Table.indexPaths (d.scope.map (Table.extent dia.S)) :=
  paths_map_entry hpos (h.scope_inRange (List.mem_append_right _ hd))

theorem nodeVariables_extends (h : dia.Accepted) {d : InfoNode} (hd : d ∈ dia.D) (family : Nat) :
    (nodeVariables dia.S family d).Extends (dia.nodeBlock family d) (dia.nodeRows family d) := by
  rw [nodeVariables_eq h hd]
  have hrows := Build.Extends.forM fun info (_ : info ∈ paths (d.info.map (entry dia.S)) .empty) =>
    Build.Extends.addConstraint (oneDecisionName d.index info)
      (oneDecision (α := Rat) family d.index (entry dia.S d.index) info)
  rw [← List.map_eq_flatMap] at hrows
  have := hrows.bind (f := fun _ => pure (dia.nodeBlock family d)) (.pure _)
  rwa [List.append_nil] at this

/-- What creating the decision variables makes of a model, in a family that no variable has so far. -/
theorem decisionVariables_extends (h : dia.Accepted) {w v : Workspace Rat} {z : List (DecisionVariables Rat)}
    (hrun : (decisionVariables dia).runOn w = (.ok z, v)) :
    z = dia.D.map (dia.nodeBlock w.model.families) ∧
      v.model.problem.constraints = w.model.problem.constraints ++ dia.D.flatMap (dia.nodeRows w.model.families) := by
  have hextends := Build.Extends.mapM fun d (hd : d ∈ dia.D) => nodeVariables_extends h hd w.model.families
  unfold decisionVariables at hrun
  rw [Build.runOn_bind_ok (Build.runOn_freshFamily w)] at hrun
  obtain ⟨hz, rfl⟩ := hextends.of_ok hrun
  exact ⟨hz, rfl⟩

/-- In a model without constraints the decision variables can be created. -/
theorem decisionVariables_ok (h : dia.Accepted) {w : Workspace Rat} (hnone : w.model.problem.constraints = []) :
    ∃ z v, (decisionVariables dia).runOn w = (.ok z, v) := by
  have hextends := Build.Extends.mapM fun d (hd : d ∈ dia.D) => nodeVariables_extends h hd w.model.families
  have hnames : ((dia.D.flatMap (dia.nodeRows w.model.families)).map Prod.fst).Nodup := by
    have hfamily : (familyNames dia (fun d => paths (d.info.map (entry dia.S)) .empty) fun _ => []).Nodup :=
      familyNames_nodup h (fun _ _ => paths_nodup _ _) (fun _ _ => List.nodup_nil)
        fun _ _ _ hi => absurd hi List.not_mem_nil
    have hones := hfamily.of_append_left.of_append_left
    rw [List.map_flatMap]
    simp only [nodeRows, List.map_map]
    exact hones
  unfold decisionVariables
  rw [Build.runOn_bind_ok (Build.runOn_freshFamily w)]
  cases hrun : (dia.D.mapM (nodeVariables dia.S w.model.families)).runOn
      { w with model := { w.model with families := w.model.families + 1 } } with
  | mk result v =>
      cases result with
      | ok z => exact ⟨z, v, rfl⟩
      | error f =>
          refine absurd ?_ ((hextends _).of_error rfl hrun)
          show ((w.model.problem.constraints ++ _).map Prod.fst).Nodup
          rw [hnone]
          exact hnames

end Diagram

/-! ## Reading back -/

/-- The value of a variable; no value counts as zero. -/
def valueAt (point : VarKey → Option (Numeral Rat)) (key : VarKey) : Rat := ((point key).getD (.int 0)).number

theorem eq_map_of_forall₂ {β γ : Type} {g : β → γ} {p : β → Prop} {xs : List β} {ys : List γ}
    (h : List.Forall₂ (fun x y => y = g x ∧ p x) xs ys) : ys = xs.map g ∧ ∀ x ∈ xs, p x := by
  induction h with
  | nil => exact ⟨rfl, fun x hx => absurd hx List.not_mem_nil⟩
  | cons hfirst _ ih =>
      obtain ⟨rfl, hp⟩ := hfirst
      obtain ⟨rfl, hps⟩ := ih
      exact ⟨rfl, List.forall_mem_cons.2 ⟨hp, hps⟩⟩

namespace Diagram

variable {dia : Diagram Rat} {family : Nat} {point : VarKey → Option (Numeral Rat)}

/-- The table of a decision node with ones where a test says so. -/
def selectionTable (dia : Diagram Rat) (selected : List State → Bool) (d : InfoNode) : LocalStrategy :=
  ⟨d, .tabulate (d.scope.map (Table.extent dia.S)) selected⟩

/-- In every information state of a decision node, one state passes the test. -/
def SelectsOne (dia : Diagram Rat) (selected : List State → Bool) (d : InfoNode) : Prop :=
  ∀ info, Table.IndexOf (d.info.map (Table.extent dia.S)) info →
    ((statesBelow (Table.extent dia.S d.index)).map fun k => selected (info ++ [k])).count true = 1

theorem selectsOne_iff_rows {selected : List State → Bool} {d : InfoNode} :
    dia.SelectsOne selected d ↔ ∀ row ∈ (dia.selectionTable selected d).table.rows, row.count true = 1 := by
  rw [selectionTable, InfoNode.scope, List.map_append]
  exact (Table.forall_rows_tabulate selected (p := fun row => row.count true = 1)).symm

theorem length_shape_nodeBlock (dia : Diagram Rat) (family : Nat) (d : InfoNode) :
    (dia.nodeBlock family d).shape.length = d.info.length + 1 := by
  simp [nodeBlock, nodeShape, InfoNode.scope]

/-- The variables of a decision node that observes too many nodes are not read. -/
theorem extractLocal_of_tooDeep {d : InfoNode} (hdeep : Table.maxRank ≤ d.info.length) :
    extractLocal point (dia.nodeBlock family d) = .error .tooManyDimensions := by
  have hrank : Table.maxRank < (dia.nodeBlock family d).shape.length := by
    rw [length_shape_nodeBlock]
    exact Nat.lt_succ_of_le hdeep
  rw [extractLocal, Table.checkRank_error hrank]
  rfl

/-- No values are read as a strategy if a decision node observes too many nodes. -/
theorem extractStrategy_of_tooDeep {d : InfoNode} (hd : d ∈ dia.D) (hdeep : Table.maxRank ≤ d.info.length) :
    ¬∃ Z, extractStrategy point (dia.D.map (dia.nodeBlock family)) = .ok Z := by
  rintro ⟨Z, hZ⟩
  rw [extractStrategy, List.mapM_map] at hZ
  cases hparts : dia.D.mapM (extractLocal point ∘ dia.nodeBlock family) with
  | error f =>
      rw [hparts] at hZ
      cases hZ
  | ok parts =>
      obtain ⟨z, -, hz⟩ := exists_of_mem_left (forall₂_of_mapM_ok hparts) hd
      rw [Function.comp, extractLocal_of_tooDeep hdeep] at hz
      cases hz

variable (h : dia.Accepted) (hpos : ∀ n ∈ dia.S, 1 ≤ n)

include h hpos

/-- The table that is read holds the zeros and ones. -/
theorem extractLocal_eq_ofTable {d : InfoNode} (hd : d ∈ dia.D) (hdepth : d.info.length < Table.maxRank)
    {selected : List State → Bool}
    (hnear : ∀ index ∈ paths (nodeShape dia.S d) .empty,
      |valueAt point (decisionVariable (α := Rat) family d.index index).key - (bit (selected index)).number| < 1 / 2) :
    extractLocal point (dia.nodeBlock family d) =
      LocalStrategy.ofTable d (.tabulate (d.scope.map (Table.extent dia.S)) fun i => bit (selected i)) := by
  have hscope := h.scope_inRange (List.mem_append_right _ hd)
  have hcounts : ((dia.nodeBlock family d).shape.all fun n => decide (0 ≤ n)) = true := by
    rw [List.all_eq_true]
    intro n hn
    obtain ⟨k, hk, rfl⟩ := List.mem_map.1 hn
    exact decide_eq_true (le_trans zero_le_one (entry_pos hpos (hscope k hk)))
  have hentries : (dia.nodeBlock family d).z.mapM (fun p => roundedValue point p.2) =
      (.ok ((Table.indexPaths (d.scope.map (Table.extent dia.S))).map fun i => bit (selected i)) :
        Except (Fault Rat) _) := by
    rw [nodeBlock, List.mapM_map, ← paths_nodeShape h hpos hd]
    exact mapM_eq_pure fun index hi => roundedEntry_of_near (hnear index hi)
  have hshape : (dia.nodeBlock family d).shape.map Int.toNat = d.scope.map (Table.extent dia.S) := List.map_map
  have hrank : (dia.nodeBlock family d).shape.length ≤ Table.maxRank := by
    rw [length_shape_nodeBlock]
    exact hdepth
  rw [extractLocal, Table.checkRank_ok hrank]
  change (if (dia.nodeBlock family d).shape.all _ = true then _ else _) = _
  rw [if_pos hcounts, hentries]
  show (if hlen : _ then LocalStrategy.ofTable d ⟨(dia.nodeBlock family d).shape.map Int.toNat, _, hlen⟩
    else .error .outOfRange) = _
  simp only [hshape]
  rw [dif_pos (by rw [List.length_map, Table.length_indexPaths])]
  rfl

/-- **One node.** Values near zeros and ones are read as the table of these zeros and ones, if it selects one state
in every information state, and are refused as malformed otherwise. -/
theorem extractLocal_yields {d : InfoNode} (hd : d ∈ dia.D) (hdepth : d.info.length < Table.maxRank)
    {selected : List State → Bool}
    (hnear : ∀ index ∈ paths (nodeShape dia.S d) .empty,
      |valueAt point (decisionVariable (α := Rat) family d.index index).key - (bit (selected index)).number| < 1 / 2) :
    Yields (extractLocal point (dia.nodeBlock family d))
      (fun z => z = dia.selectionTable selected d ∧ dia.SelectsOne selected d)
      (fun f => ¬dia.SelectsOne selected d ∧ ∃ info defect, f = .malformedStrategy d.index info defect) := by
  have hextent : 0 < Table.extent dia.S d.index := by
    have := entry_pos hpos (h.index_inRange (List.mem_append_right _ hd))
    rw [Table.extent]
    omega
  have hsplit : d.scope.map (Table.extent dia.S) =
      d.info.map (Table.extent dia.S) ++ [Table.extent dia.S d.index] := by
    rw [InfoNode.scope, List.map_append]
    rfl
  have hrows : (∀ row ∈ (Table.tabulate (d.scope.map (Table.extent dia.S)) fun i => bit (selected i)).rows,
      RowDefect.ofRow? row = none) ↔ dia.SelectsOne selected d := by
    rw [hsplit, Table.forall_rows_tabulate (p := fun row => RowDefect.ofRow? row = none)]
    refine forall₂_congr fun info _ => ?_
    rw [← ofRow?_map_bit, List.map_map]
    rfl
  rw [extractLocal_eq_ofTable h hpos hd hdepth hnear]
  refine (LocalStrategy.ofTable_yields hdepth hsplit (List.length_map _) hextent).mono ?_ ?_
  · rintro z - ⟨rfl, hgood⟩
    refine ⟨?_, hrows.1 hgood⟩
    rw [Table.map_tabulate, selectionTable]
    simp only [isOne_bit]
  · rintro f ⟨hbad, hf⟩
    exact ⟨fun hone => hbad (hrows.2 hone), hf⟩

/-- **All nodes.** -/
theorem extractStrategy_yields (hdepth : ∀ d ∈ dia.D, d.info.length < Table.maxRank)
    (selected : InfoNode → List State → Bool)
    (hnear : ∀ d ∈ dia.D, ∀ index ∈ paths (nodeShape dia.S d) .empty,
      |valueAt point (decisionVariable (α := Rat) family d.index index).key -
        (bit (selected d index)).number| < 1 / 2) :
    Yields (extractStrategy point (dia.D.map (dia.nodeBlock family)))
      (fun Z => Z = ⟨dia.D.map fun d => dia.selectionTable (selected d) d⟩ ∧
        ∀ d ∈ dia.D, dia.SelectsOne (selected d) d)
      (fun f => (¬∀ d ∈ dia.D, dia.SelectsOne (selected d) d) ∧
        ∃ node info defect, f = .malformedStrategy node info defect) := by
  have hlocal : Yields (dia.D.mapM (extractLocal point ∘ dia.nodeBlock family))
      (List.Forall₂ (fun d z => z = dia.selectionTable (selected d) d ∧ dia.SelectsOne (selected d) d) dia.D)
      (fun f => (¬∀ d ∈ dia.D, dia.SelectsOne (selected d) d) ∧
        ∃ node info defect, f = .malformedStrategy node info defect) := by
    refine Yields.mapM fun d hd => (extractLocal_yields h hpos hd (hdepth d hd) (hnear d hd)).mono (fun _ _ hz => hz) ?_
    rintro f ⟨hbad, info, defect, rfl⟩
    exact ⟨fun hall => hbad (hall d hd), d.index, info, defect, rfl⟩
  rw [extractStrategy, List.mapM_map]
  refine Yields.map (hlocal.mono (fun zs _ hzs => ?_) fun _ hf => hf)
  obtain ⟨rfl, hone⟩ := eq_map_of_forall₂ hzs
  exact ⟨rfl, hone⟩

/-- For values that are zero or one, the constraints say that one state is selected in every information state. -/
theorem holds_nodeRows_iff {values : VarKey → Rat}
    (hbinary : ∀ d ∈ dia.D, ∀ index ∈ paths (nodeShape dia.S d) .empty,
      values (decisionVariable (α := Rat) family d.index index).key = 0 ∨
        values (decisionVariable (α := Rat) family d.index index).key = 1) :
    (∀ c ∈ dia.D.flatMap (dia.nodeRows family), c.2.Holds values) ↔ ∀ d ∈ dia.D,
      dia.SelectsOne (fun index => decide (values (decisionVariable (α := Rat) family d.index index).key = 1)) d := by
  simp only [nodeRows, List.forall_mem_flatMap, List.forall_mem_map]
  refine forall₂_congr fun d hd => ?_
  have hn : d ∈ dia.C ++ dia.D := List.mem_append_right _ hd
  have hstates := entry_eq_extent hpos (h.index_inRange hn)
  rw [SelectsOne, paths_map_entry hpos (h.info_inRange_of_mem hn)]
  simp only [Table.mem_indexPaths]
  refine forall₂_congr fun info hinfo => ?_
  rw [holds_oneDecision_iff, sum_eq_count, hstates, Nat.cast_eq_one]
  intro k hk
  apply hbinary d hd
  rw [mem_nodeShape_paths, paths_map_entry hpos (h.info_inRange_of_mem hn), Table.mem_indexPaths]
  exact ⟨hinfo, mem_statesBelow.1 hk⟩

/-- **Zeros and ones.** A strategy is read back from them where the constraints hold. -/
theorem extractStrategy_binary (hdepth : ∀ d ∈ dia.D, d.info.length < Table.maxRank)
    (hbinary : ∀ d ∈ dia.D, ∀ index ∈ paths (nodeShape dia.S d) .empty,
      valueAt point (decisionVariable (α := Rat) family d.index index).key = 0 ∨
        valueAt point (decisionVariable (α := Rat) family d.index index).key = 1) :
    Yields (extractStrategy point (dia.D.map (dia.nodeBlock family)))
      (fun _ => ∀ c ∈ dia.D.flatMap (dia.nodeRows family), c.2.Holds (valueAt point))
      (fun f => (¬∀ c ∈ dia.D.flatMap (dia.nodeRows family), c.2.Holds (valueAt point)) ∧
        ∃ node info defect, f = .malformedStrategy node info defect) := by
  have hnear : ∀ d ∈ dia.D, ∀ index ∈ paths (nodeShape dia.S d) .empty,
      |valueAt point (decisionVariable (α := Rat) family d.index index).key - (bit (decide
        (valueAt point (decisionVariable (α := Rat) family d.index index).key = 1))).number| < 1 / 2 := by
    intro d hd index hindex
    rw [number_bit]
    rcases hbinary d hd index hindex with hzero | hone
    · simp [hzero]
    · simp [hone]
  rw [holds_nodeRows_iff h hpos hbinary]
  exact (extractStrategy_yields h hpos hdepth _ hnear).mono (fun _ _ hread => hread.2) fun _ hf => hf

end Diagram

/-! ## Values near a strategy -/

/-- Whether a strategy has a one in its table for a decision node at an index. -/
def Strategy.hasOne (Z : Strategy) (d : InfoNode) (index : List State) : Bool :=
  Z.parts.any fun z => decide (z.node = d) && z.table.get? index == some true

namespace Strategy.Fits

variable {dia : Diagram Rat} {Z : Strategy} (hZ : Z.Fits dia) (h : dia.Accepted)

include hZ h

theorem hasOne_iff {z : LocalStrategy} (hz : z ∈ Z.parts) (index : List State) :
    Z.hasOne z.node index = (z.table.get? index == some true) := by
  rw [Strategy.hasOne, Bool.eq_iff_iff, List.any_eq_true]
  constructor
  · rintro ⟨y, hy, hone⟩
    rw [Bool.and_eq_true, decide_eq_true_eq] at hone
    rw [← hZ.part_unique h hy hz (congrArg InfoNode.index hone.1)]
    exact hone.2
  · intro hone
    exact ⟨z, hz, by rw [hone, Bool.and_true, decide_eq_true rfl]⟩

/-- The zero or one of a strategy is that of the table of its part. -/
theorem number_hasOne {z : LocalStrategy} (hz : z ∈ Z.parts) {index : List State} {b : Bool}
    (hb : z.table.get? index = some b) : (bit (Z.hasOne z.node index)).number = if b = true then 1 else 0 := by
  rw [number_bit, hZ.hasOne_iff h hz, hb]
  cases b <;> rfl

/-- The table with the ones of a strategy is that of its part. -/
theorem selectionTable_eq {z : LocalStrategy} (hz : z ∈ Z.parts) :
    dia.selectionTable (Z.hasOne z.node) z.node = z := by
  have hshape := (hZ.parts z hz).shaped
  have htable : Table.tabulate (z.node.scope.map (Table.extent dia.S)) (Z.hasOne z.node) = z.table := by
    refine Table.ext_get? hshape.symm fun index (hindex : Table.IndexOf (z.node.scope.map _) index) => ?_
    have hcell : Table.IndexOf z.table.shape index := by
      rw [hshape]
      exact hindex
    obtain ⟨b, hb⟩ := Table.get?_of_inRange hcell
    rw [Table.get?_tabulate _ hindex, hZ.hasOne_iff h hz, hb]
    cases b <;> rfl
  rw [Diagram.selectionTable, htable]

/-- A strategy selects one state in every information state. -/
theorem selectsOne {d : InfoNode} (hd : d ∈ dia.D) : dia.SelectsOne (Z.hasOne d) d := by
  obtain ⟨z, hz, rfl⟩ := hZ.exists_part hd
  rw [Diagram.selectsOne_iff_rows, hZ.selectionTable_eq h hz]
  exact (hZ.parts z hz).selects

/-- **Values near a strategy** are read as its parts, in the order of the diagram. -/
theorem extractStrategy_near (hpos : ∀ n ∈ dia.S, 1 ≤ n) (hdepth : ∀ d ∈ dia.D, d.info.length < Table.maxRank)
    {family : Nat} {point : VarKey → Option (Numeral Rat)}
    (hnear : ∀ d ∈ dia.D, ∀ index ∈ paths (nodeShape dia.S d) .empty, ∀ z ∈ Z.parts, z.node = d → ∀ b,
      z.table.get? index = some b →
        |valueAt point (decisionVariable (α := Rat) family d.index index).key - if b = true then 1 else 0| < 1 / 2) :
    extractStrategy point (dia.D.map (dia.nodeBlock family)) =
      .ok ⟨dia.D.map fun d => dia.selectionTable (Z.hasOne d) d⟩ := by
  have hbits : ∀ d ∈ dia.D, ∀ index ∈ paths (nodeShape dia.S d) .empty,
      |valueAt point (decisionVariable (α := Rat) family d.index index).key -
        (bit (Z.hasOne d index)).number| < 1 / 2 := by
    intro d hd index hindex
    have hvalue := hnear d hd index hindex
    obtain ⟨z, hz, rfl⟩ := hZ.exists_part hd
    have hcell : Table.IndexOf z.table.shape index := by
      rw [Diagram.paths_nodeShape h hpos hd, Table.mem_indexPaths] at hindex
      rw [(hZ.parts z hz).shaped]
      exact hindex
    obtain ⟨b, hb⟩ := Table.get?_of_inRange hcell
    rw [hZ.number_hasOne h hz hb]
    exact hvalue z hz rfl b hb
  have hread := Diagram.extractStrategy_yields h hpos hdepth Z.hasOne hbits
  cases hresult : extractStrategy point (dia.D.map (dia.nodeBlock family)) with
  | ok Z' => rw [(hread.of_ok hresult).1]
  | error f => exact absurd (fun d hd => hZ.selectsOne h hd) (hread.of_error hresult).1

/-- The parts of a strategy in the order of the diagram choose as the strategy does. -/
theorem reordered_choose {d : InfoNode} (hd : d ∈ dia.D) {info : List State}
    (hinfo : Table.IndexOf (d.info.map (Table.extent dia.S)) info) :
    ∃ k, Z.choose d.index info = (.ok k : Except (Fault Rat) State) ∧
      (Strategy.mk (dia.D.map fun d => dia.selectionTable (Z.hasOne d) d)).choose d.index info =
        (.ok k : Except (Fault Rat) State) := by
  let Z' : Strategy := ⟨dia.D.map fun d => dia.selectionTable (Z.hasOne d) d⟩
  have hparts : ∀ z ∈ Z'.parts, z ∈ Z.parts := by
    intro z hz
    obtain ⟨e, he, rfl⟩ := List.mem_map.1 hz
    obtain ⟨y, hy, rfl⟩ := hZ.exists_part he
    rw [hZ.selectionTable_eq h hy]
    exact hy
  have hnodes : Z'.nodes = dia.D := by
    rw [Strategy.nodes, List.map_map]
    exact List.map_id _
  have hZ' : Z'.Fits dia := ⟨by rw [hnodes], fun z hz => hZ.parts z (hparts z hz)⟩
  obtain ⟨z, hz, rfl⟩ := hZ'.exists_part hd
  obtain ⟨k, hk, -⟩ := LocalStrategy.choose?_spec (hZ'.parts z hz) hinfo
  have hchoose : z.choose info = (.ok k : Except (Fault Rat) State) := by
    rw [LocalStrategy.choose, hk]
  refine ⟨k, ?_, ?_⟩
  · rw [Strategy.choose, hZ.part_eq h (hparts z hz)]
    exact hchoose
  · show Strategy.choose Z' z.node.index info = _
    rw [Strategy.choose, hZ'.part_eq h hz]
    exact hchoose

end Strategy.Fits

/-! ## The main statement -/

/-- **Extraction.** Let every node of an accepted diagram have a state; what the decision nodes observe does not
matter, as long as none of them observes so many nodes that its table would have too many dimensions. The decision
variables can be created in a model without constraints. Wherever they have been created, a strategy is read back from
values that are zero or one exactly if the values satisfy all constraints that were added, and otherwise it is
malformed. From values that are all less than one half away from the zeros and ones of the tables of a strategy, a
strategy is read back that has the decision nodes in the order of the diagram and chooses the same state in every
information state. A variable without a value counts as zero. If a decision node observes too many nodes, no values are
read as a strategy. -/
theorem extraction_iff_constraints {dia : Diagram Rat} (h : dia.Accepted) (hpos : ∀ n ∈ dia.S, 1 ≤ n) :
    (∀ w : Workspace Rat, w.model.problem.constraints = [] → ∃ z v, (decisionVariables dia).runOn w = (.ok z, v)) ∧
    ∀ (w v : Workspace Rat) (z : List (DecisionVariables Rat)), (decisionVariables dia).runOn w = (.ok z, v) →
      ∃ added, v.model.problem.constraints = w.model.problem.constraints ++ added ∧
        ((∀ d ∈ dia.D, d.info.length < Table.maxRank) →
          (∀ point, (∀ block ∈ z, ∀ i ∈ block.z, valueAt point i.2.key = 0 ∨ valueAt point i.2.key = 1) →
            ((∃ Z, extractStrategy point z = .ok Z) ↔ ∀ c ∈ added, c.2.Holds (valueAt point)) ∧
            ((¬∀ c ∈ added, c.2.Holds (valueAt point)) →
              ∃ node info defect, extractStrategy point z = .error (.malformedStrategy node info defect))) ∧
          ∀ (Z : Strategy) (point : VarKey → Option (Numeral Rat)), Z.Fits dia →
            (∀ block ∈ z, ∀ i ∈ block.z, ∀ part ∈ Z.parts, part.node = block.node → ∀ b,
              part.table.get? i.1 = some b → |valueAt point i.2.key - if b = true then 1 else 0| < 1 / 2) →
            ∃ Z', extractStrategy point z = .ok Z' ∧ Z'.nodes = dia.D ∧ ∀ d ∈ dia.D, ∀ info,
              Table.IndexOf (d.info.map (Table.extent dia.S)) info → ∃ k,
                Z.choose d.index info = (.ok k : Except (Fault Rat) State) ∧
                Z'.choose d.index info = (.ok k : Except (Fault Rat) State)) ∧
        ((∃ d ∈ dia.D, Table.maxRank ≤ d.info.length) → ∀ point, ¬∃ Z, extractStrategy point z = .ok Z) := by
  refine ⟨fun w hnone => Diagram.decisionVariables_ok h hnone, fun w v z hrun => ?_⟩
  obtain ⟨rfl, hadded⟩ := Diagram.decisionVariables_extends h hrun
  refine ⟨_, hadded, fun hdepth => ⟨fun point hvalues => ?_, fun Z point hZ hnear => ?_⟩, ?_⟩
  · rw [List.forall_mem_map] at hvalues
    have hread := Diagram.extractStrategy_binary h hpos hdepth fun d hd index hindex =>
      hvalues d hd _ (List.mem_map_of_mem hindex)
    refine ⟨hread.exists_ok_iff, fun hbad => ?_⟩
    obtain ⟨f, hf, node, info, defect, rfl⟩ := hread.exists_error hbad
    exact ⟨node, info, defect, hf⟩
  · rw [List.forall_mem_map] at hnear
    have hread := hZ.extractStrategy_near h hpos hdepth fun d hd index hindex =>
      hnear d hd _ (List.mem_map_of_mem hindex)
    refine ⟨_, hread, ?_, fun d hd info hinfo => hZ.reordered_choose h hd hinfo⟩
    rw [Strategy.nodes, List.map_map]
    exact List.map_id _
  · rintro ⟨d, hd, hdeep⟩ point
    exact Diagram.extractStrategy_of_tooDeep hd hdeep

/-- Three fifths for staying at home with good news and for the umbrella with bad news, and no value otherwise: the
strategy that is read back does just that. All values missing is no strategy. -/
theorem extraction_iff_constraints_umbrella :
    ∃ z v Z node info defect, (decisionVariables umbrella).runOn (.empty "model") = (.ok z, v) ∧
      extractStrategy (fun key => if key.name ∈ ["z_2_0_0", "z_2_1_1"] then some (.real (3 / 5)) else none) z = .ok Z ∧
      Z.choose 2 [0] = (.ok 0 : Except (Fault Rat) State) ∧ Z.choose 2 [1] = (.ok 1 : Except (Fault Rat) State) ∧
      extractStrategy (fun _ => none) z = .error (.malformedStrategy node info defect) := by
  have hmain := extraction_iff_constraints umbrella_wellFormed.accepted umbrella_wellFormed.counts_pos
  obtain ⟨z, v, hrun⟩ := hmain.1 (.empty "model") rfl
  obtain ⟨added, hadded, hread, -⟩ := hmain.2 _ v z hrun
  obtain ⟨hbits, hnear⟩ := hread (by decide)
  obtain ⟨rfl, hrows⟩ := Diagram.decisionVariables_extends umbrella_wellFormed.accepted hrun
  obtain rfl := List.append_cancel_left (hadded.symm.trans hrows)
  obtain ⟨Z, hZ, -, hchoose⟩ := hnear umbrellaStrategy
    (fun key => if key.name ∈ ["z_2_0_0", "z_2_1_1"] then some (.real (3 / 5)) else none)
    umbrellaStrategy_fits (by decide +kernel)
  have hzero : ¬∀ c ∈ umbrella.D.flatMap (umbrella.nodeRows 0), c.2.Holds (valueAt fun _ => none) := by
    rw [Diagram.holds_nodeRows_iff umbrella_wellFormed.accepted umbrella_wellFormed.counts_pos
      fun _ _ _ _ => Or.inl rfl]
    intro hall
    exact absurd (hall ⟨2, [1]⟩ List.mem_cons_self [0] (Table.mem_indexPaths.1 (by decide))) (by decide +kernel)
  obtain ⟨node, info, defect, hmalformed⟩ := (hbits (fun _ => none) fun _ _ _ _ => Or.inl rfl).2 hzero
  obtain ⟨k, hk, hgood⟩ := hchoose ⟨2, [1]⟩ List.mem_cons_self [0] (Table.mem_indexPaths.1 (by decide))
  obtain ⟨l, hl, hbad⟩ := hchoose ⟨2, [1]⟩ List.mem_cons_self [1] (Table.mem_indexPaths.1 (by decide))
  obtain rfl : (0 : State) = k := Except.ok.inj (Eq.trans rfl hk)
  obtain rfl : (1 : State) = l := Except.ok.inj (Eq.trans rfl hl)
  exact ⟨_, v, Z, node, info, defect, hrun, hZ, hgood, hbad, hmalformed⟩

/-- The only thing that can be done satisfies the constraints, but the variables of the clerk who reads a form sixty-four
times are not read. -/
theorem extraction_refuses_rereading :
    rereading.Accepted ∧ (∀ n ∈ rereading.S, 1 ≤ n) ∧
      ∃ z v, (decisionVariables rereading).runOn (.empty "model") = (.ok z, v) ∧
        (∀ c ∈ v.model.problem.constraints, c.2.Holds (valueAt fun _ => some (.int 1))) ∧
        extractStrategy (fun _ => some (.int 1)) z = .error .tooManyDimensions := by
  have hpos : ∀ n ∈ rereading.S, 1 ≤ n := by decide
  obtain ⟨z, v, hrun⟩ := Diagram.decisionVariables_ok rereading_accepted (w := .empty "model") rfl
  obtain ⟨rfl, hrows⟩ := Diagram.decisionVariables_extends rereading_accepted hrun
  refine ⟨rereading_accepted, hpos, _, v, hrun, ?_, ?_⟩
  · rw [hrows]
    change ∀ c ∈ rereading.D.flatMap (rereading.nodeRows 0), _
    rw [Diagram.holds_nodeRows_iff rereading_accepted hpos fun _ _ _ _ => Or.inr rfl]
    intro d hd info _
    rw [List.mem_singleton.1 hd]
    rfl
  · change ([rereading.nodeBlock 0 ⟨1, List.replicate 64 0⟩].mapM (extractLocal _)).map Strategy.mk = _
    rw [List.mapM_cons, Diagram.extractLocal_of_tooDeep (by decide)]
    rfl

end InfluenceDiagrams
