import InfluenceDiagrams.Proofs.Model.Solutions

/-!
# `InfluenceDiagrams.Proofs.Model.Encoding` — points that stand for strategies

A point stands for a strategy if the variables of every decision node have the zeros and ones of its table,
and those of the paths say which of them the strategy allows. A strategy can only be told from a model if
none of its paths is missing there.

## Contents
- **`Strategy.Admissible`** — all paths of positive probability that a strategy allows have variables.
- **`Encodes`** — the point stands for the strategy; `Encodes.congr`.
- **`encodes_unique`** — a point stands for one strategy at most.
- **`exists_encodes`** — every strategy has a point.
- **`readStrategy_fits`** — the strategy that is read off a point.
-/

namespace InfluenceDiagrams

/-! ## Strategies and points -/

/-- A strategy in the order of the decision nodes. Every path of positive probability that it allows has a
variable. -/
structure Strategy.Admissible (dia : Diagram Rat) (x : PathVariables Rat) (Z : Strategy) : Prop where
  fits : Z.Fits dia
  nodes_eq : Z.nodes = dia.D
  members : ∀ s ∈ dia.allowedPaths Z, 0 < dia.prob s → s ∈ x.paths

/-- The decision variables have the zeros and ones of the tables of a strategy as their values, and the
path variables say which paths it allows. -/
structure Encodes (z : List (DecisionVariables Rat)) (x : PathVariables Rat) (point : VarKey → Rat)
    (Z : Strategy) : Prop where
  tables : List.Forall₂ (fun (v : DecisionVariables Rat) (part : LocalStrategy) => part.node = v.node ∧
    ∀ i ∈ v.z, ∃ b, part.table.get? i.1 = some b ∧ point i.2.key = if b = true then 1 else 0) z Z.parts
  shares : ∀ m ∈ x.members, point m.var.key = if Z.allows m.path = true then 1 else 0

/-- Points that give the variables the same values stand for the same strategies. -/
theorem Encodes.congr {z : List (DecisionVariables Rat)} {x : PathVariables Rat} {p q : VarKey → Rat}
    {Z : Strategy} (hz : ∀ v ∈ z, ∀ i ∈ v.z, q i.2.key = p i.2.key)
    (hx : ∀ m ∈ x.members, q m.var.key = p m.var.key) (h : Encodes z x p Z) : Encodes z x q Z := by
  obtain ⟨htables, hshares⟩ := h
  constructor
  · -- node by node along the two lists
    generalize Z.parts = parts at htables ⊢
    induction htables with
    | nil => exact .nil
    | cons hfirst _ ih =>
        obtain ⟨hv, hz⟩ := List.forall_mem_cons.1 hz
        refine .cons ⟨hfirst.1, ?_⟩ (ih hz)
        intro i hi
        obtain ⟨b, hb, hp⟩ := hfirst.2 i hi
        exact ⟨b, hb, (hv i hi).trans hp⟩
  · intro m hm
    exact (hx m hm).trans (hshares m hm)

namespace Diagram

variable {dia : Diagram Rat} {rules : List ForbiddenRule} {fixed : FixedStates} {point : VarKey → Rat}
  {Z : Strategy}

/-- The same with the variables written out. -/
theorem encodes_iff (hnodes : Z.nodes = dia.D) :
    Encodes (dia.D.map dia.decisionBlock) (dia.pathBlock rules fixed) point Z ↔
      (∀ z ∈ Z.parts, ∀ index ∈ paths (nodeShape dia.S z.node) .empty, ∃ b,
        z.table.get? index = some b ∧ choiceAt point z.node index = if b = true then 1 else 0) ∧
      ∀ s ∈ dia.memberPaths rules fixed, shareAt point s = if Z.allows s = true then 1 else 0 := by
  have htables : List.Forall₂ (fun (v : DecisionVariables Rat) (part : LocalStrategy) => part.node = v.node ∧
      ∀ i ∈ v.z, ∃ b, part.table.get? i.1 = some b ∧ point i.2.key = if b = true then 1 else 0)
        (dia.D.map dia.decisionBlock) Z.parts ↔
      ∀ z ∈ Z.parts, ∀ index ∈ paths (nodeShape dia.S z.node) .empty, ∃ b,
        z.table.get? index = some b ∧ choiceAt point z.node index = if b = true then 1 else 0 := by
    rw [← hnodes, Strategy.nodes, List.map_map, List.forall₂_map_left_iff, List.forall₂_same]
    refine forall₂_congr fun z _ => ?_
    simp only [Function.comp_apply, decisionBlock, true_and, List.forall_mem_map]
    rfl
  have hshares : (∀ m ∈ (dia.pathBlock rules fixed).members,
      point m.var.key = if Z.allows m.path = true then 1 else 0) ↔
        ∀ s ∈ dia.memberPaths rules fixed, shareAt point s = if Z.allows s = true then 1 else 0 := by
    rw [pathBlock]
    exact List.forall_mem_map
  rw [← htables, ← hshares]
  exact ⟨fun h => ⟨h.tables, h.shares⟩, fun h => ⟨h.1, h.2⟩⟩

/-! ## Cells -/

namespace WellFormed

theorem mem_paths_map (h : dia.WellFormed) {nodes : List Node} (hn : ∀ k ∈ nodes, InRange dia.S.length k)
    {index : Path} :
    index ∈ paths (nodes.map (entry dia.S)) .empty ↔
      Table.IndexOf (nodes.map (Table.extent dia.S)) index := by
  rw [paths_map_entry h.counts_pos hn]
  exact Table.mem_indexPaths

theorem mem_nodeShape_iff (h : dia.WellFormed) {d : InfoNode} (hd : d ∈ dia.D) {index : Path} :
    index ∈ paths (nodeShape dia.S d) .empty ↔
      Table.IndexOf (d.scope.map (Table.extent dia.S)) index :=
  h.mem_paths_map (h.accepted.scope_inRange (List.mem_append_right _ hd))

/-- A local strategy that fits has a cell for every decision variable. -/
theorem exists_cell (h : dia.WellFormed) (hZ : Z.Fits dia) {z : LocalStrategy} (hz : z ∈ Z.parts)
    {index : Path} (hindex : index ∈ paths (nodeShape dia.S z.node) .empty) :
    ∃ b, z.table.get? index = some b := by
  apply Table.get?_of_inRange
  rw [(hZ.parts z hz).shaped]
  exact (h.mem_nodeShape_iff (hZ.mem_decision hz)).1 hindex

/-- A path agrees with a local strategy if it leads through a cell with a one. -/
theorem agrees_iff_get? (h : dia.WellFormed) (hZ : Z.Fits dia) {z : LocalStrategy} (hz : z ∈ Z.parts)
    {s : Path} (hs : InSpace dia.S s) :
    z.agrees s = true ↔ z.table.get? (z.node.scope.map (entry s)) = some true := by
  have hn : z.node ∈ dia.C ++ dia.D := List.mem_append_right _ (hZ.mem_decision hz)
  have hinfo : ∀ i ∈ z.node.info, InRange dia.S.length i := fun i hi => (h.info_before hn i hi).1
  have hindex := h.index_inRange hn
  obtain ⟨k, hk, -, hcells⟩ := LocalStrategy.choose?_spec (hZ.parts z hz) (Table.indexOf_map hs hinfo)
  have hown : InRange (Table.extent dia.S z.node.index) (entry s z.node.index) := by
    rw [← entry_eq_extent h.counts_pos hindex]
    exact hs.inRange_entry _ hindex
  rw [LocalStrategy.agrees_iff hs hinfo hindex, hk, InfoNode.scope, List.map_append, List.map_singleton,
    hcells _ hown, Option.some_inj]
  exact eq_comm

/-- A path in space leads through a decision variable of every decision node. -/
theorem scope_mem_nodeShape (h : dia.WellFormed) {d : InfoNode} (hd : d ∈ dia.D) {s : Path}
    (hs : InSpace dia.S s) : d.scope.map (entry s) ∈ paths (nodeShape dia.S d) .empty :=
  h.accepted.scope_mem_nodeShape (List.mem_append_right _ hd) hs

end WellFormed

/-! ## One strategy for a point -/

/-- Local strategies of different nodes, and those of one node that are equal: equal lists. -/
theorem eq_of_nodes_eq : ∀ {xs ys : List LocalStrategy}, xs.map LocalStrategy.node = ys.map LocalStrategy.node →
    (∀ x ∈ xs, ∀ y ∈ ys, x.node = y.node → x = y) → xs = ys
  | [], [], _, _ => rfl
  | [], _ :: _, h, _ => by cases h
  | _ :: _, [], h, _ => by cases h
  | x :: xs, y :: ys, h, heq => by
      obtain ⟨hnode, hnodes⟩ := List.cons.inj h
      rw [heq x List.mem_cons_self y List.mem_cons_self hnode,
        eq_of_nodes_eq hnodes fun a ha b hb => heq a (List.mem_cons_of_mem _ ha) b (List.mem_cons_of_mem _ hb)]

/-- A point stands for one strategy at most. -/
theorem encodes_unique (h : dia.WellFormed) {Y Z : Strategy} (hY : Y.Fits dia) (hZ : Z.Fits dia)
    (hYnodes : Y.nodes = dia.D) (hZnodes : Z.nodes = dia.D)
    (hYpoint : Encodes (dia.D.map dia.decisionBlock) (dia.pathBlock rules fixed) point Y)
    (hZpoint : Encodes (dia.D.map dia.decisionBlock) (dia.pathBlock rules fixed) point Z) : Y = Z := by
  obtain ⟨hYcells, -⟩ := (encodes_iff hYnodes).1 hYpoint
  obtain ⟨hZcells, -⟩ := (encodes_iff hZnodes).1 hZpoint
  have hparts : Y.parts = Z.parts := by
    apply eq_of_nodes_eq (hYnodes.trans hZnodes.symm)
    rintro ⟨d, t⟩ hy ⟨e, u⟩ hz heq
    obtain rfl : d = e := heq
    have hyShape := (hY.parts _ hy).shaped
    have hzShape := (hZ.parts _ hz).shaped
    have htable : t = u := by
      refine Table.ext_get? (hyShape.trans hzShape.symm) ?_
      intro index hindex
      have hmem : index ∈ paths (nodeShape dia.S d) .empty := by
        rw [h.mem_nodeShape_iff (hY.mem_decision hy)]
        rwa [hyShape] at hindex
      obtain ⟨a, ha, hpoint⟩ := hYcells _ hy index hmem
      obtain ⟨b, hb, hpoint'⟩ := hZcells _ hz index hmem
      -- both cells are read off the same variable
      have hab : (if a = true then (1 : Rat) else 0) = if b = true then 1 else 0 := hpoint.symm.trans hpoint'
      have hsame : a = b := by cases a <;> cases b <;> simp at hab ⊢
      rw [ha, hb, hsame]
    rw [htable]
  exact congrArg Strategy.mk hparts

/-! ## A point for a strategy -/

/-- The variables that are one where a point stands for a strategy. -/
def selectedKeys (dia : Diagram Rat) (rules : List ForbiddenRule) (fixed : FixedStates) (Z : Strategy) :
    List VarKey :=
  (Z.parts.flatMap fun z =>
    ((paths (nodeShape dia.S z.node) .empty).filter fun index => z.table.get? index == some true).map
      fun index => (decisionVariable (α := Rat) 0 z.node.index index).key) ++
    ((dia.memberPaths rules fixed).filter Z.allows).map fun s => (pathVariable (α := Rat) 1 s).key

theorem decisionKey_mem_selectedKeys (hD : (dia.indices .decision).Nodup) (hZ : Z.Fits dia)
    {z : LocalStrategy} (hz : z ∈ Z.parts) {index : Path}
    (hindex : index ∈ paths (nodeShape dia.S z.node) .empty) :
    (decisionVariable (α := Rat) 0 z.node.index index).key ∈ selectedKeys dia rules fixed Z ↔
      z.table.get? index = some true := by
  rw [selectedKeys, List.mem_append]
  constructor
  · rintro (hmem | hmem)
    · obtain ⟨y, hy, hmem⟩ := List.mem_flatMap.1 hmem
      obtain ⟨j, hj, hkey⟩ := List.mem_map.1 hmem
      obtain ⟨hj, hone⟩ := List.mem_filter.1 hj
      -- the key tells the node and the index
      obtain ⟨hnode, rfl⟩ := decisionVariable_key_inj (nodeShape_length_pos dia.S _ hj)
        (nodeShape_length_pos dia.S _ hindex) hkey
      -- parts of one node are the same part
      have hnodup : (Z.parts.map fun z => z.node.index).Nodup := hZ.indices_perm.nodup_iff.2 hD
      rw [List.inj_on_of_nodup_map hnodup hy hz hnode] at hone
      exact eq_of_beq hone
    · obtain ⟨s, -, hkey⟩ := List.mem_map.1 hmem
      cases congrArg VarKey.family hkey
  · intro hone
    exact Or.inl (List.mem_flatMap.2 ⟨z, hz, List.mem_map.2 ⟨index,
      List.mem_filter.2 ⟨hindex, beq_iff_eq.2 hone⟩, rfl⟩⟩)

theorem pathKey_mem_selectedKeys {s : Path} (hs : s ∈ dia.memberPaths rules fixed) :
    (pathVariable (α := Rat) 1 s).key ∈ selectedKeys dia rules fixed Z ↔ Z.allows s = true := by
  rw [selectedKeys, List.mem_append]
  constructor
  · rintro (hmem | hmem)
    · obtain ⟨y, -, hmem⟩ := List.mem_flatMap.1 hmem
      obtain ⟨j, -, hkey⟩ := List.mem_map.1 hmem
      cases congrArg VarKey.family hkey
    · obtain ⟨t, ht, hkey⟩ := List.mem_map.1 hmem
      rw [← pathVariable_key_inj hkey]
      exact List.of_mem_filter ht
  · intro hallows
    exact Or.inr (List.mem_map.2 ⟨s, List.mem_filter.2 ⟨hs, hallows⟩, rfl⟩)

/-- Every strategy has a point that stands for it. -/
theorem exists_encodes (rules : List ForbiddenRule) (fixed : FixedStates) (h : dia.WellFormed)
    (hZ : Z.Fits dia) (hnodes : Z.nodes = dia.D) :
    ∃ point, Encodes (dia.D.map dia.decisionBlock) (dia.pathBlock rules fixed) point Z := by
  refine ⟨fun key => if key ∈ selectedKeys dia rules fixed Z then 1 else 0, (encodes_iff hnodes).2 ⟨?_, ?_⟩⟩
  · intro z hz index hindex
    obtain ⟨b, hb⟩ := h.exists_cell hZ hz hindex
    refine ⟨b, hb, ?_⟩
    rw [choiceAt]
    apply if_congr _ rfl rfl
    rw [decisionKey_mem_selectedKeys h.accepted.decision_nodup hZ hz hindex, hb, Option.some_inj]
  · intro s hs
    rw [shareAt]
    exact if_congr (pathKey_mem_selectedKeys hs) rfl rfl

/-- Points that stand for one strategy give the variables of the model the same values. -/
theorem encodes_agree {p q : VarKey → Rat} (hZ : Z.Fits dia) (hnodes : Z.nodes = dia.D)
    (hp : Encodes (dia.D.map dia.decisionBlock) (dia.pathBlock rules fixed) p Z)
    (hq : Encodes (dia.D.map dia.decisionBlock) (dia.pathBlock rules fixed) q Z) {v : Variable Rat}
    (hv : v ∈ dia.modelVariables rules fixed) : p v.key = q v.key := by
  rw [encodes_iff hnodes] at hp hq
  rcases mem_modelVariables.1 hv with ⟨d, hd, index, hindex, rfl⟩ | ⟨s, hs, rfl⟩
  · obtain ⟨z, hz, rfl⟩ := hZ.exists_part hd
    obtain ⟨a, ha, hpa⟩ := hp.1 z hz index hindex
    obtain ⟨b, hb, hqb⟩ := hq.1 z hz index hindex
    obtain rfl : a = b := Option.some.inj (ha.symm.trans hb)
    exact hpa.trans hqb.symm
  · exact (hp.2 s hs).trans (hq.2 s hs).symm

/-! ## Reading a strategy -/

/-- The states that a point selects at a decision node. -/
def readLocal (dia : Diagram Rat) (point : VarKey → Rat) (d : InfoNode) : LocalStrategy :=
  ⟨d, .tabulate (d.scope.map (Table.extent dia.S)) fun index => decide (choiceAt point d index = 1)⟩

/-- The states that a point selects. -/
def readStrategy (dia : Diagram Rat) (point : VarKey → Rat) : Strategy := ⟨dia.D.map (readLocal dia point)⟩

theorem nodes_readStrategy (dia : Diagram Rat) (point : VarKey → Rat) :
    (readStrategy dia point).nodes = dia.D := by
  rw [Strategy.nodes, readStrategy, List.map_map]
  exact List.map_id _

theorem get?_readLocal (h : dia.WellFormed) {d : InfoNode} (hd : d ∈ dia.D) {index : Path}
    (hindex : index ∈ paths (nodeShape dia.S d) .empty) :
    (readLocal dia point d).table.get? index = some (decide (choiceAt point d index = 1)) :=
  Table.get?_tabulate _ ((h.mem_nodeShape_iff hd).1 hindex)

/-- As many of some zeros and ones are one as their sum says. -/
theorem sum_eq_count {f : State → Rat} {ks : List State} (hf : ∀ k ∈ ks, f k = 0 ∨ f k = 1) :
    (ks.map f).sum = ((ks.map fun k => decide (f k = 1)).count true : Nat) := by
  induction ks with
  | nil => rfl
  | cons k ks ih =>
      obtain ⟨hk, hks⟩ := List.forall_mem_cons.1 hf
      rw [List.map_cons, List.sum_cons, ih hks, List.map_cons, List.count_cons]
      rcases hk with hk | hk <;> simp [hk, add_comm]

/-- The strategy that is read off a point fits if one state is selected in every information state. -/
theorem readStrategy_fits (h : dia.WellFormed)
    (hbinary : ∀ d ∈ dia.D, ∀ index ∈ paths (nodeShape dia.S d) .empty,
      choiceAt point d index = 0 ∨ choiceAt point d index = 1)
    (hone : ∀ d ∈ dia.D, ∀ info ∈ paths (d.info.map (entry dia.S)) .empty,
      ((statesBelow (entry dia.S d.index)).map fun k => choiceAt point d (info ++ [k])).sum = 1) :
    (readStrategy dia point).Fits dia := by
  refine ⟨by rw [nodes_readStrategy], ?_⟩
  intro z hz
  obtain ⟨d, hd, rfl⟩ := List.mem_map.1 hz
  refine ⟨rfl, ?_⟩
  have hn : d ∈ dia.C ++ dia.D := List.mem_append_right _ hd
  have hinfo : ∀ i ∈ d.info, InRange dia.S.length i := fun i hi => (h.info_before hn i hi).1
  have hstates := entry_eq_extent h.counts_pos (h.index_inRange hn)
  -- the lines of the table hold the choices of the information states
  rw [readLocal, InfoNode.scope, List.map_append]
  refine (Table.forall_rows_tabulate _).2 fun info hindex => ?_
  have hmem : info ∈ paths (d.info.map (entry dia.S)) .empty := (h.mem_paths_map hinfo).2 hindex
  have hcount := hone d hd info hmem
  rw [sum_eq_count, hstates] at hcount
  · exact_mod_cast hcount
  · intro k hk
    exact hbinary d hd _ (mem_nodeShape_paths.2 ⟨hmem, mem_statesBelow.1 hk⟩)

end Diagram
end InfluenceDiagrams
