import InfluenceDiagrams.Proofs.Diagram.Shift
import InfluenceDiagrams.Proofs.Model.Links
import InfluenceDiagrams.Proofs.Strategy.CompatibleListing

/-!
# `InfluenceDiagrams.Proofs.Model.StrategyBound` — the coefficients of the decisions are as small as they can be

The paths through a decision are bounded by a multiple of its variable. If all entries of the probability tables are
positive and nothing is forbidden, every path has a variable, and the factor is the least that cuts off no strategy:
none has more compatible paths through the decision. A strategy with that many is found by following a path through
the decision. It takes the decisions of the path whatever it sees, so that all its compatible paths have these
decisions, and they lead through this one where they have the same chance states in its scope.

## Contents
- **`Diagram.following`** — the strategy that takes the decisions of a path; **`Staged.length_following`** — how many of
  its paths lead through one of them.
- **`Staged.length_through_le`, `Staged.exists_length_through`** — no strategy has more paths through a decision, and
  some strategy has as many.
- **`Tabulated.memberPaths_eq`** — all paths have variables; **`strategyBound_eq_freeCount`** — what the coefficient is.
- **`coefficient?_strategyConstraint`** — where it stands in the constraint.
- **`strategyBound_greatest`** — the main statement.
-/

namespace InfluenceDiagrams

namespace Diagram

variable {dia : Diagram Rat} {t : Path}

/-! ## Following a path -/

/-- The strategy that takes the decisions of a path in every information state. -/
def following (dia : Diagram Rat) (t : Path) : Strategy :=
  ⟨dia.D.map fun d => dia.selectionTable (fun index => index.getLast? == some (entry t d.index)) d⟩

theorem following_fits (h : dia.Staged) (ht : InSpace dia.S t) : (dia.following t).Fits dia where
  nodes := by
    rw [Strategy.nodes, following, List.map_map]
    exact .of_eq (List.map_id _)
  parts := by
    intro z hz
    obtain ⟨d, hd, rfl⟩ := List.mem_map.1 hz
    have hindex := h.accepted.index_inRange (List.mem_append_right _ hd)
    refine ⟨rfl, selectsOne_iff_rows.1 fun info _ => ?_⟩
    -- the state of the path, and no other one
    have hstate : entry t d.index ∈ statesBelow (Table.extent dia.S d.index) := by
      rw [mem_statesBelow, Table.extent, Int.toNat_of_nonneg (by have := entry_pos h.counts_pos hindex; omega)]
      exact ht.inRange_entry _ hindex
    have hcount := List.count_eq_one_of_mem (statesBelow_nodup _) hstate
    rw [List.count, List.countP_map, ← hcount, List.count]
    congr 1
    funext k
    simp

/-- Every path that the strategy allows has the decisions of the given one. -/
theorem entry_of_following (h : dia.Staged) (ht : InSpace dia.S t) {s : Path}
    (hs : s ∈ dia.allowedPaths (dia.following t)) {d : InfoNode} (hd : d ∈ dia.D) :
    entry s d.index = entry t d.index := by
  have hspace := inSpace_of_allowed hs
  have hn : d ∈ dia.C ++ dia.D := List.mem_append_right _ hd
  let z := dia.selectionTable (fun index => index.getLast? == some (entry t d.index)) d
  have hz : z ∈ (dia.following t).parts := List.mem_map_of_mem hd
  have hagrees := List.all_eq_true.1 (List.mem_filter.1 hs).2 z hz
  rw [LocalStrategy.agrees_iff hspace (h.accepted.info_inRange_of_mem hn) (h.accepted.index_inRange hn)] at hagrees
  obtain ⟨k, hk, hrange, hcell⟩ := LocalStrategy.choose?_spec ((following_fits h ht).parts z hz)
    (Table.indexOf_map hspace (h.accepted.info_inRange_of_mem hn))
  obtain rfl : k = entry s d.index := Option.some.inj (hk.symm.trans hagrees)
  -- the cell of the selected state holds a one, and ones are where the states of the path are
  have hone := (hcell _ hrange).2 rfl
  have hread : z.table.get? (d.info.map (entry s) ++ [entry s d.index]) =
      some (some (entry s d.index) == some (entry t d.index)) := by
    rw [← List.getLast?_concat (l := d.info.map (entry s))]
    exact Table.get?_tabulate _ (ProbabilityTables.indexOf_own hspace (h.accepted.info_inRange_of_mem hn)
      (h.accepted.index_inRange hn))
  exact Option.some.inj (eq_of_beq (Option.some.inj (hread.symm.trans hone)))

/-- Where the decisions of a path are taken, as many paths lead through one of them as there are ways to choose the
chance states outside its scope. -/
theorem Staged.length_following (h : dia.Staged) (ht : InSpace dia.S t) {d : InfoNode} (hd : d ∈ dia.D) :
    (((dia.allowedPaths (dia.following t)).filter fun s => d.scope.map (entry s) == d.scope.map (entry t)).length :
      Rat) = freeCount dia d.scope := by
  rw [← h.length_allowed_agreeing (following_fits h ht) ht d.scope]
  congr 2
  refine List.filter_congr fun s hs => ?_
  rw [Bool.eq_iff_iff, beq_iff_eq, decide_eq_true_eq, List.map_inj_left]
  refine ⟨fun hsame c _ hc => hsame c hc, fun hsame k hk => ?_⟩
  -- the decisions in the scope are the same anyway
  rcases h.accepted.exists_node (h.accepted.scope_inRange (List.mem_append_right _ hd) k hk) with
    ⟨c, hc, rfl⟩ | ⟨e, he, rfl⟩
  · exact hsame c.index (List.mem_map_of_mem hc) hk
  · exact entry_of_following h ht hs he

/-- There is a path through every decision. -/
theorem exists_path_through (h : dia.Staged) {d : InfoNode} (hd : d ∈ dia.D) (hinfo : d.info.Nodup) {index : Path}
    (hindex : index ∈ paths (nodeShape dia.S d) .empty) : ∃ t, InSpace dia.S t ∧ d.scope.map (entry t) = index := by
  have hn : d ∈ dia.C ++ dia.D := List.mem_append_right _ hd
  obtain ⟨s, hs⟩ := exists_inSpace h.counts_pos
  have hstates : List.Forall₂ (fun k x => InRange (entry dia.S k) x) d.scope index := by
    rw [paths_empty, mem_choices, nodeShape, List.map_map, List.forall₂_map_right_iff] at hindex
    exact hindex.flip.imp fun _ _ hx => mem_statesBelow.1 hx
  obtain ⟨t, -, ht, hscope, -⟩ :=
    setStates?_spec (h.scope_nodup hn hinfo) (h.accepted.scope_inRange hn) hstates hs
  exact ⟨t, ht, hscope⟩

section Through

variable (h : dia.Staged) {d : InfoNode} (hd : d ∈ dia.D) (hinfo : d.info.Nodup) {index : Path}
  (hindex : index ∈ paths (nodeShape dia.S d) .empty)

include h hd hinfo hindex

/-- **No strategy has more paths** through a decision than there are ways to choose the chance states outside its
scope. -/
theorem Staged.length_through_le {Z : Strategy} (hZ : Z.Fits dia) :
    (((dia.allowedPaths Z).filter fun s => d.scope.map (entry s) == index).length : Rat) ≤ freeCount dia d.scope := by
  obtain ⟨t, ht, rfl⟩ := exists_path_through h hd hinfo hindex
  exact h.length_allowed_le hZ ht d.scope

/-- **Some strategy has as many.** -/
theorem Staged.exists_length_through : ∃ Z, Z.Fits dia ∧
    (((dia.allowedPaths Z).filter fun s => d.scope.map (entry s) == index).length : Rat) = freeCount dia d.scope := by
  obtain ⟨t, ht, rfl⟩ := exists_path_through h hd hinfo hindex
  exact ⟨dia.following t, following_fits h ht, h.length_following ht hd⟩

end Through

/-! ## Paths with variables -/

/-- With positive tables, and nothing forbidden or fixed, all paths have variables. -/
theorem Tabulated.memberPaths_eq (h : dia.Tabulated) (hpositive : dia.PositiveTables) :
    dia.memberPaths [] .empty = paths dia.S .empty := by
  refine List.filter_eq_self.2 fun s hs => ?_
  rw [hasVariable, Bool.and_eq_true]
  exact ⟨rfl, decide_eq_true (h.prob_pos hpositive (mem_paths_empty.1 hs))⟩

/-- There is a way to choose the chance states outside a scope. -/
theorem Staged.freeCount_pos (h : dia.Staged) (nodes : List Node) : 0 < freeCount dia nodes :=
  prod_entry_pos h.counts_pos fun _ hc => h.accepted.chance_inRange (List.mem_of_mem_filter hc)

/-- The coefficient of a decision is the number of ways to choose the chance states outside its scope: there are at
least so many paths with a variable, since some strategy has so many paths. -/
theorem strategyBound_eq_freeCount (h : dia.Staged) (htables : dia.Tabulated) (hpositive : dia.PositiveTables)
    {d : InfoNode} (hd : d ∈ dia.D) (hinfo : d.info.Nodup) {index : Path}
    (hindex : index ∈ paths (nodeShape dia.S d) .empty) :
    strategyBound (dia.membersThrough [] .empty d index).length (pathBound dia d) = (freeCount dia d.scope : Rat) := by
  obtain ⟨Z, -, hcount⟩ := h.exists_length_through hd hinfo hindex
  have hle : ((dia.allowedPaths Z).filter fun s => d.scope.map (entry s) == index).length ≤
      (dia.membersThrough [] .empty d index).length := by
    rw [membersThrough, htables.memberPaths_eq hpositive]
    exact (List.filter_sublist.filter _).length_le
  rw [strategyBound_eq_min, h.pathBound_eq hd hinfo, ← hcount, min_eq_right (Nat.cast_le.2 hle)]

/-- What the decision variable is multiplied with in the constraint of its decision. -/
theorem coefficient?_strategyConstraint (dia : Diagram Rat) (rules : List ForbiddenRule) (fixed : FixedStates)
    (d : InfoNode) (index : Path) {c : Rat}
    (hc : strategyBound (dia.membersThrough rules fixed d index).length (pathBound dia d) = c) (hne : c ≠ 0) :
    (dia.strategyConstraint rules fixed d index).coefficient? (decisionVariable 0 d.index index) = some (-c) := by
  let ss := dia.membersThrough rules fixed d index
  have hbuilt : InfluenceDiagrams.strategyConstraint c (ss.map (pathVariable 1)) (decisionVariable 0 d.index index) =
      .ok (dia.strategyConstraint rules fixed d index) := by
    rw [InfluenceDiagrams.strategyConstraint, LinearExpr.multiple_eq, ← hc]
    rfl
  have hterms := terms_strategyConstraint (((paths_nodup _ _).filter _).filter _) hbuilt
  rw [if_neg (mt beq_iff_eq.1 hne)] at hterms
  rw [Constraint.coefficient?_of_not_mem hterms (decisionVariable_key_notMem _ _ _ _ _), Keyed.find?,
    if_pos (Variable.beq_iff.2 rfl), mul_one]

/-! ## The main statement -/

/-- **Strategy constraints.** Let a diagram have states for all nodes, let chance and decision nodes observe earlier
nodes only, the decision nodes each of them once, and let every chance node have a table of positive probabilities.
Then the model is built, and for every decision node and every choice of states for what it observes and itself, the
constraint of the choice has a multiple of the decision variable on its greater side. The factor is the number of
paths with a variable through the choice, or the bound if that is less. The compatible paths of every strategy can be
listed, with no more than so many through the choice, and some strategy has exactly so many. -/
theorem strategyBound_greatest (h : dia.Staged) (hinfo : ∀ d ∈ dia.D, d.info.Nodup) (htables : dia.Tabulated)
    (hpositive : dia.PositiveTables) {options : ModelOptions Rat} (hscale : 0 < options.scale) :
    ∃ z x w, (assemble dia options [] .empty).runOn (.empty options.name) = (.ok (z, x), w) ∧
      z.map DecisionVariables.node = dia.D ∧ ∀ b ∈ z, b.z.map Prod.fst = paths (nodeShape dia.S b.node) .empty ∧
        ∀ i ∈ b.z, ∃ (c : Constraint Rat) (bound : Rat) (K : Nat),
          (strategyName b.node.index i.1, c) ∈ w.model.problem.constraints ∧
          c.coefficient? i.2 = some (-(K : Rat)) ∧
          theoreticalBound dia.S dia.D b = .ok bound ∧
          (K : Rat) = min ((x.paths.filter fun s => b.node.scope.map (entry s) == i.1).length : Rat) bound ∧
          (∀ Z : Strategy, Z.Fits dia → ∃ cp ss, CompatiblePaths.ofDiagram dia Z .empty = .ok cp ∧
            cp.toList (α := Rat) = .ok ss ∧ (ss.filter fun s => b.node.scope.map (entry s) == i.1).length ≤ K) ∧
          ∃ (Z : Strategy) (cp : CompatiblePaths) (ss : List Path), Z.Fits dia ∧
            CompatiblePaths.ofDiagram dia Z .empty = .ok cp ∧ cp.toList (α := Rat) = .ok ss ∧
            (ss.filter fun s => b.node.scope.map (entry s) == i.1).length = K := by
  have hlist : ∀ {Z : Strategy}, Z.Fits dia → ∃ cp, CompatiblePaths.ofDiagram dia Z .empty = .ok cp ∧
      cp.toList (α := Rat) = .ok (dia.allowedPaths Z) := fun hZ =>
    CompatiblePaths.ofDiagram_toList_exact h.accepted hZ (fun p hp => absurd hp List.not_mem_nil) fun d hd i hi =>
      h.info_lt d (List.mem_append_right _ hd) i hi
  refine ⟨_, _, _, assemble_eq htables h.counts_pos (rulesWithin_nil _) (FixedStates.within_empty _) hscale, ?_, ?_⟩
  · rw [List.map_map]
    exact List.map_id _
  intro b hb
  obtain ⟨d, hd, rfl⟩ := List.mem_map.1 hb
  refine ⟨?_, ?_⟩
  · rw [decisionBlock, List.map_map]
    exact List.map_id _
  intro i hi
  obtain ⟨index, hindex, rfl⟩ := List.mem_map.1 hi
  -- the coefficient is a number of paths, and not zero
  obtain ⟨K, hK⟩ := Int.eq_ofNat_of_zero_le (h.freeCount_pos d.scope).le
  have hcast : (freeCount dia d.scope : Rat) = K := by rw [hK, Int.cast_natCast]
  have hne : (K : Rat) ≠ 0 := by
    rw [← hcast]
    exact Int.cast_ne_zero.2 (h.freeCount_pos d.scope).ne'
  have hfactor := (strategyBound_eq_freeCount h htables hpositive hd (hinfo d hd) hindex).trans hcast
  have hmin := (strategyBound_eq_min _ _).symm.trans hfactor
  have hsome : dia.membersThrough [] .empty d index ≠ [] := by
    intro hnone
    rw [hnone, h.pathBound_eq hd (hinfo d hd), hcast] at hmin
    exact hne (hmin.symm.trans (min_eq_left (Nat.cast_nonneg K)))
  have hmem : (strategyName d.index index, dia.strategyConstraint [] .empty d index) ∈
      dia.linkedConstraints [] .empty :=
    (forall_linkedConstraints (p := fun c => c ∈ dia.linkedConstraints [] .empty)).1 (fun _ hc => hc) |>.2 d hd index
      hindex hsome
  refine ⟨_, _, K, List.mem_append_right _ (List.mem_append_left _ hmem),
    coefficient?_strategyConstraint dia [] .empty d index hfactor hne,
    h.accepted.theoreticalBound_eq h.counts_pos hd _, ?_, fun Z hZ => ?_, ?_⟩
  · rw [paths_pathBlock]
    exact hmin.symm
  · obtain ⟨cp, hcp, hss⟩ := hlist hZ
    have hle := h.length_through_le hd (hinfo d hd) hindex hZ
    rw [hcast] at hle
    exact ⟨cp, _, hcp, hss, Nat.cast_le.1 hle⟩
  · obtain ⟨Z, hZ, hcount⟩ := h.exists_length_through hd (hinfo d hd) hindex
    obtain ⟨cp, hcp, hss⟩ := hlist hZ
    exact ⟨Z, cp, _, hZ, hcp, hss, Nat.cast_injective (hcount.trans hcast)⟩

end Diagram

/-- A decision on what is seen, a result with three states, and a second decision that only knows the first one. -/
def relay : Diagram Rat where
  S := [2, 2, 3, 2]
  C := [⟨0, []⟩, ⟨2, [0, 1]⟩]
  D := [⟨1, [0]⟩, ⟨3, [1]⟩]
  V := [⟨4, [2, 3]⟩]
  P := .tables ⟨[(⟨0, []⟩, ⟨[2], [1/6, 5/6], rfl⟩),
    (⟨2, [0, 1]⟩, ⟨[2, 2, 3], [1/2, 1/4, 1/4, 1/5, 2/5, 2/5, 1/3, 1/3, 1/3, 1/8, 3/4, 1/8], rfl⟩)]⟩
  U := .tables [(⟨4, [2, 3]⟩, ⟨[3, 2], [1, 2, 3, 4, 5, 6], rfl⟩)] 0

theorem relay_wellFormed : relay.WellFormed where
  accepted := Diagram.accepted_iff.2 (by decide)
  counts_pos := by decide
  info_nodup := by decide
  info_lt := by decide
  probability := ⟨_, rfl, by decide, by decide, by decide +kernel⟩
  utility := ⟨rfl, by decide⟩

/-- Six paths lead through the second state of the first decision after the first state of what it sees, as the second
decision may be either way. A strategy has three of them, and the second decision, which is observed by nobody, has six
paths whatever the first one is. -/
theorem strategyBound_greatest_relay :
    ∃ z x w, (assemble relay .default [] .empty).runOn (.empty ModelOptions.defaultName) = (.ok (z, x), w) ∧
      (∃ c, ("strategy_1_0_1", c) ∈ w.model.problem.constraints ∧
        c.coefficient? (decisionVariable 0 1 [0, 1]) = some (-3)) ∧
      (∃ c, ("strategy_3_1_0", c) ∈ w.model.problem.constraints ∧
        c.coefficient? (decisionVariable 0 3 [1, 0]) = some (-6)) ∧
      ∃ (Z : Strategy) (cp : CompatiblePaths) (ss : List Path), Z.Fits relay ∧
        CompatiblePaths.ofDiagram relay Z .empty = .ok cp ∧ cp.toList (α := Rat) = .ok ss ∧
        (ss.filter fun s => [0, 1].map (entry s) == [0, 1]).length = 3 := by
  have hpositive : relay.PositiveTables := by
    intro P hP
    cases hP
    decide +kernel
  have hoptions : 0 < (ModelOptions.default : ModelOptions Rat).scale := by decide +kernel
  obtain ⟨z, x, w, hrun, -, hblocks⟩ := Diagram.strategyBound_greatest relay_wellFormed.staged (by decide)
    relay_wellFormed.tabulated hpositive hoptions
  obtain ⟨rfl, rfl⟩ : relay.D.map relay.decisionBlock = z ∧ relay.pathBlock [] .empty = x :=
    Prod.mk.inj (Except.ok.inj (congrArg Prod.fst ((Diagram.assemble_eq relay_wellFormed.tabulated
      relay_wellFormed.counts_pos (rulesWithin_nil _) (FixedStates.within_empty _) hoptions).symm.trans hrun)))
  -- the coefficients are the numbers of ways to choose the chance states outside the scopes
  have hfactor : ∀ {d : InfoNode} {index : Path} {K : Nat} {bound : Rat} (n : Nat), d ∈ relay.D →
      index ∈ paths (nodeShape relay.S d) .empty →
      theoreticalBound relay.S relay.D (relay.decisionBlock d) = .ok bound →
      (K : Rat) = min (((relay.pathBlock [] .empty).paths.filter fun s => d.scope.map (entry s) == index).length : Rat)
        bound → freeCount relay d.scope = n → K = n := by
    intro d index K bound n hd hindex hbound hmin hn
    obtain rfl := Except.ok.inj ((relay_wellFormed.accepted.theoreticalBound_eq relay_wellFormed.counts_pos hd
      _).symm.trans hbound)
    have hfree := Diagram.strategyBound_eq_freeCount relay_wellFormed.staged relay_wellFormed.tabulated hpositive hd
      (relay_wellFormed.info_nodup d (List.mem_append_right _ hd)) hindex
    rw [Diagram.paths_pathBlock, ← strategyBound_eq_min, ← Diagram.membersThrough, hfree, hn] at hmin
    exact_mod_cast hmin
  obtain ⟨c, bound, K, hc, hcoefficient, hbound, hmin, -, hattained⟩ :=
    (hblocks (relay.decisionBlock ⟨1, [0]⟩) (List.mem_map_of_mem (by decide))).2
      ([0, 1], decisionVariable 0 1 [0, 1]) (List.mem_map_of_mem (by decide))
  obtain ⟨c', bound', K', hc', hcoefficient', hbound', hmin', -⟩ :=
    (hblocks (relay.decisionBlock ⟨3, [1]⟩) (List.mem_map_of_mem (by decide))).2
      ([1, 0], decisionVariable 0 3 [1, 0]) (List.mem_map_of_mem (by decide))
  obtain rfl := hfactor 3 (by decide) (by decide) hbound hmin (by decide)
  obtain rfl := hfactor 6 (by decide) (by decide) hbound' hmin' (by decide)
  exact ⟨_, _, w, hrun, ⟨c, hc, hcoefficient⟩, ⟨c', hc', hcoefficient'⟩, hattained⟩

end InfluenceDiagrams
