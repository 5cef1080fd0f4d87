import InfluenceDiagrams.Proofs.Model.Extraction
import InfluenceDiagrams.Proofs.Model.Faults
import InfluenceDiagrams.Proofs.Program.Terms

/-!
# `InfluenceDiagrams.Proofs.Model.Links` — every path variable is tied to the decisions

A path variable that occurs in no constraint of a decision node could be taken whatever is decided there. The paths
with variables are grouped by their states at the observed nodes and the node itself, and the groups are asked for by
going through the indices of the decision variables. Both are lists of states over the same nodes, so that every group
is asked for, once. Hence every path variable occurs in one constraint of the node, with the decision that its path
leads through. That is so whatever the numbers are, and even if a node is observed more than once. What the numbers
decide is whether the decision variable is multiplied by zero, which does not happen in exact arithmetic.

## Contents
- **`PathVariables.through`**, **`PathVariables.Created`** — the members that lead through a decision; variables as they
  are created.
- **`StrategyLinks`**, **`addStrategyConstraint_leaves`, `addStrategyConstraints_leaves`** — the constraints that are
  added for one decision and for one node.
- **`terms_strategyConstraint`**, **`StrategyLinks.coefficient?_path`, `StrategyLinks.coefficient?_decision`** — the
  variables that occur in them.
- **`Ties`**, **`StrategyLinks.ties`** — one constraint for every path.
- **`pathVariables_ok`, `linkPaths_leaves`**, **`ties_of_run`** — all nodes.
- **`pathVariables_linked`** — the main statement.
-/

namespace InfluenceDiagrams

variable {α : Type}

/-! ## Variables as they are created -/

namespace PathVariables

variable {x : PathVariables α}

/-- The members whose paths lead through a decision. -/
def through (x : PathVariables α) (d : InfoNode) (index : Path) : List (PathVariable α) :=
  x.members.filter fun m => d.scope.map (entry m.path) == index

theorem mem_through {d : InfoNode} {index : Path} {m : PathVariable α} :
    m ∈ x.through d index ↔ m ∈ x.members ∧ d.scope.map (entry m.path) = index := by
  rw [through, List.mem_filter, beq_iff_eq]

theorem paths_filter (x : PathVariables α) (d : InfoNode) (index : Path) :
    (x.paths.filter fun s => d.scope.map (entry s) == index) = (x.through d index).map PathVariable.path :=
  List.filter_map

theorem groupVars_map_path (hnodup : x.paths.Nodup) {ms : List (PathVariable α)} (hms : ∀ m ∈ ms, m ∈ x.members) :
    groupVars x (ms.map PathVariable.path) = ms.map PathVariable.var := by
  rw [groupVars, List.filterMap_map, List.filterMap_eq_map_iff_forall_eq_some.2]
  intro m hm
  rw [Function.comp_apply, find?_of_mem hnodup (hms m hm), Option.map_some]

/-- Distinct paths in space, each with the variable of its path. -/
structure Created [Scalar α] (x : PathVariables α) (S : StateCounts) : Prop where
  nodup : x.paths.Nodup
  inSpace : ∀ m ∈ x.members, InSpace S m.path
  var : ∃ family, ∀ m ∈ x.members, m.var = pathVariable family m.path

end PathVariables

variable [Scalar α]

theorem pathsIn_created {S : StateCounts} {fixed : FixedStates} (hfixed : fixed.Within S) {ms : List (Path × α)}
    (hms : (ms.map Prod.fst).Sublist (paths S fixed)) (family : Nat) : (pathsIn family ms fixed).Created S where
  nodup := by
    rw [PathVariables.paths, pathsIn, List.map_map]
    exact (paths_nodup S fixed).sublist hms
  inSpace := by
    intro m hm
    obtain ⟨p, hp, rfl⟩ := List.mem_map.1 hm
    exact ((mem_paths_iff hfixed).1 (hms.subset (List.mem_map_of_mem hp))).1
  var := by
    refine ⟨family, fun m hm => ?_⟩
    obtain ⟨p, -, rfl⟩ := List.mem_map.1 hm
    rfl

/-! ## The constraints of a node -/

/-- The strategy constraints of a decision node, each with the index of its decision. -/
structure StrategyLinks (x : PathVariables α) (d : InfoNode) (bound : α) (zs : List (Path × Variable α))
    (links : List (Path × Constraint α)) : Prop where
  indices : links.map Prod.fst = (zs.map Prod.fst).filter fun index => x.through d index ≠ []
  built : ∀ l ∈ links, ∃ u, (l.1, u) ∈ zs ∧ strategyConstraint (strategyBound (x.through d l.1).length bound)
    ((x.through d l.1).map PathVariable.var) u = .ok l.2

namespace StrategyLinks

variable {x : PathVariables α} {d : InfoNode} {bound : α} {zs : List (Path × Variable α)}

theorem append {zs' : List (Path × Variable α)} {links links' : List (Path × Constraint α)}
    (h : StrategyLinks x d bound zs links) (h' : StrategyLinks x d bound zs' links') :
    StrategyLinks x d bound (zs ++ zs') (links ++ links') where
  indices := by rw [List.map_append, List.map_append, List.filter_append, h.indices, h'.indices]
  built := by
    intro l hl
    rcases List.mem_append.1 hl with hl | hl
    · obtain ⟨u, hu, hc⟩ := h.built l hl
      exact ⟨u, List.mem_append_left _ hu, hc⟩
    · obtain ⟨u, hu, hc⟩ := h'.built l hl
      exact ⟨u, List.mem_append_right _ hu, hc⟩

end StrategyLinks

/-- The constraints under their names. -/
def namedLinks (d : InfoNode) (links : List (Path × Constraint α)) : List (String × Constraint α) :=
  links.map fun l => (strategyName d.index l.1, l.2)

variable {x : PathVariables α} {d : InfoNode} {bound : α}

/-- **One decision.** Its constraint is added if some path leads through it. -/
theorem addStrategyConstraint_leaves (bound : α) (hnodup : x.paths.Nodup) {groups : List (Path × List Path)}
    {zi : Path × Variable α} (hgroup : Keyed.find? zi.1 groups =
      if x.paths.filter (fun s => d.scope.map (entry s) == zi.1) = [] then none
      else some (x.paths.filter fun s => d.scope.map (entry s) == zi.1)) :
    (addStrategyConstraint x d.index bound groups zi).Leaves fun _ added =>
      ∃ links, StrategyLinks x d bound [zi] links ∧ added = namedLinks d links := by
  rw [x.paths_filter] at hgroup
  unfold addStrategyConstraint
  rw [hgroup]
  by_cases hnone : x.through d zi.1 = []
  · rw [hnone]
    refine Build.Leaves.pure ⟨[], ⟨?_, fun l hl => absurd hl List.not_mem_nil⟩, rfl⟩
    simp [hnone]
  · rw [if_neg (by rwa [List.map_eq_nil_iff])]
    refine Build.Leaves.lift_bind fun c hc => ?_
    refine (Build.Leaves.addConstraint _ c).mono fun _ added hadded => ⟨[(zi.1, c)], ⟨?_, ?_⟩, hadded⟩
    · simp [hnone]
    · rw [List.forall_mem_singleton]
      rw [PathVariables.groupVars_map_path hnodup fun m hm => (PathVariables.mem_through.1 hm).1,
        List.length_map] at hc
      exact ⟨zi.2, List.mem_singleton.2 rfl, hc⟩

/-- The constraints of decisions one after the other. -/
theorem exists_links {zs : List (Path × Variable α)} {parts : List (List (String × Constraint α))}
    (h : List.Forall₂ (fun zi part => ∃ links, StrategyLinks x d bound [zi] links ∧ part = namedLinks d links) zs
      parts) : ∃ links, StrategyLinks x d bound zs links ∧ parts.flatten = namedLinks d links := by
  induction h with
  | nil => exact ⟨[], ⟨rfl, fun l hl => absurd hl List.not_mem_nil⟩, rfl⟩
  | cons hfirst _ ih =>
      obtain ⟨first, hfirst, rfl⟩ := hfirst
      obtain ⟨rest, hrest, hparts⟩ := ih
      refine ⟨first ++ rest, hfirst.append hrest, ?_⟩
      rw [List.flatten_cons, hparts, namedLinks, namedLinks, namedLinks, List.map_append]

/-- **One node.** -/
theorem addStrategyConstraints_leaves {S : StateCounts} {D : List InfoNode} {b : DecisionVariables α}
    (hx : x.Created S) (hscope : ∀ k ∈ b.node.scope, InRange S.length k) :
    (addStrategyConstraints S D x b).Leaves fun _ added => ∃ bound links, theoreticalBound S D b = .ok bound ∧
      StrategyLinks x b.node bound b.z links ∧ added = namedLinks b.node links := by
  have hin : ∀ s ∈ x.paths, ∀ k ∈ b.node.scope, InRange s.length k := by
    intro s hs k hk
    obtain ⟨m, hm, rfl⟩ := List.mem_map.1 hs
    rw [(hx.inSpace m hm).length_eq]
    exact hscope k hk
  obtain ⟨groups, hgroups, hfind⟩ := groupBy?_spec hin
  unfold addStrategyConstraints
  refine Build.Leaves.lift_bind fun bound hbound => Build.Leaves.lift_bind fun groups' hgroups' => ?_
  change orFault .outOfRange (groupBy? x.paths b.node.scope) = _ at hgroups'
  rw [hgroups] at hgroups'
  obtain rfl : groups = groups' := Except.ok.inj hgroups'
  have hsteps := Build.Leaves.forM fun zi (_ : zi ∈ b.z) =>
    addStrategyConstraint_leaves bound hx.nodup (hfind zi.1)
  refine hsteps.mono fun _ added hadded => ?_
  obtain ⟨parts, rfl, hparts⟩ := hadded
  obtain ⟨links, hlinks, hadded⟩ := exists_links hparts
  exact ⟨bound, links, hbound, hlinks, hadded⟩

/-! ## Coefficients -/

/-- A decision variable is none of the path variables. -/
theorem decisionVariable_key_notMem (family family' : Nat) (d : Node) (index : Path) (ss : List Path) :
    (decisionVariable (α := α) family d index).key ∉ (ss.map (pathVariable (α := α) family')).map Variable.key := by
  rw [List.map_map, List.mem_map]
  rintro ⟨s, -, hkey⟩
  exact Diagram.decisionVariable_name_ne _ _ _ _ _ (congrArg VarKey.name hkey.symm)

/-- The terms of a strategy constraint: distinct paths with coefficient one, and the decision. -/
theorem terms_strategyConstraint {family family' : Nat} {d : Node} {index : Path} {ss : List Path} (hss : ss.Nodup)
    {factor : α} {c : Constraint α}
    (h : strategyConstraint factor (ss.map (pathVariable family')) (decisionVariable family d index) = .ok c) :
    c.terms = ((ss.map (pathVariable family')).map fun v => (v, 1)) ++
      if (factor == 0) = true then [] else [(decisionVariable family d index, -(factor * 1))] := by
  have hnodup : ((ss.map (pathVariable (α := α) family')).map Variable.key).Nodup := by
    rw [List.map_map]
    exact hss.map fun s t hst => Diagram.pathVariable_key_inj hst
  -- the multiple is there, since the constraint is
  unfold strategyConstraint at h
  cases hmultiple : LinearExpr.multiple factor (decisionVariable family d index) with
  | error f =>
      rw [hmultiple] at h
      cases h
  | ok e =>
      rw [hmultiple] at h
      rw [← Except.ok.inj h]
      exact Constraint.terms_atMost hnodup (decisionVariable_key_notMem _ _ _ _ _) hmultiple

namespace StrategyLinks

variable {S : StateCounts} {zs : List (Path × Variable α)} {links : List (Path × Constraint α)} (hx : x.Created S)
  (h : StrategyLinks x d bound zs links) {family : Nat}
  (hz : ∀ i ∈ zs, i.2 = decisionVariable family d.index i.1) {l : Path × Constraint α} (hl : l ∈ links)

include h in
/-- Some path leads through a decision that has a constraint. -/
theorem through_ne_nil (hl : l ∈ links) : x.through d l.1 ≠ [] := by
  have hmem : l.1 ∈ links.map Prod.fst := List.mem_map_of_mem hl
  rw [h.indices] at hmem
  exact of_decide_eq_true (List.mem_filter.1 hmem).2

include hx h hz hl

/-- The terms of a constraint: the paths through the decision with coefficient one, and the decision. -/
theorem terms_eq {family' : Nat} (hvar : ∀ m ∈ x.members, m.var = pathVariable family' m.path) :
    l.2.terms = ((((x.through d l.1).map PathVariable.path).map (pathVariable family')).map fun v => (v, 1)) ++
      if (strategyBound (x.through d l.1).length bound == 0) = true then []
      else [(decisionVariable family d.index l.1, -(strategyBound (x.through d l.1).length bound * 1))] := by
  obtain ⟨u, hu, hc⟩ := h.built l hl
  obtain rfl : u = decisionVariable family d.index l.1 := hz _ hu
  have hvars : (x.through d l.1).map PathVariable.var =
      ((x.through d l.1).map PathVariable.path).map (pathVariable family') := by
    rw [List.map_map]
    exact List.map_congr_left fun m hm => hvar m (PathVariables.mem_through.1 hm).1
  rw [hvars] at hc
  refine terms_strategyConstraint ?_ hc
  rw [← x.paths_filter]
  exact hx.nodup.filter _

/-- **Paths.** A path variable occurs where its path leads through the decision, with coefficient one. -/
theorem coefficient?_path {m : PathVariable α} (hm : m ∈ x.members) :
    l.2.coefficient? m.var = if d.scope.map (entry m.path) = l.1 then some 1 else none := by
  obtain ⟨family', hvar⟩ := hx.var
  have hterms := h.terms_eq hx hz hl hvar
  rw [hvar m hm]
  split
  · rename_i hthrough
    refine Constraint.coefficient?_of_mem hterms (List.mem_map_of_mem (List.mem_map_of_mem ?_))
    exact List.mem_map_of_mem (PathVariables.mem_through.2 ⟨hm, hthrough⟩)
  · rename_i hthrough
    rw [Constraint.coefficient?_of_not_mem hterms]
    · split
      · rfl
      · have hne : ¬(decisionVariable (α := α) family d.index l.1 == pathVariable family' m.path) = true := by
          rw [Variable.beq_iff]
          exact fun hkey => Diagram.decisionVariable_name_ne _ _ _ _ _ (congrArg VarKey.name hkey)
        rw [Keyed.find?, if_neg hne]
        rfl
    · rw [List.map_map, List.mem_map]
      rintro ⟨s, hs, hkey⟩
      obtain ⟨n, hn, rfl⟩ := List.mem_map.1 hs
      rw [← Diagram.pathVariable_key_inj hkey] at hthrough
      exact hthrough (PathVariables.mem_through.1 hn).2

/-- **Decisions.** Of the decision variables only its own may occur, with the factor of the constraint unless that is
zero. -/
theorem coefficient?_decision (family' : Nat) (e : Node) (j : Path) :
    l.2.coefficient? (decisionVariable family' e j) =
      if (strategyBound (x.through d l.1).length bound == 0) = true then none
      else if (decisionVariable (α := α) family d.index l.1).key = (decisionVariable (α := α) family' e j).key then
        some (-(strategyBound (x.through d l.1).length bound * 1))
      else none := by
  obtain ⟨family'', hvar⟩ := hx.var
  rw [Constraint.coefficient?_of_not_mem (h.terms_eq hx hz hl hvar) (decisionVariable_key_notMem _ _ _ _ _)]
  split
  · rfl
  · rw [Keyed.find?]
    simp only [Variable.beq_iff]
    rfl

end StrategyLinks

/-! ## Ties -/

/-- The strategy constraints of a decision node, each with the index of its decision, tie every path variable to the
decision that its path leads through, and to no other one. -/
structure Ties (dia : Diagram α) (z : List (DecisionVariables α)) (x : PathVariables α) (b : DecisionVariables α)
    (links : List (Path × Constraint α)) : Prop where
  /-- A path variable occurs in one constraint, that of the states of its path, with coefficient one. -/
  once : ∀ m ∈ x.members, ∃ c, links.filter (fun l => (l.2.coefficient? m.var).isSome) =
    [(b.node.scope.map (entry m.path), c)] ∧ c.coefficient? m.var = some 1
  /-- Some path variable occurs in every constraint. -/
  path : ∀ l ∈ links, ∃ m ∈ x.members, (l.2.coefficient? m.var).isSome = true
  /-- The variable of the decision occurs unless it would have the coefficient zero. -/
  own : ∀ l ∈ links, ∃ u bound factor, (l.1, u) ∈ b.z ∧ theoreticalBound dia.S dia.D b = .ok bound ∧
    factor = strategyBound (x.through b.node l.1).length bound ∧
    l.2.coefficient? u = if (factor == 0) = true then none else some (-(factor * 1))
  /-- No variable of another decision occurs. -/
  other : ∀ l ∈ links, ∀ b' ∈ z, ∀ i ∈ b'.z, (l.2.coefficient? i.2).isSome = true → b'.node = b.node ∧ i.1 = l.1

/-- An entry of a list is the only one with its key, if keys are distinct. -/
theorem filter_key_eq_singleton {β κ : Type} [DecidableEq κ] {key : β → κ} {xs : List β} (h : (xs.map key).Nodup)
    {a : β} (ha : a ∈ xs) : xs.filter (fun b => key b = key a) = [a] := by
  rw [← List.perm_singleton, List.perm_ext_iff_of_nodup (h.of_map.filter _) (List.nodup_singleton a)]
  intro b
  rw [List.mem_filter, decide_eq_true_eq, List.mem_singleton]
  constructor
  · rintro ⟨hb, hkey⟩
    exact List.inj_on_of_nodup_map h hb ha hkey
  · rintro rfl
    exact ⟨ha, rfl⟩

variable {dia : Diagram α}

/-- **Ties.** The strategy constraints of a decision node are made of the variables of the diagram. -/
theorem StrategyLinks.ties (h : dia.Accepted) (hx : x.Created dia.S) {family : Nat} (hd : d ∈ dia.D)
    (hbound : theoreticalBound dia.S dia.D (dia.nodeBlock family d) = .ok bound) {links : List (Path × Constraint α)}
    (hlinks : StrategyLinks x d bound (dia.nodeBlock family d).z links) :
    Ties dia (dia.D.map (dia.nodeBlock family)) x (dia.nodeBlock family d) links := by
  have hz : ∀ i ∈ (dia.nodeBlock family d).z, i.2 = decisionVariable family d.index i.1 := by
    intro i hi
    obtain ⟨index, -, rfl⟩ := List.mem_map.1 hi
    rfl
  have hindices : links.map Prod.fst =
      (paths (nodeShape dia.S d) .empty).filter fun index => x.through d index ≠ [] := by
    rw [hlinks.indices, Diagram.nodeBlock, List.map_map]
    exact congrArg _ (List.map_id _)
  have hnodup : (links.map Prod.fst).Nodup := by
    rw [hindices]
    exact (paths_nodup _ _).filter _
  have hmem : ∀ l ∈ links, l.1 ∈ paths (nodeShape dia.S d) .empty := by
    intro l hl
    have hfst : l.1 ∈ links.map Prod.fst := List.mem_map_of_mem hl
    rw [hindices] at hfst
    exact List.mem_of_mem_filter hfst
  constructor
  case once =>
    intro m hm
    -- the path leads through a decision, which has a constraint
    have hindex : d.scope.map (entry m.path) ∈ links.map Prod.fst := by
      rw [hindices, List.mem_filter]
      refine ⟨h.scope_mem_nodeShape (List.mem_append_right _ hd) (hx.inSpace m hm), decide_eq_true ?_⟩
      exact List.ne_nil_of_mem (PathVariables.mem_through.2 ⟨hm, rfl⟩)
    obtain ⟨l, hl, hown⟩ := List.mem_map.1 hindex
    have hcoefficient : ∀ l' ∈ links, l'.2.coefficient? m.var = if l.1 = l'.1 then some 1 else none := by
      intro l' hl'
      rw [hown]
      exact hlinks.coefficient?_path hx hz hl' hm
    have hfilter : links.filter (fun l' => (l'.2.coefficient? m.var).isSome) = [l] := by
      rw [← filter_key_eq_singleton hnodup hl]
      refine List.filter_congr fun l' hl' => ?_
      rw [hcoefficient l' hl']
      by_cases hkey : l.1 = l'.1
      · rw [if_pos hkey, decide_eq_true hkey.symm]
        rfl
      · rw [if_neg hkey, decide_eq_false (Ne.symm hkey)]
        rfl
    refine ⟨l.2, ?_, ?_⟩
    · rw [hfilter]
      show [(l.1, l.2)] = [(d.scope.map (entry m.path), l.2)]
      rw [hown]
    · rw [hcoefficient l hl, if_pos rfl]
  case path =>
    intro l hl
    obtain ⟨m, hm⟩ := List.exists_mem_of_ne_nil _ (hlinks.through_ne_nil hl)
    obtain ⟨hm, hthrough⟩ := PathVariables.mem_through.1 hm
    refine ⟨m, hm, ?_⟩
    rw [hlinks.coefficient?_path hx hz hl hm, if_pos hthrough]
    rfl
  case own =>
    intro l hl
    refine ⟨decisionVariable family d.index l.1, bound, _, List.mem_map_of_mem (hmem l hl), hbound, rfl, ?_⟩
    rw [hlinks.coefficient?_decision hx hz hl, if_pos rfl]
    rfl
  case other =>
    intro l hl b' hb' i hi hsome
    obtain ⟨e, he, rfl⟩ := List.mem_map.1 hb'
    obtain ⟨j, hj, rfl⟩ := List.mem_map.1 hi
    rw [hlinks.coefficient?_decision hx hz hl] at hsome
    split at hsome
    · cases hsome
    · split at hsome
      · rename_i hkey
        obtain ⟨hnode, hindex⟩ := Diagram.decisionVariable_key_inj (Diagram.nodeShape_length_pos _ _ (hmem l hl))
          (Diagram.nodeShape_length_pos _ _ hj) hkey
        exact ⟨(List.inj_on_of_nodup_map h.decision_nodup hd he hnode).symm, hindex.symm⟩
      · cases hsome

/-! ## Creation -/

/-- Everything is known when the constraints are added. -/
theorem pathVariables_ok [Lengths] {z : List (DecisionVariables α)} {rules : List ForbiddenRule} {fixed : FixedStates}
    {eager : Bool} {scale : α} {w v : Workspace α}
    (hrun : (pathVariables dia z rules fixed eager scale).runOn w = (.ok x, v)) :
    ∃ ms u, fixed.Within dia.S ∧ members dia rules fixed = .ok ms ∧ u.model = w.model ∧
      (linkPaths dia z fixed eager scale ms).runOn u = (.ok x, v) := by
  have hends : (pathVariables dia z rules fixed eager scale).Ends (fun u => u.model = w.model) (fun x v =>
      ∃ ms u, fixed.Within dia.S ∧ members dia rules fixed = .ok ms ∧ u.model = w.model ∧
        (linkPaths dia z fixed eager scale ms).runOn u = (.ok x, v)) fun _ _ => True := by
    rw [pathVariables_eq]
    refine Build.Ends.lift_bind (checkScale_yields scale) (fun _ _ _ _ => trivial) fun _ _ => ?_
    extract_lets afterNotice
    have hafter : ∀ u, (afterNotice u).Ends (fun u => u.model = w.model) (fun x v =>
        ∃ ms u, fixed.Within dia.S ∧ members dia rules fixed = .ok ms ∧ u.model = w.model ∧
          (linkPaths dia z fixed eager scale ms).runOn u = (.ok x, v)) fun _ _ => True := by
      intro _
      refine Build.Ends.lift_bind (checkFixedStates_yields dia.S fixed.pairs) (fun _ _ _ _ => trivial)
        fun _ hwithin => ?_
      have hfound : Yields (members dia rules fixed) (fun ms => members dia rules fixed = .ok ms) fun _ => True := by
        cases members dia rules fixed <;> trivial
      refine Build.Ends.lift_bind hfound (fun _ _ _ _ => trivial) fun ms hms u hu => ?_
      cases hlink : (linkPaths dia z fixed eager scale ms).runOn u with
      | mk result v =>
          cases result with
          | ok x => exact ⟨ms, u, hwithin, hms, hu, hlink⟩
          | error f => trivial
    split
    · exact Build.Ends.bind (Q := fun _ u => u.model = w.model) (Build.Ends.notify fun _ hu => hu) hafter
    · exact hafter ()
  exact hends.of_ok rfl hrun

/-- **All nodes.** What is added for path variables: the strategy constraints of one node after the other, and the
constraint on the probabilities if it is wanted now. -/
theorem linkPaths_leaves {fixed : FixedStates} (hfixed : fixed.Within dia.S) {ms : List (Path × α)}
    (hms : (ms.map Prod.fst).Sublist (paths dia.S fixed)) {z : List (DecisionVariables α)}
    (hz : ∀ b ∈ z, ∀ k ∈ b.node.scope, InRange dia.S.length k) (eager : Bool) (scale : α) :
    (linkPaths dia z fixed eager scale ms).Leaves fun x added => x.Created dia.S ∧
      ∃ parts cut, added = parts.flatten ++ cut ∧ (∀ c ∈ cut, c.1 = probabilityCutName) ∧
        List.Forall₂ (fun b part => ∃ bound links, theoreticalBound dia.S dia.D b = .ok bound ∧
          StrategyLinks x b.node bound b.z links ∧ part = namedLinks b.node links) z parts := by
  unfold linkPaths
  refine Build.Leaves.keeps_bind (fun _ => rfl) fun family => ?_
  extract_lets x afterCut
  have hx : x.Created dia.S := pathsIn_created hfixed hms family
  refine (Build.Leaves.forM fun b hb => addStrategyConstraints_leaves hx (hz b hb)).bind fun _ first hfirst => ?_
  obtain ⟨parts, rfl, hparts⟩ := hfirst
  split
  · refine Build.Leaves.lift_bind fun c _ => (Build.Leaves.addConstraint _ c).bind fun _ cut hcut => ?_
    refine Build.Leaves.pure ⟨hx, parts, cut ++ [], rfl, ?_, hparts⟩
    rw [hcut, List.append_nil]
    exact List.forall_mem_singleton.2 rfl
  · exact Build.Leaves.pure ⟨hx, parts, [], rfl, fun c hc => absurd hc List.not_mem_nil, hparts⟩

/-- **Creation.** Where decision variables and path variables of an accepted diagram have been created, the strategy
constraints of all decision nodes have been added, and tie the two. -/
theorem ties_of_run [Lengths] (h : dia.Accepted) {rules : List ForbiddenRule} {fixed : FixedStates} {eager : Bool}
    {scale : α} {w₀ w₁ w v : Workspace α} {z : List (DecisionVariables α)}
    (hfirst : (decisionVariables dia).runOn w₀ = (.ok z, w₁))
    (hsecond : (pathVariables dia z rules fixed eager scale).runOn w = (.ok x, v)) :
    z.map DecisionVariables.node = dia.D ∧ ∃ parts cut,
      v.model.problem.constraints = w.model.problem.constraints ++ (parts.flatten ++ cut) ∧
        (∀ c ∈ cut, c.1 = probabilityCutName) ∧
        List.Forall₂ (fun b part => ∃ links, part = namedLinks b.node links ∧ Ties dia z x b links) z parts := by
  obtain ⟨family, rfl⟩ := (Diagram.decisionVariables_gives h).of_ok trivial hfirst
  obtain ⟨ms, u, hwithin, hms, hu, hlink⟩ := pathVariables_ok hsecond
  have hscope : ∀ b ∈ dia.D.map (dia.nodeBlock family), ∀ k ∈ b.node.scope, InRange dia.S.length k := by
    rw [List.forall_mem_map]
    exact fun d hd => h.scope_inRange (List.mem_append_right _ hd)
  obtain ⟨_, hadded, hx, parts, cut, rfl, hcut, hparts⟩ :=
    (linkPaths_leaves hwithin (sublist_of_members hms) hscope eager scale).of_ok hlink
  refine ⟨?_, parts, cut, ?_, hcut, ?_⟩
  · rw [List.map_map]
    exact List.map_id _
  · rw [hadded, hu]
  · rw [List.forall₂_map_left_iff] at hparts ⊢
    have hmem : List.Forall₂ (fun d part => d ∈ dia.D ∧ _) dia.D parts :=
      (List.forall₂_and_left _ _).2 ⟨fun d hd => hd, hparts⟩
    refine hmem.imp fun d part hpart => ?_
    obtain ⟨hd, bound, links, hbound, hlinks, rfl⟩ := hpart
    exact ⟨links, rfl, hlinks.ties h hx hd hbound⟩

/-- In exact arithmetic every constraint has its own decision variable, if every node has a state. -/
theorem Ties.own_occurs {dia : Diagram Rat} (h : dia.Accepted) (hpos : ∀ n ∈ dia.S, 1 ≤ n)
    {z : List (DecisionVariables Rat)} {x : PathVariables Rat} {family : Nat} {d : InfoNode} (hd : d ∈ dia.D)
    {links : List (Path × Constraint Rat)} (hties : Ties dia z x (dia.nodeBlock family d) links)
    {l : Path × Constraint Rat} (hl : l ∈ links) :
    ∃ u, (l.1, u) ∈ (dia.nodeBlock family d).z ∧ (l.2.coefficient? u).isSome = true := by
  obtain ⟨u, bound, factor, hu, hbound, hfactor, hcoefficient⟩ := hties.own l hl
  refine ⟨u, hu, ?_⟩
  -- there is a path through the decision, and the bound is positive
  obtain ⟨m, hm, hsome⟩ := hties.path l hl
  obtain ⟨c, hfilter, -⟩ := hties.once m hm
  have hown : l ∈ [(d.scope.map (entry m.path), c)] := hfilter ▸ List.mem_filter.2 ⟨hl, hsome⟩
  have hthrough : m ∈ x.through d l.1 := by
    rw [List.mem_singleton.1 hown]
    exact PathVariables.mem_through.2 ⟨hm, rfl⟩
  have hpositive : 0 < factor := by
    obtain rfl : pathBound dia d = bound := Except.ok.inj ((h.theoreticalBound_eq hpos hd _).symm.trans hbound)
    rw [hfactor, strategyBound_eq_min]
    exact lt_min (Nat.cast_pos.2 (List.length_pos_of_mem hthrough)) (h.pathBound_pos hpos hd)
  rw [hcoefficient, if_neg fun hzero => (ne_of_gt hpositive) (beq_iff_eq.1 hzero)]
  rfl

/-! ## The main statement -/

/-- **Links.** Let an accepted diagram be given; nodes may be observed more than once. Where its decision variables
and then its path variables have been created, there is a block of decision variables for every decision node, and for
every block strategy constraints have been added that tie the path variables to it. Every path variable occurs in just
one of them, which is that of the states that its path has at the observed nodes and the node itself, and has the
coefficient one there. Every constraint has a path variable, its own decision variable unless that would be multiplied
by zero, and no other decision variable. In exact arithmetic both kinds of variables can be created in an empty model
and the constraints have their own decision variables, if every node has a state, every path in space has a
probability, rules name nodes of the state space, and fixed states are states of their nodes. -/
theorem pathVariables_linked :
    (∀ {α : Type} [Scalar α] [Lengths] {dia : Diagram α}, dia.Accepted →
      ∀ (rules : List ForbiddenRule) (fixed : FixedStates) (eager : Bool) (scale : α) (w₀ w₁ w v : Workspace α) (z x),
        (decisionVariables dia).runOn w₀ = (.ok z, w₁) →
        (pathVariables dia z rules fixed eager scale).runOn w = (.ok x, v) →
        z.map DecisionVariables.node = dia.D ∧ ∃ parts cut,
          v.model.problem.constraints = w.model.problem.constraints ++ (parts.flatten ++ cut) ∧
          (∀ c ∈ cut, c.1 = probabilityCutName) ∧
          List.Forall₂ (fun b part => ∃ links, part = namedLinks b.node links ∧ Ties dia z x b links) z parts) ∧
    ∀ {dia : Diagram Rat}, dia.Accepted → (∀ n ∈ dia.S, 1 ≤ n) →
      (∀ s, InSpace dia.S s → ∃ p, dia.P.eval s = .ok p) →
      ∀ (rules : List ForbiddenRule) (fixed : FixedStates), RulesWithin rules dia.S → fixed.Within dia.S →
      ∀ (eager : Bool) (scale : Rat) (name : String), 0 < scale →
        ∃ z w x v, (decisionVariables dia).runOn (.empty name) = (.ok z, w) ∧
          (pathVariables dia z rules fixed eager scale).runOn w = (.ok x, v) ∧
          ∀ b ∈ z, ∀ links, Ties dia z x b links → ∀ l ∈ links,
            ∃ u, (l.1, u) ∈ b.z ∧ (l.2.coefficient? u).isSome = true := by
  constructor
  · intro α _ _ dia h rules fixed eager scale w₀ w₁ w v z x hfirst hsecond
    exact ties_of_run h hfirst hsecond
  · intro dia h hpos hprob rules fixed hrules hfixed eager scale name hscale
    obtain ⟨w, hfirst, hsecond⟩ := Diagram.creation_run h hpos (fun s hs => Diagram.eval_eq_prob (hprob s hs))
      (Diagram.rulesDecide_of_within hrules hfixed) hfixed hscale eager name
    refine ⟨_, w, _, _, hfirst, hsecond, fun b hb links hties l hl => ?_⟩
    obtain ⟨d, hd, rfl⟩ := List.mem_map.1 hb
    have hblock : Ties dia _ _ (dia.nodeBlock 0 d) links := hties
    exact hblock.own_occurs h hpos hd hl

/-- A state that is seen twice before something is done about it. -/
def echo : Diagram Rat where
  S := [2, 2]
  C := [⟨0, []⟩]
  D := [⟨1, [0, 0]⟩]
  V := [⟨2, [1]⟩]
  P := .tables ⟨[(⟨0, []⟩, ⟨[2], [1/3, 2/3], rfl⟩)]⟩
  U := .tables [(⟨2, [1]⟩, ⟨[2], [1, 2], rfl⟩)] 0

theorem echo_tabulated : echo.Tabulated where
  accepted := Diagram.accepted_iff.2 (by decide)
  probability := ⟨_, rfl, by decide, by decide⟩

/-- Nothing may be done about the first state, which is seen twice. The path of the second state and the first action
has the coefficient one in the constraint of these states, which has their decision variable, and does not occur in
any other strategy constraint. -/
theorem pathVariables_linked_echo :
    ∃ z w x v links c, (decisionVariables echo).runOn (.empty "model") = (.ok z, w) ∧
      (pathVariables echo z [⟨[0, 1], [[0, 1]]⟩] .empty true 1).runOn w = (.ok x, v) ∧
      namedLinks ⟨1, [0, 0]⟩ links ⊆ v.model.problem.constraints ∧
      links.filter (fun l => (l.2.coefficient? (pathVariable (α := Rat) 1 [1, 0])).isSome) = [([1, 1, 0], c)] ∧
      c.coefficient? (pathVariable (α := Rat) 1 [1, 0]) = some 1 ∧
      (c.coefficient? (decisionVariable 0 1 [1, 1, 0])).isSome = true := by
  have hpos : ∀ n ∈ echo.S, 1 ≤ n := by decide
  have hrules : RulesWithin [⟨[0, 1], [[0, 1]]⟩] echo.S := by
    unfold RulesWithin
    decide
  have hprob : ∀ s, InSpace echo.S s → echo.P.eval s = .ok (echo.prob s) := fun _ hs => echo_tabulated.eval_prob hs
  have hfixed := FixedStates.within_empty echo.S
  obtain ⟨z, w, x, v, hfirst, hsecond, hown⟩ := pathVariables_linked.2 echo_tabulated.accepted hpos
    (fun s hs => ⟨_, hprob s hs⟩) _ _ hrules hfixed true 1 "model" (by decide +kernel)
  -- what has been created
  obtain ⟨w', hfirst', hsecond'⟩ := Diagram.creation_run echo_tabulated.accepted hpos hprob
    (Diagram.rulesDecide_of_within hrules hfixed) hfixed (show (0 : Rat) < 1 by decide +kernel) true "model"
  obtain ⟨hz, rfl⟩ := Prod.mk.inj (hfirst.symm.trans hfirst')
  obtain rfl := Except.ok.inj hz
  obtain rfl := Except.ok.inj (Prod.mk.inj (hsecond.symm.trans hsecond')).1
  obtain ⟨-, parts, cut, hconstraints, -, hparts⟩ :=
    pathVariables_linked.1 echo_tabulated.accepted _ _ _ _ _ _ _ _ _ _ hfirst hsecond
  have hb : echo.decisionBlock ⟨1, [0, 0]⟩ ∈ echo.D.map echo.decisionBlock := List.mem_map_of_mem (by decide)
  obtain ⟨part, hpart, links, rfl, hties⟩ := exists_of_mem_left hparts hb
  have hmember : ([1, 0] : Path) ∈ echo.memberPaths [⟨[0, 1], [[0, 1]]⟩] .empty := by decide +kernel
  obtain ⟨c, hfilter, hone⟩ := hties.once _ (List.mem_map_of_mem hmember)
  have hlink : ([1, 1, 0], c) ∈ links :=
    List.mem_of_mem_filter (hfilter ▸ List.mem_singleton.2 rfl : ([1, 1, 0], c) ∈ links.filter _)
  obtain ⟨u, hu, hsome⟩ := hown _ hb links hties _ hlink
  obtain ⟨i, -, hi⟩ := List.mem_map.1 hu
  obtain ⟨rfl, rfl⟩ := Prod.mk.inj hi
  refine ⟨_, w, _, v, links, c, hfirst, hsecond, fun l hl => ?_, hfilter, hone, hsome⟩
  rw [hconstraints]
  exact List.mem_append_right _ (List.mem_append_left _ (List.mem_flatten.2 ⟨_, hpart, hl⟩))

end InfluenceDiagrams
