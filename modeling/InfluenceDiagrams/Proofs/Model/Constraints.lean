import InfluenceDiagrams.Proofs.Model.Bound
import InfluenceDiagrams.Proofs.Model.Building
import InfluenceDiagrams.Proofs.Path.Grouping
import InfluenceDiagrams.Proofs.Path.Tokens
import InfluenceDiagrams.Proofs.Program.Evaluation

/-!
# `InfluenceDiagrams.Proofs.Model.Constraints` — what the model of a diagram consists of

The variables and constraints of the model of a diagram, written down without running the construction:
binary variables and one constraint per information state for every decision node, a variable for every path
that may be taken, constraints that tie the two together, and the constraint on the probabilities, which a
callback holds back in a lazy model. Construction adds these constraints and never fails, since no two have
the same name. It asks for tables that match and a state for every node; what is in the tables does not matter.

## Contents
- **`decisionBlock`, `pathBlock`** — the variables.
- **`oneDecisions`, `strategyConstraints`, `probabilityConstraint`** — the families of constraints.
- **`linkedConstraints`, `modelConstraints`** — the constraints of a lazy and of an eager model.
- **`RulesDecide`** — rules that say of every path whether they exclude it.
- **`familyNames`, `familyNames_nodup`, `not_mem_familyNames`** — the names of the constraints, which are distinct.
- **`decisionVariable_key_inj`, `pathVariable_key_inj`, `decisionVariable_name_ne`** — the names of the variables.
- **`isForbidden?_eq`, `members_eq_filter`** — which paths have a variable.
- **`creation_run`** — the variables are created; **`Diagram.assembled`**, **`assemble_eq`** — construction succeeds,
  and what it makes.
-/

namespace InfluenceDiagrams

/-- The rules name nodes of the state space only. -/
def RulesWithin (rules : List ForbiddenRule) (S : StateCounts) : Prop :=
  ∀ rule ∈ rules, ∀ k ∈ rule.nodes, InRange S.length k

theorem rulesWithin_nil (S : StateCounts) : RulesWithin [] S := fun _ hrule => absurd hrule List.not_mem_nil

/-- The rules say of every path that agrees with the fixed states whether they exclude it. They do if they name
nodes of the state space only, and may do so otherwise. -/
def RulesDecide (rules : List ForbiddenRule) (S : StateCounts) (fixed : FixedStates) : Prop :=
  ∀ s ∈ paths S fixed, ∃ b, isForbidden? s rules = some b

/-- A member is found by its path. -/
theorem PathVariables.find?_of_mem {α : Type} {x : PathVariables α} (hnodup : x.paths.Nodup) {m : PathVariable α}
    (hm : m ∈ x.members) : x.find? m.path = some m := by
  cases hfind : x.find? m.path with
  | none => exact absurd (beq_self_eq_true m.path) (by simpa using List.find?_eq_none.1 hfind m hm)
  | some m' =>
      have hpath : (m'.path == m.path) = true :=
        List.find?_some (p := fun n : PathVariable α => n.path == m.path) hfind
      rw [List.inj_on_of_nodup_map hnodup (List.mem_of_find?_eq_some hfind) hm (eq_of_beq hpath)]

namespace Diagram

/-! ## Variables and constraints -/

section Definitions

variable (dia : Diagram Rat) (rules : List ForbiddenRule) (fixed : FixedStates) (d : InfoNode)

/-- The variables of a decision node. -/
def decisionBlock : DecisionVariables Rat :=
  ⟨d, nodeShape dia.S d, (paths (nodeShape dia.S d) .empty).map fun i => (i, decisionVariable 0 d.index i)⟩

/-- Whether a path in space has a variable: it is not forbidden, and its probability is positive. -/
def hasVariable (s : Path) : Bool := isForbidden? s rules == some false && decide (0 < dia.prob s)

/-- The paths that have a variable. -/
def memberPaths : List Path := (paths dia.S fixed).filter (dia.hasVariable rules)

/-- The path variables. -/
def pathBlock : PathVariables Rat :=
  ⟨(dia.memberPaths rules fixed).map fun s => ⟨s, pathVariable 1 s, dia.prob s⟩, fixed⟩

/-- The paths with variables that lead through a decision. -/
def membersThrough (index : Path) : List Path :=
  (dia.memberPaths rules fixed).filter fun s => d.scope.map (entry s) == index

/-- One state is selected in every information state of a decision node. -/
def oneDecisions : List (String × Constraint Rat) :=
  (paths (d.info.map (entry dia.S)) .empty).map fun info =>
    (oneDecisionName d.index info, oneDecision 0 d.index (entry dia.S d.index) info)

/-- The paths through a decision are only taken if the decision is. -/
def strategyConstraint (index : Path) : Constraint Rat :=
  .atMost (.sumVars ((dia.membersThrough rules fixed d index).map (pathVariable 1)))
    (.scaled (strategyBound (dia.membersThrough rules fixed d index).length (pathBound dia d))
      (.ofVar (decisionVariable 0 d.index index)))

/-- The strategy constraints of a decision node. -/
def strategyConstraints : List (String × Constraint Rat) :=
  ((paths (nodeShape dia.S d) .empty).filter fun index => dia.membersThrough rules fixed d index ≠ []).map
    fun index => (strategyName d.index index, dia.strategyConstraint rules fixed d index)

/-- The scaled probabilities of the paths taken sum to the scale. -/
def probabilityConstraint (scale : Rat) : Constraint Rat :=
  .equals (.sum ((dia.memberPaths rules fixed).map fun s =>
    .scaled (dia.prob s * scale) (.ofVar (pathVariable 1 s)))) scale

/-- The constraint on the probabilities, unless it is left to a callback. -/
def cutConstraints (eager : Bool) (scale : Rat) : List (String × Constraint Rat) :=
  if eager then [(probabilityCutName, dia.probabilityConstraint rules fixed scale)] else []

/-- The constraints that tie the path variables to the decisions. -/
def linkedConstraints : List (String × Constraint Rat) :=
  dia.D.flatMap dia.oneDecisions ++ dia.D.flatMap (dia.strategyConstraints rules fixed)

/-- All constraints of the model. -/
def modelConstraints (scale : Rat) : List (String × Constraint Rat) :=
  dia.linkedConstraints rules fixed ++ [(probabilityCutName, dia.probabilityConstraint rules fixed scale)]

end Definitions

variable {dia : Diagram Rat} {rules : List ForbiddenRule} {fixed : FixedStates}

theorem mem_membersThrough {d : InfoNode} {index s : Path} :
    s ∈ dia.membersThrough rules fixed d index ↔
      s ∈ dia.memberPaths rules fixed ∧ d.scope.map (entry s) = index := by
  rw [membersThrough, List.mem_filter, beq_iff_eq]

/-- What holds of all constraints that tie the variables holds of those of both families. -/
theorem forall_linkedConstraints {p : String × Constraint Rat → Prop} :
    (∀ c ∈ dia.linkedConstraints rules fixed, p c) ↔
      (∀ d ∈ dia.D, ∀ info ∈ paths (d.info.map (entry dia.S)) .empty,
        p (oneDecisionName d.index info, oneDecision 0 d.index (entry dia.S d.index) info)) ∧
      ∀ d ∈ dia.D, ∀ index ∈ paths (nodeShape dia.S d) .empty,
        dia.membersThrough rules fixed d index ≠ [] →
          p (strategyName d.index index, dia.strategyConstraint rules fixed d index) := by
  simp only [linkedConstraints, oneDecisions, strategyConstraints, List.forall_mem_append, List.forall_mem_flatMap,
    List.forall_mem_map, List.forall_mem_filter, decide_eq_true_eq]

/-! ## Names -/

theorem oneDecisionName_eq (d : Node) (info : Path) :
    oneDecisionName d info = "one_decision_" ++ pathToken (d :: info) := by
  cases info with
  | nil => rfl
  | cons k info =>
      rw [oneDecisionName, if_neg (by simp), ← pathToken_cons (List.cons_ne_nil k info)]
      simp only [String.append_assoc]

theorem strategyName_eq (d : Node) {index : Path} (h : index ≠ []) :
    strategyName d index = "strategy_" ++ pathToken (d :: index) := by
  rw [strategyName, ← pathToken_cons h]
  simp only [String.append_assoc]

/-- Texts that start differently are different. -/
theorem append_ne_append {a b : String} (h : a.toList.head? ≠ b.toList.head?) (ha : a ≠ "") (hb : b ≠ "")
    (x y : String) : a ++ x ≠ b ++ y := by
  have hne : ∀ {c : String}, c ≠ "" → c.toList ≠ [] := by
    intro c hc hnil
    exact hc (String.toList_injective hnil)
  intro heq
  have := congrArg (fun t : String => t.toList.head?) heq
  simp only [String.toList_append, List.head?_append_of_ne_nil _ (hne ha),
    List.head?_append_of_ne_nil _ (hne hb)] at this
  exact h this

/-- The keys of decision variables tell the decisions apart. -/
theorem decisionVariable_key_inj {α : Type} [Zero α] [One α] {family family' : Nat} {d e : Node} {i j : Path}
    (hi : i ≠ []) (hj : j ≠ [])
    (h : (decisionVariable (α := α) family d i).key = (decisionVariable (α := α) family' e j).key) :
    d = e ∧ i = j := by
  have hname : "z_" ++ toString d ++ "_" ++ pathToken i = "z_" ++ toString e ++ "_" ++ pathToken j :=
    congrArg VarKey.name h
  have hword : ∀ (k : Node) {s : Path}, s ≠ [] →
      "z_" ++ toString k ++ "_" ++ pathToken s = "z_" ++ pathToken (k :: s) := by
    intro k s hs
    rw [← pathToken_cons hs]
    simp only [String.append_assoc]
  rw [hword d hi, hword e hj] at hname
  exact List.cons.inj (pathToken_injective (String.append_right_inj _ |>.1 hname))

/-- The keys of path variables tell the paths apart. -/
theorem pathVariable_key_inj {α : Type} [Scalar α] {family family' : Nat} {s t : Path}
    (h : (pathVariable (α := α) family s).key = (pathVariable (α := α) family' t).key) : s = t := by
  have hname : "x_" ++ pathToken s = "x_" ++ pathToken t := congrArg VarKey.name h
  exact pathToken_injective (String.append_right_inj _ |>.1 hname)

/-- Decision variables and path variables have different names. -/
theorem decisionVariable_name_ne {α : Type} [Scalar α] (family family' : Nat) (d : Node) (i s : Path) :
    (decisionVariable (α := α) family d i).name ≠ (pathVariable (α := α) family' s).name := by
  intro hname
  change "z_" ++ toString d ++ "_" ++ pathToken i = "x_" ++ pathToken s at hname
  rw [String.append_assoc, String.append_assoc] at hname
  exact append_ne_append (by decide) (by decide) (by decide) _ _ hname

/-- A word and the tokens of the decision nodes, each with different paths. -/
theorem names_nodup {α : Type} {dia : Diagram α} (h : dia.Accepted) (word : String) {L : InfoNode → List Path}
    (hL : ∀ d ∈ dia.D, (L d).Nodup) :
    (dia.D.flatMap fun d => (L d).map fun i => word ++ pathToken (d.index :: i)).Nodup := by
  have hmap : (dia.D.flatMap fun d => (L d).map fun i => word ++ pathToken (d.index :: i)) =
      (dia.D.flatMap fun d => (L d).map fun i => d.index :: i).map fun t => word ++ pathToken t := by
    rw [List.map_flatMap]
    simp only [List.map_map]
    rfl
  have hinj : Function.Injective fun t => word ++ pathToken t := by
    intro s t hst
    exact pathToken_injective (String.append_right_inj word |>.1 hst)
  rw [hmap]
  refine List.Nodup.map hinj ?_
  rw [List.nodup_flatMap]
  constructor
  · intro d hd
    exact (hL d hd).map fun _ _ hst => (List.cons.inj hst).2
  · have hindices := h.decision_nodup
    rw [Diagram.indices, List.Nodup, List.pairwise_map] at hindices
    refine hindices.imp ?_
    intro d e hne s hs ht
    obtain ⟨i, -, rfl⟩ := List.mem_map.1 hs
    obtain ⟨j, -, heq⟩ := List.mem_map.1 ht
    exact hne (List.cons.inj heq).1.symm

theorem nodeShape_length_pos (S : StateCounts) (d : InfoNode) {index : Path}
    (h : index ∈ paths (nodeShape S d) .empty) : index ≠ [] := by
  have hlen := (mem_paths_empty.1 h).length_eq
  rintro rfl
  simp [nodeShape, InfoNode.scope] at hlen

theorem mem_nodeShape_paths {α : Type} {dia : Diagram α} {d : InfoNode} {info : Path} {k : State} :
    info ++ [k] ∈ paths (nodeShape dia.S d) .empty ↔
      info ∈ paths (d.info.map (entry dia.S)) .empty ∧ InRange (entry dia.S d.index) k := by
  rw [nodeShape, InfoNode.scope, List.map_append, List.map_singleton, paths_append_singleton]
  constructor
  · intro h
    obtain ⟨s, hs, h⟩ := List.mem_flatMap.1 h
    obtain ⟨j, hj, heq⟩ := List.mem_map.1 h
    obtain ⟨hinfo, hlast⟩ := List.append_inj' heq rfl
    rw [← hinfo, ← List.singleton_inj.1 hlast]
    exact ⟨hs, mem_statesBelow.1 hj⟩
  · rintro ⟨hinfo, hk⟩
    exact List.mem_flatMap.2 ⟨info, hinfo, List.mem_map.2 ⟨k, mem_statesBelow.2 hk, rfl⟩⟩

theorem exists_append_of_mem_nodeShape {α : Type} {dia : Diagram α} {d : InfoNode} {index : Path}
    (h : index ∈ paths (nodeShape dia.S d) .empty) :
    ∃ info k, index = info ++ [k] ∧ info ∈ paths (d.info.map (entry dia.S)) .empty ∧
      InRange (entry dia.S d.index) k := by
  have hne := nodeShape_length_pos dia.S d h
  refine ⟨index.dropLast, index.getLast hne, (List.dropLast_append_getLast hne).symm, ?_⟩
  rw [← mem_nodeShape_paths, List.dropLast_append_getLast hne]
  exact h

/-- The names of constraints for some information states and for some choices at each decision node, and the name of
the constraint on the probabilities. -/
def familyNames {α : Type} (dia : Diagram α) (infos indices : InfoNode → List Path) : List String :=
  (dia.D.flatMap fun d => (infos d).map (oneDecisionName d.index)) ++
    (dia.D.flatMap fun d => (indices d).map (strategyName d.index)) ++ [probabilityCutName]

/-- Names with different information states and different indices are distinct. -/
theorem familyNames_nodup {α : Type} {dia : Diagram α} (h : dia.Accepted) {infos indices : InfoNode → List Path}
    (hinfos : ∀ d ∈ dia.D, (infos d).Nodup) (hindices : ∀ d ∈ dia.D, (indices d).Nodup)
    (hne : ∀ d ∈ dia.D, ∀ i ∈ indices d, i ≠ []) : (familyNames dia infos indices).Nodup := by
  have hones : (dia.D.flatMap fun d => (infos d).map (oneDecisionName d.index)) =
      dia.D.flatMap fun d => (infos d).map fun i => "one_decision_" ++ pathToken (d.index :: i) :=
    List.flatMap_congr fun d _ => List.map_congr_left fun i _ => oneDecisionName_eq d.index i
  have hstrategies : (dia.D.flatMap fun d => (indices d).map (strategyName d.index)) =
      dia.D.flatMap fun d => (indices d).map fun i => "strategy_" ++ pathToken (d.index :: i) :=
    List.flatMap_congr fun d hd => List.map_congr_left fun i hi => strategyName_eq d.index (hne d hd i hi)
  rw [familyNames, hones, hstrategies, List.nodup_append, List.nodup_append]
  -- different within a family by the tokens, and across families by the first letter
  refine ⟨⟨names_nodup h _ hinfos, names_nodup h _ hindices, ?_⟩, List.nodup_singleton _, ?_⟩
  · intro a ha b hb
    obtain ⟨d, -, ha⟩ := List.mem_flatMap.1 ha
    obtain ⟨e, -, hb⟩ := List.mem_flatMap.1 hb
    obtain ⟨i, -, rfl⟩ := List.mem_map.1 ha
    obtain ⟨j, -, rfl⟩ := List.mem_map.1 hb
    exact append_ne_append (by decide) (by decide) (by decide) _ _
  · intro a ha b hb
    rw [List.mem_singleton.1 hb, ← String.append_empty (s := probabilityCutName)]
    rcases List.mem_append.1 ha with ha | ha
    all_goals
      obtain ⟨d, -, ha⟩ := List.mem_flatMap.1 ha
      obtain ⟨i, -, rfl⟩ := List.mem_map.1 ha
      exact append_ne_append (by decide) (by decide) (by decide) _ _

/-- The words that the names start with. -/
theorem exists_word_of_mem_familyNames {α : Type} {dia : Diagram α} {infos indices : InfoNode → List Path}
    {name : String} (h : name ∈ familyNames dia infos indices) :
    ∃ word ∈ ["one_decision_", "strategy_", probabilityCutName], ∃ rest, name = word ++ rest := by
  rcases List.mem_append.1 h with h | h
  · rcases List.mem_append.1 h with h | h
    · obtain ⟨d, -, h⟩ := List.mem_flatMap.1 h
      obtain ⟨info, -, rfl⟩ := List.mem_map.1 h
      exact ⟨"one_decision_", by simp, _, oneDecisionName_eq d.index info⟩
    · obtain ⟨d, -, h⟩ := List.mem_flatMap.1 h
      obtain ⟨index, -, rfl⟩ := List.mem_map.1 h
      refine ⟨"strategy_", by simp, toString d.index ++ ("_" ++ pathToken index), ?_⟩
      rw [strategyName, String.append_assoc, String.append_assoc]
  · exact ⟨probabilityCutName, by simp, "", (List.mem_singleton.1 h).trans String.append_empty.symm⟩

/-- A text that starts differently is not the name of a constraint. -/
theorem not_mem_familyNames {α : Type} {dia : Diagram α} {infos indices : InfoNode → List Path} {word : String}
    (hword : word ≠ "")
    (hhead : ∀ start ∈ ["one_decision_", "strategy_", probabilityCutName],
      start.toList.head? ≠ word.toList.head?) (rest : String) : word ++ rest ∉ familyNames dia infos indices := by
  intro hmem
  obtain ⟨start, hstart, rest', heq⟩ := exists_word_of_mem_familyNames hmem
  refine append_ne_append (hhead start hstart) ?_ hword rest' rest heq.symm
  rintro rfl
  revert hstart
  decide

/-- The names of the constraints, which are those of the information states and of the choices that some path with a
variable leads through. -/
theorem modelConstraints_names (dia : Diagram Rat) (rules : List ForbiddenRule) (fixed : FixedStates) (scale : Rat) :
    ∃ indices : InfoNode → List Path, (∀ d, (indices d).Sublist (paths (nodeShape dia.S d) .empty)) ∧
      (dia.modelConstraints rules fixed scale).map Prod.fst =
        familyNames dia (fun d => paths (d.info.map (entry dia.S)) .empty) indices := by
  refine ⟨fun d => (paths (nodeShape dia.S d) .empty).filter fun index => dia.membersThrough rules fixed d index ≠ [],
    fun d => List.filter_sublist, ?_⟩
  rw [modelConstraints, linkedConstraints, List.map_append, List.map_append, List.map_flatMap, List.map_flatMap,
    List.map_singleton]
  simp only [oneDecisions, strategyConstraints, List.map_map]
  rfl

/-- No two constraints have the same name. -/
theorem modelConstraints_names_nodup (h : dia.Accepted) (rules : List ForbiddenRule) (fixed : FixedStates)
    (scale : Rat) : ((dia.modelConstraints rules fixed scale).map Prod.fst).Nodup := by
  obtain ⟨indices, hindices, hnames⟩ := modelConstraints_names dia rules fixed scale
  rw [hnames]
  exact familyNames_nodup h (fun d _ => paths_nodup _ _) (fun d _ => (paths_nodup _ _).sublist (hindices d))
    fun d _ i hi => nodeShape_length_pos dia.S d ((hindices d).subset hi)

/-! ## Construction -/

/-- In exact arithmetic the variables of a decision node come to nothing but its constraints, whatever the family
of the variables is. -/
theorem nodeVariables_eq (h : dia.Accepted) {d : InfoNode} (hd : d ∈ dia.D) (family : Nat) :
    nodeVariables dia.S family d = (do
      (paths (d.info.map (entry dia.S)) .empty).forM fun info =>
        Build.addConstraint (some (oneDecisionName d.index info))
          (oneDecision family d.index (entry dia.S d.index) info)
      return ⟨d, nodeShape dia.S d,
        (paths (nodeShape dia.S d) .empty).map fun i => (i, decisionVariable family d.index i)⟩ :
          Build Rat (DecisionVariables Rat)) := by
  rw [nodeVariables, h.decisionShape?_eq (List.mem_append_right _ hd)]
  show (Build.lift (listPaths (nodeShape dia.S d) .empty) >>= fun places => _) = _
  rw [listPaths_unbounded, ← dropLast_nodeShape, ← getLast?_nodeShape]
  rfl

theorem nodeVariables_adds (h : dia.Accepted) {d : InfoNode} (hd : d ∈ dia.D) :
    (nodeVariables dia.S 0 d).Adds (dia.decisionBlock d) (dia.oneDecisions d) := by
  rw [nodeVariables_eq h hd]
  refine Build.Adds.bind_pure (b := ()) ?_ (dia.decisionBlock d)
  have hadds := Build.Adds.forM fun info (_ : info ∈ paths (d.info.map (entry dia.S)) .empty) =>
    Build.Adds.addConstraint (oneDecisionName d.index info)
      (oneDecision (α := Rat) 0 d.index (entry dia.S d.index) info)
  rwa [← List.map_eq_flatMap] at hadds

/-- A path in space matches a rule where it has forbidden states. -/
theorem matchesAll?_eq {S : StateCounts} {s : Path} (hs : InSpace S s) {rules : List ForbiddenRule}
    (hrules : RulesWithin rules S) :
    matchesAll? s rules = some (rules.all fun rule => rule.values.contains (rule.nodes.map (entry s))) := by
  induction rules with
  | nil => rfl
  | cons rule rules ih =>
      obtain ⟨hrule, hrules⟩ := List.forall_mem_cons.1 hrules
      rw [matchesAll?, ForbiddenRule.matches?, hs.subPath? hrule, ih hrules, List.all_cons]
      show (if rule.values.contains (rule.nodes.map (entry s)) = true then _ else some false) = _
      cases rule.values.contains (rule.nodes.map (entry s)) <;> rfl

/-- A path is excluded if there is a rule, and it matches all of them. -/
theorem isForbidden?_eq {S : StateCounts} {s : Path} (hs : InSpace S s) {rules : List ForbiddenRule}
    (hrules : RulesWithin rules S) : isForbidden? s rules =
      some (!rules.isEmpty && rules.all fun rule => rule.values.contains (rule.nodes.map (entry s))) := by
  rw [isForbidden?, matchesAll?_eq hs hrules]
  cases rules <;> rfl

theorem rulesDecide_of_within {S : StateCounts} (h : RulesWithin rules S) (hfixed : fixed.Within S) :
    RulesDecide rules S fixed :=
  fun _ hs => ⟨_, isForbidden?_eq ((mem_paths_iff hfixed).1 hs).1 h⟩

section Members

variable {α : Type} [Scalar α] {dia : Diagram α} {p : Path → α}
  (hprob : ∀ s, InSpace dia.S s → dia.P.eval s = .ok (p s))

include hprob

theorem memberProb_eq {s : Path} (hs : InSpace dia.S s) {b : Bool} (hb : isForbidden? s rules = some b) :
    memberProb dia rules s =
      .ok (if (isForbidden? s rules == some false && !decide (p s ≤ 0)) = true then some (p s) else none) := by
  rw [memberProb, hb]
  -- the probability of a forbidden path is not looked at
  cases b with
  | true => rfl
  | false =>
      rw [hprob s hs]
      show Except.ok (if p s ≤ 0 then none else some (p s)) = _
      by_cases hpos : p s ≤ 0 <;> simp [hpos]

/-- The paths with variables are found, with their probabilities, unless there are too many to list. -/
theorem members_eq_filter [Lengths] (hrules : RulesDecide rules dia.S fixed) (hfixed : fixed.Within dia.S) :
    members dia rules fixed = (listPaths dia.S fixed).map fun ss =>
      (ss.filter fun s => isForbidden? s rules == some false && !decide (p s ≤ 0)).map fun s => (s, p s) := by
  have hprobs : (paths dia.S fixed).mapM (memberProb dia rules) = (Except.ok ((paths dia.S fixed).map fun s =>
      if (isForbidden? s rules == some false && !decide (p s ≤ 0)) = true then some (p s) else none) :
        Except (Fault α) _) := by
    apply mapM_eq_pure
    intro s hs
    obtain ⟨b, hb⟩ := hrules s hs
    exact memberProb_eq hprob ((mem_paths_iff hfixed).1 hs).1 hb
  rw [members, listPaths]
  cases checkCounts (α := α) fixed 0 dia.S with
  | error f => rfl
  | ok _ =>
      show (do
        let probs ← (paths dia.S fixed).mapM (memberProb dia rules)
        .ok (((paths dia.S fixed).zip probs).filterMap fun sp => sp.2.map (sp.1, ·)) : Except (Fault α) _) = _
      rw [hprobs]
      show Except.ok _ = Except.ok _
      congr 1
      -- both sides are filters of the same list
      generalize paths dia.S fixed = ss
      induction ss with
      | nil => rfl
      | cons s ss ih =>
          by_cases hs : (isForbidden? s rules == some false && !decide (p s ≤ 0)) = true
          · simp only [List.map_cons, List.zip_cons_cons, List.filterMap_cons, List.filter_cons, if_pos hs, ih]
            rfl
          · simp only [List.map_cons, List.zip_cons_cons, List.filterMap_cons, List.filter_cons, if_neg hs, ih]
            rfl

end Members

/-- The paths with variables are found, with their probabilities. -/
theorem members_eq (hprob : ∀ s, InSpace dia.S s → dia.P.eval s = .ok (dia.prob s))
    (hrules : RulesDecide rules dia.S fixed) (hfixed : fixed.Within dia.S) :
    members dia rules fixed = .ok ((dia.memberPaths rules fixed).map fun s => (s, dia.prob s)) := by
  have htest : (fun s => isForbidden? s rules == some false && !decide (dia.prob s ≤ 0)) = dia.hasVariable rules := by
    funext s
    rw [hasVariable, ← decide_not, decide_eq_decide.2 not_le]
  rw [members_eq_filter hprob hrules hfixed, listPaths_unbounded, htest]
  rfl

theorem checkFixedStates_eq_ok {α : Type} {S : StateCounts} :
    ∀ {pairs : List (Node × State)}, (∀ p ∈ pairs, InRange S.length p.1 ∧ InRange (entry S p.1) p.2) →
      checkFixedStates (α := α) S pairs = .ok () := by
  intro pairs
  induction pairs with
  | nil => exact fun _ => rfl
  | cons p pairs ih =>
      intro h
      obtain ⟨k, v⟩ := p
      obtain ⟨⟨hk, hv⟩, hpairs⟩ := List.forall_mem_cons.1 h
      rw [checkFixedStates, if_pos (show 0 ≤ k ∧ k < S.length from hk), nth?_eq_entry hk]
      dsimp only
      rw [if_pos (show 0 ≤ v ∧ v < entry S k from hv)]
      exact ih hpairs

theorem paths_pathBlock : (dia.pathBlock rules fixed).paths = dia.memberPaths rules fixed := by
  rw [PathVariables.paths, pathBlock, List.map_map]
  exact List.map_id _

theorem find?_pathBlock {s : Path} (hs : s ∈ dia.memberPaths rules fixed) :
    (dia.pathBlock rules fixed).find? s = some ⟨s, pathVariable 1 s, dia.prob s⟩ := by
  have hnodup : (dia.pathBlock rules fixed).paths.Nodup := by
    rw [paths_pathBlock]
    exact (paths_nodup _ _).filter _
  exact PathVariables.find?_of_mem hnodup (List.mem_map_of_mem hs)

theorem groupVars_eq {group : List Path} (hgroup : ∀ s ∈ group, s ∈ dia.memberPaths rules fixed) :
    groupVars (dia.pathBlock rules fixed) group = group.map (pathVariable 1) := by
  rw [groupVars]
  induction group with
  | nil => rfl
  | cons s group ih =>
      obtain ⟨hs, hgroup⟩ := List.forall_mem_cons.1 hgroup
      rw [List.filterMap_cons, find?_pathBlock hs, List.map_cons, ← ih hgroup]
      rfl

theorem inSpace_of_member (hfixed : fixed.Within dia.S) {s : Path} (hs : s ∈ dia.memberPaths rules fixed) :
    InSpace dia.S s :=
  ((mem_paths_iff hfixed).1 (List.mem_of_mem_filter hs)).1

/-- One strategy constraint is added for a decision, or none if no path with a variable leads through it. -/
theorem addStrategyConstraint_adds {d : InfoNode} {index : Path} {groups : List (Path × List Path)}
    (hgroup : Keyed.find? index groups = if dia.membersThrough rules fixed d index = [] then none
      else some (dia.membersThrough rules fixed d index)) :
    (addStrategyConstraint (dia.pathBlock rules fixed) d.index (pathBound dia d) groups
      (index, decisionVariable 0 d.index index)).Adds ()
      (if dia.membersThrough rules fixed d index = [] then []
      else [(strategyName d.index index, dia.strategyConstraint rules fixed d index)]) := by
  unfold addStrategyConstraint
  dsimp only
  rw [hgroup]
  by_cases hempty : dia.membersThrough rules fixed d index = []
  · rw [if_pos hempty, if_pos hempty]
    exact Build.Adds.pure ()
  · rw [if_neg hempty, if_neg hempty]
    refine Build.Adds.lift_bind (b := dia.strategyConstraint rules fixed d index) ?_ (Build.Adds.addConstraint _ _)
    have hvars : groupVars (dia.pathBlock rules fixed) (dia.membersThrough rules fixed d index) =
        (dia.membersThrough rules fixed d index).map (pathVariable 1) :=
      groupVars_eq fun s hs => List.mem_of_mem_filter hs
    rw [hvars, InfluenceDiagrams.strategyConstraint, LinearExpr.multiple_eq]
    rfl

theorem strategyConstraints_eq_flatMap (d : InfoNode) :
    dia.strategyConstraints rules fixed d = (paths (nodeShape dia.S d) .empty).flatMap fun index =>
      if dia.membersThrough rules fixed d index = [] then []
      else [(strategyName d.index index, dia.strategyConstraint rules fixed d index)] := by
  rw [strategyConstraints]
  generalize paths (nodeShape dia.S d) .empty = indices
  induction indices with
  | nil => rfl
  | cons index indices ih =>
      rw [List.flatMap_cons, ← ih]
      by_cases hempty : dia.membersThrough rules fixed d index = [] <;> simp [hempty]

theorem addStrategyConstraints_adds (h : dia.Accepted) (hpos : ∀ n ∈ dia.S, 1 ≤ n) (hfixed : fixed.Within dia.S)
    {d : InfoNode} (hd : d ∈ dia.D) :
    (addStrategyConstraints dia.S dia.D (dia.pathBlock rules fixed) (dia.decisionBlock d)).Adds ()
      (dia.strategyConstraints rules fixed d) := by
  have hscope := h.scope_inRange (List.mem_append_right _ hd)
  have hin : ∀ s ∈ dia.memberPaths rules fixed, ∀ k ∈ d.scope, InRange s.length k := by
    intro s hs k hk
    rw [(inSpace_of_member hfixed hs).length_eq]
    exact hscope k hk
  obtain ⟨groups, hgroups, hfind⟩ := groupBy?_spec hin
  unfold addStrategyConstraints
  refine Build.Adds.lift_bind (h.theoreticalBound_eq hpos hd _) ?_
  refine Build.Adds.lift_bind (b := groups) (by rw [paths_pathBlock]; exact congrArg (orFault _) hgroups) ?_
  have hstep : ∀ z ∈ (dia.decisionBlock d).z,
      (addStrategyConstraint (dia.pathBlock rules fixed) d.index (pathBound dia d) groups z).Adds ()
        (if dia.membersThrough rules fixed d z.1 = [] then []
        else [(strategyName d.index z.1, dia.strategyConstraint rules fixed d z.1)]) := by
    intro z hz
    obtain ⟨index, -, rfl⟩ := List.mem_map.1 hz
    exact addStrategyConstraint_adds (hfind index)
  have hadds := Build.Adds.forM hstep
  rw [decisionBlock, List.flatMap_map] at hadds
  rw [strategyConstraints_eq_flatMap]
  exact hadds

theorem probabilityCut_eq (dia : Diagram Rat) (rules : List ForbiddenRule) (fixed : FixedStates) (scale : Rat) :
    probabilityCut (dia.pathBlock rules fixed) scale = .ok (dia.probabilityConstraint rules fixed scale) := by
  rw [probabilityCut, probabilitySum, LinearExpr.combination_eq, pathBlock, List.map_map, List.map_map]
  rfl

/-- What the path variables add to a model, from the family number on. -/
theorem pathVariables_adds (h : dia.Accepted) (hpos : ∀ n ∈ dia.S, 1 ≤ n) (hfixed : fixed.Within dia.S)
    (eager : Bool) (scale : Rat) :
    Build.Adds (do
      (dia.D.map dia.decisionBlock).forM (addStrategyConstraints dia.S dia.D (dia.pathBlock rules fixed))
      if eager then
        let c ← Build.lift (probabilityCut (dia.pathBlock rules fixed) scale)
        Build.addConstraint (some probabilityCutName) c
      return dia.pathBlock rules fixed) (dia.pathBlock rules fixed)
      (dia.D.flatMap (dia.strategyConstraints rules fixed) ++ dia.cutConstraints rules fixed eager scale) := by
  have hblock : ∀ z ∈ dia.D.map dia.decisionBlock,
      (addStrategyConstraints dia.S dia.D (dia.pathBlock rules fixed) z).Adds ()
        (dia.strategyConstraints rules fixed z.node) := by
    intro z hz
    obtain ⟨d, hd, rfl⟩ := List.mem_map.1 hz
    exact addStrategyConstraints_adds h hpos hfixed hd
  have hstrategy := Build.Adds.forM hblock
  rw [List.flatMap_map] at hstrategy
  refine hstrategy.bind ?_
  cases eager with
  | false => exact Build.Adds.pure _
  | true =>
      refine Build.Adds.lift_bind (probabilityCut_eq dia rules fixed scale) ?_
      exact (Build.Adds.addConstraint _ _).bind_pure _

/-- Creating the decision variables in a model without families of variables. -/
theorem decisionVariables_run (h : dia.Accepted) {w : Workspace Rat} (hfamilies : w.model.families = 0)
    (hnames : ((w.model.problem.constraints ++ dia.D.flatMap dia.oneDecisions).map Prod.fst).Nodup) :
    (decisionVariables dia).runOn w = (.ok (dia.D.map dia.decisionBlock), Workspace.extend
      ⟨{ w.model with families := 1 }, w.notices⟩ (dia.D.flatMap dia.oneDecisions)) := by
  unfold decisionVariables
  rw [Build.runOn_bind_ok (Build.runOn_freshFamily w), hfamilies]
  exact Build.Adds.mapM (fun d hd => nodeVariables_adds h hd) _ hnames

/-- The notices of a model with rules. -/
def ruleNotices (rules : List ForbiddenRule) : List Notice := if rules.isEmpty then [] else [.forbiddenPaths]

/-- Creating the path variables in a model that has one family of variables. -/
theorem pathVariables_run (h : dia.Accepted) (hpos : ∀ n ∈ dia.S, 1 ≤ n)
    (hprob : ∀ s, InSpace dia.S s → dia.P.eval s = .ok (dia.prob s)) (hrules : RulesDecide rules dia.S fixed)
    (hfixed : fixed.Within dia.S) {scale : Rat} (hscale : 0 < scale) (eager : Bool) {w : Workspace Rat}
    (hfamilies : w.model.families = 1)
    (hnames : ((w.model.problem.constraints ++ (dia.D.flatMap (dia.strategyConstraints rules fixed) ++
      dia.cutConstraints rules fixed eager scale)).map Prod.fst).Nodup) :
    (pathVariables dia (dia.D.map dia.decisionBlock) rules fixed eager scale).runOn w =
      (.ok (dia.pathBlock rules fixed), Workspace.extend
        ⟨{ w.model with families := 2 }, w.notices ++ ruleNotices rules⟩
        (dia.D.flatMap (dia.strategyConstraints rules fixed) ++ dia.cutConstraints rules fixed eager scale)) := by
  have hchecked : ModelOptions.checkScale scale = .ok () := if_neg (not_le.2 hscale)
  have hmembers := members_eq hprob hrules hfixed
  have hcheck : checkFixedStates (α := Rat) dia.S fixed.pairs = .ok () := checkFixedStates_eq_ok hfixed
  unfold pathVariables
  rw [Build.runOn_bind_ok (Build.runOn_lift_ok hchecked w)]
  -- the notice about rules changes nothing else
  have hrest : ∀ u : Workspace Rat, u.model = w.model → Build.runOn (do
      Build.lift (checkFixedStates dia.S fixed.pairs)
      let members ← Build.lift (members dia rules fixed)
      let family ← Build.freshFamily
      let x : PathVariables Rat := ⟨members.map fun m => ⟨m.1, pathVariable family m.1, m.2⟩, fixed⟩
      (dia.D.map dia.decisionBlock).forM (addStrategyConstraints dia.S dia.D x)
      if eager then
        let c ← Build.lift (probabilityCut x scale)
        Build.addConstraint (some probabilityCutName) c
      return x) u = (.ok (dia.pathBlock rules fixed), Workspace.extend
        ⟨{ w.model with families := 2 }, u.notices⟩
        (dia.D.flatMap (dia.strategyConstraints rules fixed) ++ dia.cutConstraints rules fixed eager scale)) := by
    intro u hu
    rw [Build.runOn_bind_ok (Build.runOn_lift_ok hcheck u), Build.runOn_bind_ok (Build.runOn_lift_ok hmembers u),
      Build.runOn_bind_ok (Build.runOn_freshFamily u), hu, hfamilies]
    dsimp only
    rw [List.map_map]
    exact pathVariables_adds h hpos hfixed eager scale _ hnames
  unfold ruleNotices
  cases hempty : rules.isEmpty with
  | true =>
      rw [if_pos rfl, List.append_nil]
      exact hrest w rfl
  | false =>
      show Build.runOn (Build.notify .forbiddenPaths >>= fun _ => _) w = _
      rw [Build.runOn_bind_ok (Build.runOn_notify .forbiddenPaths w)]
      exact hrest _ rfl

/-- All variables are created in an empty model, if every path in space has a probability. -/
theorem creation_run (h : dia.Accepted) (hpos : ∀ n ∈ dia.S, 1 ≤ n)
    (hprob : ∀ s, InSpace dia.S s → dia.P.eval s = .ok (dia.prob s)) (hrules : RulesDecide rules dia.S fixed)
    (hfixed : fixed.Within dia.S) {scale : Rat} (hscale : 0 < scale) (eager : Bool) (name : String) :
    ∃ w, (decisionVariables dia).runOn (.empty name) = (.ok (dia.D.map dia.decisionBlock), w) ∧
      (pathVariables dia (dia.D.map dia.decisionBlock) rules fixed eager scale).runOn w =
        (.ok (dia.pathBlock rules fixed), Workspace.extend
          ⟨{ DecisionModel.empty name with
            problem := (Problem.empty name).extend (dia.D.flatMap dia.oneDecisions), families := 2 }, ruleNotices rules⟩
          (dia.D.flatMap (dia.strategyConstraints rules fixed) ++ dia.cutConstraints rules fixed eager scale)) := by
  -- construction can only fail at a name that is used twice
  have hnames : ((dia.D.flatMap dia.oneDecisions ++ (dia.D.flatMap (dia.strategyConstraints rules fixed) ++
      dia.cutConstraints rules fixed eager scale)).map Prod.fst).Nodup := by
    refine (modelConstraints_names_nodup h rules fixed scale).sublist (List.Sublist.map _ ?_)
    rw [← List.append_assoc, modelConstraints, linkedConstraints]
    refine List.Sublist.append_left ?_ _
    unfold cutConstraints
    split
    · exact List.Sublist.refl _
    · exact List.nil_sublist _
  have hones : ((dia.D.flatMap dia.oneDecisions).map Prod.fst).Nodup := by
    rw [List.map_append] at hnames
    exact hnames.of_append_left
  exact ⟨_, decisionVariables_run h (w := .empty name) rfl hones,
    pathVariables_run h hpos hprob hrules hfixed hscale eager
      (w := Workspace.extend ⟨{ DecisionModel.empty name with families := 1 }, []⟩ (dia.D.flatMap dia.oneDecisions))
      rfl hnames⟩

/-- The model of a diagram: its constraints, and a callback if the constraint on the probabilities is lazy. -/
def assembled (dia : Diagram Rat) (rules : List ForbiddenRule) (fixed : FixedStates) (options : ModelOptions Rat) :
    Workspace Rat where
  model := { DecisionModel.empty options.name with
    problem := (Problem.empty options.name).extend (dia.linkedConstraints rules fixed ++
      dia.cutConstraints rules fixed (!options.lazyCuts) options.scale)
    callbacks := if options.lazyCuts then [⟨probabilityCutName,
      evaluateProbabilityCut (dia.pathBlock rules fixed) options.scale options.tolerance, false⟩] else []
    families := 2 }
  notices := ruleNotices rules

/-- **Construction.** The model is built, and consists of the variables, constraints and callbacks that are
written down above. -/
theorem assemble_decided (h : dia.Tabulated) (hpos : ∀ n ∈ dia.S, 1 ≤ n)
    (hrules : RulesDecide rules dia.S fixed) (hfixed : fixed.Within dia.S) {options : ModelOptions Rat}
    (hscale : 0 < options.scale) :
    (assemble dia options rules fixed).runOn (.empty options.name) =
      (.ok (dia.D.map dia.decisionBlock, dia.pathBlock rules fixed), dia.assembled rules fixed options) := by
  obtain ⟨w, hfirst, hsecond⟩ := creation_run h.accepted hpos (fun _ hs => h.eval_prob hs) hrules hfixed hscale
    (!options.lazyCuts) options.name
  unfold assemble
  rw [Build.runOn_bind_ok hfirst]
  refine (Build.runOn_bind_ok hsecond).trans ?_
  rw [assembled, linkedConstraints, List.append_assoc, ← Problem.extend_extend]
  cases hlazy : options.lazyCuts <;> rfl

/-- Construction succeeds if the rules name nodes of the state space only. -/
theorem assemble_eq (h : dia.Tabulated) (hpos : ∀ n ∈ dia.S, 1 ≤ n) (hrules : RulesWithin rules dia.S)
    (hfixed : fixed.Within dia.S) {options : ModelOptions Rat} (hscale : 0 < options.scale) :
    (assemble dia options rules fixed).runOn (.empty options.name) =
      (.ok (dia.D.map dia.decisionBlock, dia.pathBlock rules fixed), dia.assembled rules fixed options) :=
  assemble_decided h hpos (rulesDecide_of_within hrules hfixed) hfixed hscale

/-- The model with the constraint on the probabilities from the start. -/
theorem assemble_spec (h : dia.WellFormed) (hrules : RulesWithin rules dia.S) (hfixed : fixed.Within dia.S)
    {options : ModelOptions Rat} (heager : options.lazyCuts = false) (hscale : 0 < options.scale) :
    ∃ w, (assemble dia options rules fixed).runOn (.empty options.name) =
        (.ok (dia.D.map dia.decisionBlock, dia.pathBlock rules fixed), w) ∧
      w.model.problem.constraints = dia.modelConstraints rules fixed options.scale := by
  refine ⟨_, assemble_eq h.tabulated h.counts_pos hrules hfixed hscale, ?_⟩
  rw [assembled, heager]
  rfl

end Diagram
end InfluenceDiagrams
