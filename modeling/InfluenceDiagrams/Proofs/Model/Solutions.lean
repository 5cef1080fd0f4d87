import InfluenceDiagrams.Proofs.Model.Constraints

/-!
# `InfluenceDiagrams.Proofs.Model.Solutions` — what feasible points of the model satisfy

A point is feasible if it gives zero or one to every decision variable and a share between zero and one to
every path variable, selects one state in every information state, takes no paths through decisions that
are not selected and not too many through others, and takes paths of total probability one. A lazy model
leaves the last condition out.

## Contents
- **`choiceAt`, `shareAt`** — the values of the variables.
- **`pathSum`, `massExpr`** — weighted sums over the paths taken, and their probability.
- **`Diagram.Linked`** — all conditions but the last; **`linked_iff`**.
- **`Diagram.Solution`** — all conditions; **`feasible_iff_solution`**.
-/

namespace InfluenceDiagrams

/-- The value of the variable for a decision at an index. -/
def choiceAt (point : VarKey → Rat) (d : InfoNode) (index : Path) : Rat :=
  point (decisionVariable (α := Rat) 0 d.index index).key

/-- The value of the variable of a path. -/
def shareAt (point : VarKey → Rat) (s : Path) : Rat := point (pathVariable (α := Rat) 1 s).key

namespace Diagram

/-- The conditions that tie the values of the variables to each other. -/
structure Linked (dia : Diagram Rat) (rules : List ForbiddenRule) (fixed : FixedStates)
    (point : VarKey → Rat) : Prop where
  binary : ∀ d ∈ dia.D, ∀ index ∈ paths (nodeShape dia.S d) .empty,
    choiceAt point d index = 0 ∨ choiceAt point d index = 1
  share : ∀ s ∈ dia.memberPaths rules fixed, 0 ≤ shareAt point s ∧ shareAt point s ≤ 1
  one : ∀ d ∈ dia.D, ∀ info ∈ paths (d.info.map (entry dia.S)) .empty,
    ((statesBelow (entry dia.S d.index)).map fun k => choiceAt point d (info ++ [k])).sum = 1
  through : ∀ d ∈ dia.D, ∀ index ∈ paths (nodeShape dia.S d) .empty,
    dia.membersThrough rules fixed d index ≠ [] →
      ((dia.membersThrough rules fixed d index).map (shareAt point)).sum ≤
        strategyBound (dia.membersThrough rules fixed d index).length (pathBound dia d) *
          choiceAt point d index

/-- The conditions on the values of the variables. -/
structure Solution (dia : Diagram Rat) (rules : List ForbiddenRule) (fixed : FixedStates)
    (point : VarKey → Rat) : Prop extends dia.Linked rules fixed point where
  total : ((dia.memberPaths rules fixed).map fun s => dia.prob s * shareAt point s).sum = 1

variable {dia : Diagram Rat} {rules : List ForbiddenRule} {fixed : FixedStates}

/-! ## The variables -/

/-- All variables of the model. -/
def modelVariables (dia : Diagram Rat) (rules : List ForbiddenRule) (fixed : FixedStates) :
    List (Variable Rat) :=
  (dia.D.flatMap fun d => (paths (nodeShape dia.S d) .empty).map (decisionVariable 0 d.index)) ++
    (dia.memberPaths rules fixed).map (pathVariable 1)

/-- They are the variables of both blocks. -/
theorem modelVariables_eq (dia : Diagram Rat) (rules : List ForbiddenRule) (fixed : FixedStates) :
    (dia.D.map dia.decisionBlock).flatMap (fun d => d.z.map Prod.snd) ++ (dia.pathBlock rules fixed).vars =
      dia.modelVariables rules fixed := by
  rw [modelVariables, List.flatMap_map, PathVariables.vars, pathBlock, List.map_map]
  simp only [decisionBlock, List.map_map]
  rfl

theorem mem_modelVariables {v : Variable Rat} :
    v ∈ dia.modelVariables rules fixed ↔
      (∃ d ∈ dia.D, ∃ index ∈ paths (nodeShape dia.S d) .empty, v = decisionVariable 0 d.index index) ∨
        ∃ s ∈ dia.memberPaths rules fixed, v = pathVariable 1 s := by
  simp only [modelVariables, List.mem_append, List.mem_flatMap, List.mem_map, eq_comm]

theorem forall_modelVariables {p : Variable Rat → Prop} : (∀ v ∈ dia.modelVariables rules fixed, p v) ↔
    (∀ d ∈ dia.D, ∀ index ∈ paths (nodeShape dia.S d) .empty, p (decisionVariable 0 d.index index)) ∧
      ∀ s ∈ dia.memberPaths rules fixed, p (pathVariable 1 s) := by
  simp only [modelVariables, List.forall_mem_append, List.forall_mem_flatMap, List.forall_mem_map]

/-- The key of a variable says what it is. -/
theorem modelVariables_eq_of_key {v w : Variable Rat} (hv : v ∈ dia.modelVariables rules fixed)
    (hw : w ∈ dia.modelVariables rules fixed) (h : v.key = w.key) : v = w := by
  -- decision variables are of family zero, path variables of family one
  rcases mem_modelVariables.1 hv with ⟨d, -, i, -, rfl⟩ | ⟨s, -, rfl⟩
  · rcases mem_modelVariables.1 hw with ⟨e, -, j, -, rfl⟩ | ⟨t, -, rfl⟩
    · simp only [decisionVariable, Variable.binary] at h ⊢
      rw [h]
    · cases congrArg VarKey.family h
  · rcases mem_modelVariables.1 hw with ⟨e, -, j, -, rfl⟩ | ⟨t, -, rfl⟩
    · cases congrArg VarKey.family h
    · simp only [pathVariable, Variable.real] at h ⊢
      rw [h]

/-! ## Sums over the paths taken -/

theorem prob_pos_of_member {s : Path} (hs : s ∈ dia.memberPaths rules fixed) : 0 < dia.prob s := by
  have := List.of_mem_filter hs
  rw [hasVariable, Bool.and_eq_true] at this
  exact of_decide_eq_true this.2

/-- A weighted sum of the path variables. -/
def pathSum (dia : Diagram Rat) (rules : List ForbiddenRule) (fixed : FixedStates) (weight : Path → Rat) :
    LinearExpr Rat :=
  .sum ((dia.memberPaths rules fixed).map fun s => .scaled (weight s) (.ofVar (pathVariable 1 s)))

section PathSum

variable {weight : Path → Rat}

theorem eval_pathSum {point : VarKey → Rat} : (dia.pathSum rules fixed weight).eval point =
    ((dia.memberPaths rules fixed).map fun s => weight s * shareAt point s).sum := by
  rw [pathSum, LinearExpr.eval_sum, List.map_map]
  congr 1
  apply List.map_congr_left
  intro s _
  rw [Function.comp_apply, LinearExpr.eval_scaled, LinearExpr.eval_ofVar]
  rfl

theorem vars_pathSum : (dia.pathSum rules fixed weight).Within (dia.modelVariables rules fixed) := by
  intro v hv
  obtain ⟨e, he, hv⟩ := LinearExpr.vars_sum hv
  obtain ⟨s, hs, rfl⟩ := List.mem_map.1 he
  have := LinearExpr.vars_scaled hv
  rw [LinearExpr.vars_ofVar, List.mem_singleton] at this
  exact mem_modelVariables.2 (Or.inr ⟨s, hs, this⟩)

/-- The variable of a path occurs if its weight is not zero. -/
theorem key_mem_pathSum {s : Path} (hs : s ∈ dia.memberPaths rules fixed) (hweight : weight s ≠ 0) :
    (pathVariable (α := Rat) 1 s).key ∈ (dia.pathSum rules fixed weight).keys := by
  apply LinearExpr.keys_sum.2
  refine ⟨_, List.mem_map_of_mem hs, ?_⟩
  rw [LinearExpr.keys_scaled hweight]
  exact List.mem_singleton.2 rfl

end PathSum

/-- The scaled probability of the paths taken, which the constraint on the probabilities is about. -/
def massExpr (dia : Diagram Rat) (rules : List ForbiddenRule) (fixed : FixedStates) (scale : Rat) : LinearExpr Rat :=
  dia.pathSum rules fixed fun s => dia.prob s * scale

theorem eval_massExpr {point : VarKey → Rat} {scale : Rat} : (dia.massExpr rules fixed scale).eval point =
    ((dia.memberPaths rules fixed).map fun s => dia.prob s * shareAt point s).sum * scale := by
  rw [massExpr, eval_pathSum, ← List.sum_map_mul_right]
  congr 1
  apply List.map_congr_left
  intro s _
  exact mul_right_comm _ _ _

theorem key_mem_massExpr {scale : Rat} (hscale : 0 < scale) {s : Path} (hs : s ∈ dia.memberPaths rules fixed) :
    (pathVariable (α := Rat) 1 s).key ∈ (dia.massExpr rules fixed scale).keys :=
  key_mem_pathSum hs (ne_of_gt (mul_pos (prob_pos_of_member hs) hscale))

/-! ## Variables and constraints -/

theorem vars_linkedConstraints :
    ∀ c ∈ dia.linkedConstraints rules fixed, ∀ v ∈ c.2.vars, v ∈ dia.modelVariables rules fixed := by
  simp only [mem_modelVariables]
  refine forall_linkedConstraints.2 ⟨?_, ?_⟩
  · intro d hd info hinfo v hv
    obtain ⟨k, hk, rfl⟩ := List.mem_map.1 (LinearExpr.vars_sumVars hv)
    exact Or.inl ⟨d, hd, info ++ [k], mem_nodeShape_paths.2 ⟨hinfo, mem_statesBelow.1 hk⟩, rfl⟩
  · intro d hd index hindex _ v hv
    rcases LinearExpr.vars_sub hv with hv | hv
    · obtain ⟨s, hs, rfl⟩ := List.mem_map.1 (LinearExpr.vars_sumVars hv)
      exact Or.inr ⟨s, List.mem_of_mem_filter hs, rfl⟩
    · have := LinearExpr.vars_scaled hv
      rw [LinearExpr.vars_ofVar, List.mem_singleton] at this
      exact Or.inl ⟨d, hd, index, hindex, this⟩

theorem vars_probabilityConstraint {scale : Rat} :
    ∀ v ∈ (dia.probabilityConstraint rules fixed scale).vars, v ∈ dia.modelVariables rules fixed :=
  vars_pathSum

theorem vars_modelConstraints {scale : Rat} :
    ∀ c ∈ dia.modelConstraints rules fixed scale, ∀ v ∈ c.2.vars, v ∈ dia.modelVariables rules fixed := by
  rw [modelConstraints, List.forall_mem_append, List.forall_mem_singleton]
  exact ⟨vars_linkedConstraints, vars_probabilityConstraint⟩

/-- Every decision variable occurs where one of its states is selected. -/
theorem occurs_decisionVariable {d : InfoNode} (hd : d ∈ dia.D) {index : Path}
    (hindex : index ∈ paths (nodeShape dia.S d) .empty) :
    ∃ c ∈ dia.linkedConstraints rules fixed,
      (decisionVariable (α := Rat) 0 d.index index).key ∈ c.2.vars.map Variable.key := by
  obtain ⟨info, k, rfl, hinfo, hk⟩ := exists_append_of_mem_nodeShape hindex
  refine ⟨_, List.mem_append_left _ (List.mem_flatMap.2 ⟨d, hd, List.mem_map.2 ⟨info, hinfo, rfl⟩⟩), ?_⟩
  apply LinearExpr.keys_sumVars.2
  exact List.mem_map_of_mem (List.mem_map.2 ⟨k, mem_statesBelow.2 hk, rfl⟩)

/-- With a decision node, every path variable occurs where its path is tied to a decision. -/
theorem occurs_linkedConstraints (h : dia.Accepted) (hfixed : fixed.Within dia.S) (hdecision : dia.D ≠ []) :
    ∀ v ∈ dia.modelVariables rules fixed, ∃ c ∈ dia.linkedConstraints rules fixed,
      v.key ∈ c.2.vars.map Variable.key := by
  intro v hv
  rcases mem_modelVariables.1 hv with ⟨d, hd, index, hindex, rfl⟩ | ⟨s, hs, rfl⟩
  · exact occurs_decisionVariable hd hindex
  · obtain ⟨d, hd⟩ := List.exists_mem_of_ne_nil _ hdecision
    let index := d.scope.map (entry s)
    have hindex : index ∈ paths (nodeShape dia.S d) .empty :=
      h.scope_mem_nodeShape (List.mem_append_right _ hd) (inSpace_of_member hfixed hs)
    have hthrough : s ∈ dia.membersThrough rules fixed d index := mem_membersThrough.2 ⟨hs, rfl⟩
    refine ⟨(strategyName d.index index, dia.strategyConstraint rules fixed d index), ?_, ?_⟩
    · refine List.mem_append_right _ (List.mem_flatMap.2 ⟨d, hd, List.mem_map.2 ⟨index, ?_, rfl⟩⟩)
      exact List.mem_filter.2 ⟨hindex, decide_eq_true (List.ne_nil_of_mem hthrough)⟩
    · exact LinearExpr.keys_sub.2 (Or.inl (LinearExpr.keys_sumVars.2
        (List.mem_map_of_mem (List.mem_map_of_mem hthrough))))

theorem occurs_modelConstraints {scale : Rat} (hscale : 0 < scale) :
    ∀ v ∈ dia.modelVariables rules fixed, ∃ c ∈ dia.modelConstraints rules fixed scale,
      v.key ∈ c.2.vars.map Variable.key := by
  intro v hv
  rcases mem_modelVariables.1 hv with ⟨d, hd, index, hindex, rfl⟩ | ⟨s, hs, rfl⟩
  · obtain ⟨c, hc, hkey⟩ := @occurs_decisionVariable dia rules fixed d hd index hindex
    exact ⟨c, List.mem_append_left _ hc, hkey⟩
  · exact ⟨_, List.mem_append_right _ (List.mem_singleton.2 rfl), key_mem_massExpr hscale hs⟩

/-! ## The conditions -/

theorem admits_binary {point : VarKey → Rat} {name : String} {family : Nat} :
    Problem.Admits point (.binary name family) ↔ point ⟨name, family⟩ = 0 ∨ point ⟨name, family⟩ = 1 := by
  constructor
  · rintro ⟨hlow, hhigh, hint⟩
    obtain ⟨n, hn⟩ := hint rfl
    change (0 : Rat) ≤ point ⟨name, family⟩ at hlow
    change point ⟨name, family⟩ ≤ (1 : Rat) at hhigh
    change point ⟨name, family⟩ = (n : Rat) at hn
    rw [hn] at hlow hhigh ⊢
    -- an integer between zero and one
    have h0 : 0 ≤ n := by exact_mod_cast hlow
    have h1 : n ≤ 1 := by exact_mod_cast hhigh
    rcases (by omega : n = 0 ∨ n = 1) with rfl | rfl
    · exact Or.inl rfl
    · exact Or.inr rfl
  · intro h
    refine ⟨?_, ?_, fun _ => ?_⟩
    · show (0 : Rat) ≤ point ⟨name, family⟩
      rcases h with h | h
      · exact le_of_eq h.symm
      · rw [h]
        exact zero_le_one
    · show point ⟨name, family⟩ ≤ (1 : Rat)
      rcases h with h | h
      · rw [h]
        exact zero_le_one
      · exact le_of_eq h
    · rcases h with h | h
      · exact ⟨0, h⟩
      · exact ⟨1, h⟩

theorem admits_real {point : VarKey → Rat} {name : String} {family : Nat} {low high : Rat} :
    Problem.Admits point (.real name family low high) ↔
      low ≤ point ⟨name, family⟩ ∧ point ⟨name, family⟩ ≤ high := by
  constructor
  · rintro ⟨hlow, hhigh, -⟩
    exact ⟨hlow, hhigh⟩
  · rintro ⟨hlow, hhigh⟩
    exact ⟨hlow, hhigh, fun h => by cases h⟩

/-- Exactly one state is selected if the values of the variables of an information state sum up to one. -/
theorem holds_oneDecision_iff {point : VarKey → Rat} {family : Nat} {d : Node} {count : Int} {info : Path} :
    (oneDecision family d count info).Holds point ↔
      ((statesBelow count).map fun k =>
        point (decisionVariable (α := Rat) family d (info ++ [k])).key).sum = 1 := by
  rw [oneDecision, Constraint.holds_equals, LinearExpr.eval_sumVars, List.map_map]
  rfl

theorem holds_oneDecision {point : VarKey → Rat} {d : InfoNode} {info : Path} :
    (oneDecision 0 d.index (entry dia.S d.index) info).Holds point ↔
      ((statesBelow (entry dia.S d.index)).map fun k => choiceAt point d (info ++ [k])).sum = 1 :=
  holds_oneDecision_iff

theorem holds_strategyConstraint {point : VarKey → Rat} {d : InfoNode} {index : Path} :
    (dia.strategyConstraint rules fixed d index).Holds point ↔
      ((dia.membersThrough rules fixed d index).map (shareAt point)).sum ≤
        strategyBound (dia.membersThrough rules fixed d index).length (pathBound dia d) *
          choiceAt point d index := by
  rw [strategyConstraint, Constraint.holds_atMost, LinearExpr.eval_sumVars, LinearExpr.eval_scaled,
    LinearExpr.eval_ofVar, List.map_map]
  rfl

theorem holds_probabilityConstraint {point : VarKey → Rat} {scale : Rat} (hscale : 0 < scale) :
    (dia.probabilityConstraint rules fixed scale).Holds point ↔
      ((dia.memberPaths rules fixed).map fun s => dia.prob s * shareAt point s).sum = 1 := by
  show (Constraint.equals (dia.massExpr rules fixed scale) scale).Holds point ↔ _
  rw [Constraint.holds_equals, eval_massExpr]
  -- the scale is a factor of both sides
  constructor
  · intro h
    exact mul_right_cancel₀ (ne_of_gt hscale) (h.trans (one_mul scale).symm)
  · intro h
    rw [h, one_mul]

/-- The conditions say that all variables have admissible values and satisfy the constraints of a lazy model. -/
theorem linked_iff {point : VarKey → Rat} : dia.Linked rules fixed point ↔
    (∀ v ∈ dia.modelVariables rules fixed, Problem.Admits point v) ∧
      ∀ c ∈ dia.linkedConstraints rules fixed, c.2.Holds point := by
  rw [forall_modelVariables, forall_linkedConstraints]
  constructor
  · intro h
    refine ⟨⟨?_, ?_⟩, ?_, ?_⟩
    · intro d hd index hindex
      exact admits_binary.2 (h.binary d hd index hindex)
    · intro s hs
      exact admits_real.2 (h.share s hs)
    · intro d hd info hinfo
      exact holds_oneDecision.2 (h.one d hd info hinfo)
    · intro d hd index hindex hne
      exact holds_strategyConstraint.2 (h.through d hd index hindex hne)
  · rintro ⟨⟨hbinary, hshare⟩, hone, hthrough⟩
    constructor
    · intro d hd index hindex
      exact admits_binary.1 (hbinary d hd index hindex)
    · intro s hs
      exact admits_real.1 (hshare s hs)
    · intro d hd info hinfo
      exact holds_oneDecision.1 (hone d hd info hinfo)
    · intro d hd index hindex hne
      exact holds_strategyConstraint.1 (hthrough d hd index hindex hne)

/-- **Feasibility.** The feasible points of the model are the solutions of the conditions. -/
theorem feasible_iff_solution {p : Problem Rat} {scale : Rat} (hscale : 0 < scale)
    (hp : p.constraints = dia.modelConstraints rules fixed scale) (point : VarKey → Rat) :
    p.Feasible point ↔ dia.Solution rules fixed point := by
  rw [Problem.feasible_iff (dia.modelVariables rules fixed)
    (fun v hv w hw => modelVariables_eq_of_key hv hw) (by rw [hp]; exact vars_modelConstraints)
    (by rw [hp]; exact occurs_modelConstraints hscale), hp, modelConstraints, List.forall_mem_append,
    List.forall_mem_singleton, ← and_assoc, ← linked_iff, holds_probabilityConstraint hscale]
  constructor
  · rintro ⟨hlinked, htotal⟩
    exact ⟨hlinked, htotal⟩
  · intro h
    exact ⟨h.toLinked, h.total⟩

end Diagram
end InfluenceDiagrams
