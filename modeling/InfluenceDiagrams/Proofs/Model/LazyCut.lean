import Mathlib.Algebra.Order.Group.Unbundled.Abs
import InfluenceDiagrams.Proofs.Model.Encoding
import InfluenceDiagrams.Proofs.Model.Verdicts
import InfluenceDiagrams.Proofs.Program.Met

/-!
# `InfluenceDiagrams.Proofs.Model.LazyCut` — what the lazy constraint on the probabilities does

The callback adds up the probabilities of the paths taken in a candidate, and objects unless the sum is one up
to the tolerance. What it submits does not depend on the candidate: it is the constraint that an eager model has
from the start. Candidates give values by name. In the model of a diagram the names of variables tell path
variables from all others, so that a callback sees the values that a solver reports.

## Contents
- **`Candidate.Gives`** — a candidate has the values of a point for the path variables.
- **`evaluateProbabilityCut_eq`, `eq_of_evaluateProbabilityCut`** — when the callback objects, and what it submits.
- **`DecisionModel.candidate_value`** — a value by name.
- **`Diagram.probabilityCallback`** — the callback of a lazy model; `evaluate_eq_none`.
- **`Diagram.met_question`** — what the solver is asked is about the variables of the model.
- **`Diagram.gives_shown`** — callbacks see the values that a solver reports.
-/

namespace InfluenceDiagrams

/-! ## What a callback sees -/

/-- The candidate has the values of a point for the path variables. -/
def Candidate.Gives (c : Candidate Rat) (x : PathVariables Rat) (point : VarKey → Rat) : Prop :=
  ∀ m ∈ x.members, c.value m.var.name = .ok (point m.var.key)

theorem candidateMass_eq {x : PathVariables Rat} {c : Candidate Rat} {point : VarKey → Rat} (h : c.Gives x point) :
    candidateMass x c = .ok ((x.members.map fun m => point m.var.key * m.prob).sum) := by
  have hstep : ∀ total : Rat, ∀ m ∈ x.members,
      ((c.value m.var.name).map fun v => total + v * m.prob) = pure (total + point m.var.key * m.prob) := by
    intro total m hm
    rw [h m hm]
    rfl
  have hsteps := foldlM_eq_pure hstep 0
  rw [foldl_add_eq_sum, zero_add] at hsteps
  exact hsteps

/-- In exact arithmetic two numbers are close if they differ by at most the tolerance. -/
theorem isClose_eq {x y tolerance : Rat} (htolerance : 0 ≤ tolerance) :
    isClose x y tolerance = .ok (decide (|y - x| ≤ tolerance)) := by
  unfold isClose
  rw [if_neg (show ¬tolerance < 0 from not_lt.2 htolerance)]
  by_cases hxy : x = y
  · rw [if_pos (beq_iff_eq.2 hxy), hxy, sub_self, abs_zero, decide_eq_true htolerance]
  · have habs : Scalar.abs (y - x) = |y - x| := by
      unfold Scalar.abs
      split
      · rename_i hneg
        exact (abs_of_neg hneg).symm
      · rename_i hpos
        exact (abs_of_nonneg (not_lt.1 hpos)).symm
    rw [if_neg fun heq => hxy (beq_iff_eq.1 heq), if_neg, habs]
    -- all numbers are finite
    show ¬(x == x && y == y && false) = true
    rw [Bool.and_false]
    exact Bool.false_ne_true

namespace Diagram

variable {dia : Diagram Rat} {rules : List ForbiddenRule} {fixed : FixedStates} {scale tolerance : Rat}
  {c : Candidate Rat}

/-- The probability of the paths taken, over the variables and over the paths. -/
theorem sum_members_mass (dia : Diagram Rat) (rules : List ForbiddenRule) (fixed : FixedStates)
    (point : VarKey → Rat) :
    ((dia.pathBlock rules fixed).members.map fun m => point m.var.key * m.prob).sum =
      ((dia.memberPaths rules fixed).map fun s => dia.prob s * shareAt point s).sum := by
  rw [pathBlock, List.map_map]
  congr 1
  apply List.map_congr_left
  intro s _
  exact mul_comm _ _

/-- The callback objects unless the probabilities of the paths taken sum to one up to the tolerance. -/
theorem evaluateProbabilityCut_eq {point : VarKey → Rat} (h : c.Gives (dia.pathBlock rules fixed) point)
    (htolerance : 0 ≤ tolerance) :
    evaluateProbabilityCut (dia.pathBlock rules fixed) scale tolerance c =
      .ok (if |1 - ((dia.memberPaths rules fixed).map fun s => dia.prob s * shareAt point s).sum| ≤ tolerance
        then none else some (.unnamed (dia.probabilityConstraint rules fixed scale))) := by
  rw [evaluateProbabilityCut, candidateMass_eq h, sum_members_mass]
  show (do
    if ← isClose _ 1 tolerance then .ok none
    else (probabilityCut (dia.pathBlock rules fixed) scale).map fun c => some (LazyConstraint.unnamed c) :
      Except (Fault Rat) _) = _
  rw [isClose_eq htolerance, probabilityCut_eq]
  show (if decide _ = true then Except.ok none else Except.ok _) = _
  simp only [decide_eq_true_eq]
  split <;> rfl

/-- What the callback submits is the constraint of an eager model, without its name. -/
theorem eq_of_evaluateProbabilityCut {cut : LazyConstraint Rat}
    (h : evaluateProbabilityCut (dia.pathBlock rules fixed) scale tolerance c = .ok (some cut)) :
    cut = .unnamed (dia.probabilityConstraint rules fixed scale) := by
  rw [evaluateProbabilityCut, probabilityCut_eq] at h
  cases hmass : candidateMass (dia.pathBlock rules fixed) c with
  | error f =>
      rw [hmass] at h
      cases h
  | ok total =>
      rw [hmass] at h
      change (do
        if ← isClose total 1 tolerance then .ok none
        else .ok (some (LazyConstraint.unnamed (dia.probabilityConstraint rules fixed scale))) :
          Except (Fault Rat) _) = _ at h
      cases hclose : isClose total 1 tolerance with
      | error f =>
          rw [hclose] at h
          cases h
      | ok b =>
          rw [hclose] at h
          cases b with
          | true => cases h
          | false => exact (Option.some.inj (Except.ok.inj h)).symm

end Diagram

/-! ## Values by name -/

/-- The value of a variable by name, if no other variable that was met has that name. -/
theorem DecisionModel.candidate_value {m : DecisionModel Rat} {v : Variable Rat} {x : Numeral Rat}
    (hmet : ∃ u ∈ m.problem.met, u.key = v.key) (hname : ∀ u ∈ m.problem.met, u.name = v.name → u.key = v.key)
    (hx : m.value? v.key = some x) : m.candidate.value v.name = .ok x.number := by
  have hvars : ∀ u, u ∈ m.problem.vars ↔ u ∈ m.problem.met := fun u => (List.mergeSort_perm _ _).mem_iff
  have hfind : Keyed.find? v.name m.candidate = some (some x) := by
    apply Keyed.find?_ofPairs
    · obtain ⟨u, hu, hkey⟩ := hmet
      exact ⟨_, List.mem_map_of_mem ((hvars u).2 hu), congrArg VarKey.name hkey⟩
    · intro p hp hpname
      obtain ⟨u, hu, rfl⟩ := List.mem_map.1 hp
      show m.value? u.key = some x
      rw [hname u ((hvars u).1 hu) hpname, hx]
  rw [Candidate.value, hfind]
  exact Numeral.finite_eq x

/-! ## The variables of a diagram -/

namespace Diagram

variable {dia : Diagram Rat} {rules : List ForbiddenRule} {fixed : FixedStates} {c : Candidate Rat}

/-- The variables of the model, and the anchor. -/
def knownVariables (dia : Diagram Rat) (rules : List ForbiddenRule) (fixed : FixedStates) : List (Variable Rat) :=
  Problem.anchor :: dia.modelVariables rules fixed

/-- No other variable has the name of a path variable. -/
theorem key_eq_of_name {u : Variable Rat} (hu : u ∈ dia.knownVariables rules fixed) {s : Path}
    (hname : u.name = (pathVariable (α := Rat) 1 s).name) : u.key = (pathVariable (α := Rat) 1 s).key := by
  rcases List.mem_cons.1 hu with rfl | hu
  · -- the names differ in the first letter
    change "__dummy" = "x_" ++ pathToken s at hname
    rw [← String.append_empty (s := "__dummy")] at hname
    exact absurd hname (append_ne_append (by decide) (by decide) (by decide) _ _)
  · rcases mem_modelVariables.1 hu with ⟨d, -, index, -, rfl⟩ | ⟨t, -, rfl⟩
    · exact absurd hname (decisionVariable_name_ne _ _ _ _ _)
    · change "x_" ++ pathToken t = "x_" ++ pathToken s at hname
      rw [pathToken_injective (String.append_right_inj _ |>.1 hname)]

/-- Of the constraints of an assembled model only the one on the probabilities may be missing. -/
theorem constraints_assembled (dia : Diagram Rat) (rules : List ForbiddenRule) (fixed : FixedStates)
    (options : ModelOptions Rat) : (dia.assembled rules fixed options).model.problem.constraints =
      dia.linkedConstraints rules fixed ++ dia.cutConstraints rules fixed (!options.lazyCuts) options.scale := rfl

theorem constraints_eager {options : ModelOptions Rat} (heager : options.lazyCuts = false) :
    (dia.assembled rules fixed options).model.problem.constraints =
      dia.modelConstraints rules fixed options.scale := by
  rw [constraints_assembled, heager]
  rfl

theorem constraints_lazy {options : ModelOptions Rat} (hlazy : options.lazyCuts = true) :
    (dia.assembled rules fixed options).model.problem.constraints = dia.linkedConstraints rules fixed := by
  rw [constraints_assembled, hlazy]
  exact List.append_nil _

/-- The callback of a lazy model. -/
def probabilityCallback (dia : Diagram Rat) (rules : List ForbiddenRule) (fixed : FixedStates)
    (options : ModelOptions Rat) : LazyCallback Rat :=
  ⟨probabilityCutName, evaluateProbabilityCut (dia.pathBlock rules fixed) options.scale options.tolerance, false⟩

/-- At a solution the callback of a lazy model does not object, whatever its tolerance is. -/
theorem evaluate_eq_none {options : ModelOptions Rat} {point : VarKey → Rat} (htolerance : 0 ≤ options.tolerance)
    (hsol : dia.Solution rules fixed point) (h : c.Gives (dia.pathBlock rules fixed) point) :
    (dia.probabilityCallback rules fixed options).evaluate c = .ok none := by
  refine (evaluateProbabilityCut_eq h htolerance).trans ?_
  rw [hsol.total, sub_self, abs_zero, if_pos htolerance]

theorem callbacks_eager {options : ModelOptions Rat} (heager : options.lazyCuts = false) :
    (dia.assembled rules fixed options).model.callbacks = [] := by
  rw [assembled, heager]
  rfl

theorem callbacks_lazy {options : ModelOptions Rat} (hlazy : options.lazyCuts = true) :
    (dia.assembled rules fixed options).model.callbacks = [dia.probabilityCallback rules fixed options] := by
  rw [assembled, hlazy]
  rfl

theorem vars_assembled {options : ModelOptions Rat} :
    ∀ c ∈ (dia.assembled rules fixed options).model.problem.constraints, ∀ v ∈ c.2.vars,
      v ∈ dia.modelVariables rules fixed := by
  rw [constraints_assembled, List.forall_mem_append]
  refine ⟨vars_linkedConstraints, ?_⟩
  unfold cutConstraints
  split
  · exact List.forall_mem_singleton.2 vars_probabilityConstraint
  · exact fun c hc => absurd hc List.not_mem_nil

theorem met_assembled {options : ModelOptions Rat} {v : Variable Rat}
    (hv : v ∈ (dia.assembled rules fixed options).model.problem.met) : v ∈ dia.modelVariables rules fixed := by
  rcases Problem.mem_met_meet hv with hv | hv
  · cases hv
  · obtain ⟨c, hc, hv⟩ := List.mem_flatMap.1 hv
    exact vars_assembled c hc v hv

section Shown

variable {options : ModelOptions Rat} {e : LinearExpr Rat} {sense : Sense} {verdict : Verdict Rat}

theorem vars_anchored_known (he : e.Within (dia.modelVariables rules fixed)) {c : Rat} {v : Variable Rat}
    (hv : v ∈ (e.anchored c).vars) : v ∈ dia.knownVariables rules fixed := by
  rcases LinearExpr.mem_vars_anchored hv with hv | rfl
  · exact List.mem_cons_of_mem _ (he v hv)
  · exact List.mem_cons_self

/-- In a question with an objective in the variables of the model, no other variables but the anchor have been met. -/
theorem met_question (he : e.Within (dia.modelVariables rules fixed)) {v : Variable Rat}
    (hv : v ∈ ((dia.assembled rules fixed options).aimed e sense).question.met) : v ∈ dia.knownVariables rules fixed := by
  have hasks : ((dia.assembled rules fixed options).aimed e sense).Asks _ e sense := Workspace.Asks.aimed rfl
  rcases Problem.mem_met_observe hv with hv | ⟨f, hf, hv⟩
  · rw [Problem.met_withAnchor] at hv
    exact List.mem_cons_of_mem _ (met_assembled hv)
  · obtain ⟨c, hc⟩ := Problem.objective_withAnchor hasks.objective
    rw [hc] at hf
    obtain rfl := Option.some.inj hf
    exact vars_anchored_known he hv

/-- And none has been met when it is answered. -/
theorem met_shown (he : e.Within (dia.modelVariables rules fixed)) {v : Variable Rat}
    (hv : v ∈ ((((dia.assembled rules fixed options).aimed e sense).answered verdict).shown).model.problem.met) :
    v ∈ dia.knownVariables rules fixed := by
  have hasks : ((dia.assembled rules fixed options).aimed e sense).Asks _ e sense := Workspace.Asks.aimed rfl
  rcases Problem.mem_met_observe hv with hv | ⟨f, hf, hv⟩
  · exact met_question he hv
  · rw [hasks.objective_answered] at hf
    obtain rfl := Option.some.inj hf
    exact vars_anchored_known he hv

/-- The callbacks of a model with a decision node see the values that a solver reports. -/
theorem gives_shown (h : dia.Accepted) (hfixed : fixed.Within dia.S) (hdecision : dia.D ≠ [])
    (he : e.Within (dia.modelVariables rules fixed)) {point : VarKey → Rat}
    (hreports : verdict.Reports ((dia.assembled rules fixed options).aimed e sense).question point) :
    ((((dia.assembled rules fixed options).aimed e sense).answered verdict).shown).model.candidate.Gives
      (dia.pathBlock rules fixed) point := by
  let w := (dia.assembled rules fixed options).aimed e sense
  intro m hm
  obtain ⟨s, hs, rfl⟩ := List.mem_map.1 hm
  -- the variable occurs in a constraint that ties it to a decision
  obtain ⟨c, hc, hkey⟩ := occurs_linkedConstraints h hfixed hdecision (pathVariable 1 s)
    (mem_modelVariables.2 (Or.inr ⟨s, hs, rfl⟩))
  obtain ⟨u, hu, hukey⟩ := List.mem_map.1 hkey
  have hc' : c ∈ w.model.problem.constraints := by
    show c ∈ (dia.assembled rules fixed options).model.problem.constraints
    rw [constraints_assembled]
    exact List.mem_append_left _ hc
  have hasks : w.Asks _ e sense := Workspace.Asks.aimed rfl
  obtain ⟨x, hx, hnumber⟩ := hreports.value?
    (hasks.question.mem_occurring.2 (Or.inl ⟨c.2, List.mem_map_of_mem hc', hu⟩))
  rw [hukey] at hx hnumber
  show _ = Except.ok (point (pathVariable (α := Rat) 1 s).key)
  rw [← hnumber]
  apply DecisionModel.candidate_value
  · have hflat : u ∈ w.model.problem.constraints.flatMap fun c => c.2.terms.map Prod.fst :=
      List.mem_flatMap.2 ⟨c, hc', hu⟩
    obtain ⟨t, ht, htkey⟩ := Problem.exists_met_meet
      (p := { Problem.empty options.name with constraints := w.model.problem.constraints }) hflat
    refine ⟨t, ?_, htkey.trans hukey⟩
    apply Problem.met_subset_observe
    apply Problem.met_subset_observe
    rw [Problem.met_withAnchor]
    exact ht
  · intro t ht hname
    exact key_eq_of_name (met_shown he ht) hname
  · exact hx

end Shown

end Diagram
end InfluenceDiagrams
