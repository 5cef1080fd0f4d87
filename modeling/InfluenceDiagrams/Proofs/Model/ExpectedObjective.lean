import InfluenceDiagrams.Proofs.Model.Correspondence
import InfluenceDiagrams.Model.Objective

/-!
# `InfluenceDiagrams.Proofs.Model.ExpectedObjective` — strategies as feasible points, and what they are worth

The feasible points of the model of a diagram are the strategies whose paths have variables, one point for
each strategy as far as the variables of the model go. The objective adds up utilities weighted with
probabilities over the paths taken, which is the expected utility of the strategy.

## Contents
- **`expectedValue_eq`** — the objective as a sum over the paths with variables.
- **`sum_members_taken`** — weighted sums over the paths taken and over the allowed paths.
- **`feasiblePoints_encode`** — the main statement.
-/

namespace InfluenceDiagrams

variable {dia : Diagram Rat} {rules : List ForbiddenRule} {fixed : FixedStates} {point : VarKey → Rat}
  {Z : Strategy}

/-! ## The objective -/

theorem checkScale_eq_ok {scale : Rat} (hscale : 0 < scale) : ModelOptions.checkScale scale = .ok () :=
  if_neg (not_le.2 hscale)

/-- The objective is built where the utilities match the state counts. -/
theorem Diagram.Accepted.expectedValue_eq (h : dia.Accepted) (hutility : dia.U.Fits dia.S dia.V)
    (hfixed : fixed.Within dia.S) {scale : Rat} (hscale : 0 < scale) :
    expectedValue dia (dia.pathBlock rules fixed) scale =
      .ok (.sum ((dia.memberPaths rules fixed).map fun s =>
        .scaled (dia.prob s * dia.utility s * scale) (.ofVar (pathVariable 1 s)))) := by
  have hterms : (dia.pathBlock rules fixed).members.mapM (valueTerm dia scale) =
      (Except.ok ((dia.memberPaths rules fixed).map fun s =>
        LinearExpr.scaled (dia.prob s * dia.utility s * scale) (.ofVar (pathVariable 1 s))) :
          Except (Fault Rat) _) := by
    rw [Diagram.pathBlock, List.mapM_map]
    apply mapM_eq_pure
    intro s hs
    show valueTerm dia scale ⟨s, pathVariable 1 s, dia.prob s⟩ = _
    rw [valueTerm, h.eval_utility hutility (Diagram.inSpace_of_member hfixed hs)]
    exact LinearExpr.multiple_eq _ _
  rw [expectedValue, checkScale_eq_ok hscale]
  show Except.map LinearExpr.sum _ = _
  rw [hterms]
  rfl

/-- The objective of a well-formed diagram is built. -/
theorem expectedValue_eq (h : dia.WellFormed) (hfixed : fixed.Within dia.S) {scale : Rat} (hscale : 0 < scale) :
    expectedValue dia (dia.pathBlock rules fixed) scale =
      .ok (.sum ((dia.memberPaths rules fixed).map fun s =>
        .scaled (dia.prob s * dia.utility s * scale) (.ofVar (pathVariable 1 s)))) :=
  h.accepted.expectedValue_eq h.utility hfixed hscale

/-- Where a point stands for a strategy whose paths have variables, a sum over the paths taken is one over
the allowed paths. -/
theorem sum_members_taken (h : dia.WellFormed) (hfixed : fixed.Within dia.S)
    (hZ : Z.Admissible dia (dia.pathBlock rules fixed))
    (hpoint : Encodes (dia.D.map dia.decisionBlock) (dia.pathBlock rules fixed) point Z) (f : Path → Rat) :
    ((dia.memberPaths rules fixed).map fun s => dia.prob s * f s * shareAt point s).sum =
      ((dia.allowedPaths Z).map fun s => dia.prob s * f s).sum := by
  have hmembers := hZ.members
  rw [Diagram.paths_pathBlock] at hmembers
  rw [← Diagram.sum_members_allowed_eq h hfixed hmembers f]
  congr 1
  apply List.map_congr_left
  intro s hs
  rw [((Diagram.encodes_iff hZ.nodes_eq).1 hpoint).2 s hs, mul_ite, mul_one, mul_zero]

/-! ## The main statement -/

/-- **Strategies as feasible points.** The model of a well-formed diagram is built. Its feasible points are
those that stand for a strategy all of whose paths of positive probability have variables. A point stands
for one such strategy only, every such strategy has a point, and two points for it agree on all variables of
the model. There the objective is the scaled expected utility. -/
theorem feasiblePoints_encode (h : dia.WellFormed) (hrules : RulesWithin rules dia.S)
    (hfixed : fixed.Within dia.S) {options : ModelOptions Rat} (heager : options.lazyCuts = false)
    (hscale : 0 < options.scale) :
    ∃ z x w, (assemble dia options rules fixed).runOn (.empty options.name) = (.ok (z, x), w) ∧
      (∀ point, w.model.problem.Feasible point ↔
        ∃ Z : Strategy, Z.Admissible dia x ∧ Encodes z x point Z) ∧
      (∀ point, ∀ Y Z : Strategy, Y.Admissible dia x → Z.Admissible dia x →
        Encodes z x point Y → Encodes z x point Z → Y = Z) ∧
      (∀ Z : Strategy, Z.Admissible dia x → ∃ point, Encodes z x point Z) ∧
      (∀ Z : Strategy, Z.Admissible dia x → ∀ p q, Encodes z x p Z → Encodes z x q Z →
        ∀ c ∈ w.model.problem.constraints, ∀ v ∈ c.2.vars, p v.key = q v.key) ∧
      ∃ e, expectedValue dia x options.scale = .ok e ∧
        ∀ Z : Strategy, Z.Admissible dia x → ∀ point, Encodes z x point Z →
          ∃ u, expectedUtility dia Z = .ok u ∧ e.eval point = options.scale * u := by
  obtain ⟨w, hrun, hconstraints⟩ := Diagram.assemble_spec h hrules hfixed heager hscale
  refine ⟨_, _, w, hrun, ?_, ?_, ?_, ?_, _, expectedValue_eq h hfixed hscale, ?_⟩
  · intro point
    rw [Diagram.feasible_iff_solution hscale hconstraints]
    exact Diagram.solution_iff_exists_encodes h hfixed
  · intro point Y Z hY hZ
    exact Diagram.encodes_unique h hY.fits hZ.fits hY.nodes_eq hZ.nodes_eq
  · intro Z hZ
    exact Diagram.exists_encodes rules fixed h hZ.fits hZ.nodes_eq
  · intro Z hZ p q hp hq c hc v hv
    rw [hconstraints] at hc
    exact Diagram.encodes_agree hZ.fits hZ.nodes_eq hp hq (Diagram.vars_modelConstraints c hc v hv)
  · intro Z hZ point hpoint
    refine ⟨_, h.expectedUtility_eq hZ.fits, ?_⟩
    rw [← sum_members_taken h hfixed hZ hpoint, LinearExpr.eval_sum, List.map_map, ← List.sum_map_mul_left]
    congr 1
    apply List.map_congr_left
    intro s _
    show LinearExpr.eval point (.scaled (dia.prob s * dia.utility s * options.scale) (.ofVar (pathVariable 1 s))) = _
    rw [LinearExpr.eval_scaled, LinearExpr.eval_ofVar]
    change _ = options.scale * (dia.prob s * dia.utility s * point (pathVariable (α := Rat) 1 s).key)
    ring

theorem feasiblePoints_encode_umbrella :
    ∃ z x w point e u, (assemble umbrella .default [] .empty).runOn (.empty ModelOptions.defaultName) =
        (.ok (z, x), w) ∧
      w.model.problem.Feasible point ∧ Encodes z x point umbrellaStrategy ∧
      expectedValue umbrella x 1 = .ok e ∧ expectedUtility umbrella umbrellaStrategy = .ok u ∧
      e.eval point = 1 * u := by
  have hrules : RulesWithin [] umbrella.S := fun rule hrule => absurd hrule List.not_mem_nil
  have hfixed := FixedStates.within_empty umbrella.S
  have heager : (ModelOptions.default : ModelOptions Rat).lazyCuts = false := rfl
  have hscale : 0 < (ModelOptions.default : ModelOptions Rat).scale := by decide
  obtain ⟨z, x, w, hrun, hfeasible, -, hpoints, -, e, he, hvalue⟩ :=
    feasiblePoints_encode umbrella_wellFormed hrules hfixed heager hscale
  have hx : x = umbrella.pathBlock [] .empty := by
    obtain ⟨w', hrun', -⟩ :=
      Diagram.assemble_spec umbrella_wellFormed hrules hfixed heager hscale
    exact (Prod.mk.inj (Except.ok.inj (congrArg Prod.fst (hrun.symm.trans hrun')))).2
  have hadmissible : umbrellaStrategy.Admissible umbrella x := by
    rw [hx]
    exact Diagram.admissible_unrestricted umbrellaStrategy_fits rfl
  obtain ⟨point, hpoint⟩ := hpoints _ hadmissible
  obtain ⟨u, hu, heq⟩ := hvalue _ hadmissible point hpoint
  exact ⟨z, x, w, point, e, u, hrun, (hfeasible point).2 ⟨_, hadmissible, hpoint⟩, hpoint, he, hu, heq⟩

end InfluenceDiagrams
