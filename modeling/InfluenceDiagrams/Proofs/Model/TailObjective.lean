import Mathlib.Order.Bounds.Basic
import InfluenceDiagrams.Proofs.Model.ExpectedObjective
import InfluenceDiagrams.Proofs.Model.TailSolutions

/-!
# `InfluenceDiagrams.Proofs.Model.TailObjective` — the tail objective is the conditional value at risk

At a feasible point of a model with a tail objective, the objective is the conditional value at risk of the
strategy that the point stands for. Every feasible point of the model without the objective can be completed
to one with it, by taking the value at risk as the quantile. Hence both have the same maximum.

## Contents
- **`sum_taken_eq`** — masses of the paths taken and of the allowed paths.
- **`eval_tailExpr`** — the objective at a solution.
- **`exists_completion`, `exists_encodes_tail`** — a solution of the model is completed.
- **`feasible_iff_tailSolution`** — the feasible points of the model with the tail objective.
- **`tailValue_exact`** — the main statement.
-/

namespace InfluenceDiagrams

variable {dia : Diagram Rat} {rules : List ForbiddenRule} {fixed : FixedStates} {point : VarKey → Rat}
  {Z : Strategy} {l : TailLevels Rat} {k : Nat} {level scale v : Rat}

/-! ## Taken masses -/

/-- The probability of a path as far as it is taken. -/
def takenMass (dia : Diagram Rat) (point : VarKey → Rat) (s : Path) : Rat := dia.prob s * shareAt point s

section Taken

variable (h : dia.WellFormed) (hfixed : fixed.Within dia.S) (hZ : Z.Admissible dia (dia.pathBlock rules fixed))
  (hpoint : Encodes (dia.D.map dia.decisionBlock) (dia.pathBlock rules fixed) point Z)

include h hfixed hZ hpoint

/-- Sums over the masses taken of some paths are sums over the probabilities of allowed paths. -/
theorem sum_taken_eq (p : Path → Prop) [DecidablePred p] (f : Path → Rat) :
    ((dia.memberPaths rules fixed).map fun s => if p s then f s * takenMass dia point s else 0).sum =
      ((dia.allowedPaths Z).map fun s => if p s then f s * dia.prob s else 0).sum := by
  have hsum := sum_members_taken h hfixed hZ hpoint fun s => if p s then f s else 0
  have hmembers : ∀ s, dia.prob s * (if p s then f s else 0) * shareAt point s =
      if p s then f s * takenMass dia point s else 0 := by
    intro s
    split
    · rw [takenMass]
      ring
    · rw [mul_zero, zero_mul]
  have hallowed : ∀ s, dia.prob s * (if p s then f s else 0) = if p s then f s * dia.prob s else 0 := by
    intro s
    split
    · exact mul_comm _ _
    · exact mul_zero _
  simp only [hmembers] at hsum
  simp only [hallowed] at hsum
  exact hsum

theorem massBelow_taken : massBelow (dia.memberPaths rules fixed) dia.utility (takenMass dia point) v =
    massBelow (dia.allowedPaths Z) dia.utility dia.prob v := by
  have hsum := sum_taken_eq h hfixed hZ hpoint (fun s => dia.utility s < v) fun _ => 1
  simp only [one_mul] at hsum
  exact hsum

theorem massUpTo_taken : massUpTo (dia.memberPaths rules fixed) dia.utility (takenMass dia point) v =
    massUpTo (dia.allowedPaths Z) dia.utility dia.prob v := by
  have hsum := sum_taken_eq h hfixed hZ hpoint (fun s => dia.utility s ≤ v) fun _ => 1
  simp only [one_mul] at hsum
  exact hsum

theorem isQuantile_taken (hv : IsQuantile (dia.allowedPaths Z) dia.utility dia.prob level v) :
    IsQuantile (dia.memberPaths rules fixed) dia.utility (takenMass dia point) level v := by
  constructor
  · rw [massBelow_taken h hfixed hZ hpoint]
    exact hv.below
  · rw [massUpTo_taken h hfixed hZ hpoint]
    exact hv.upTo

theorem tailMean_taken : tailMean (dia.memberPaths rules fixed) dia.utility (takenMass dia point) level v =
    tailMean (dia.allowedPaths Z) dia.utility dia.prob level v := by
  rw [tailMean, tailMean, massUpTo_taken h hfixed hZ hpoint,
    sum_taken_eq h hfixed hZ hpoint (fun s => dia.utility s ≤ v) dia.utility]

end Taken

/-! ## The objective -/

/-- At a solution the objective is the utility of the worst part, over the level. -/
theorem eval_tailExpr (point : VarKey → Rat) :
    (dia.tailExpr rules fixed k level scale).eval point =
      ((dia.memberPaths rules fixed).map fun s =>
        (tailValues k point).mass s / scale * dia.utility s).sum / level := by
  have hterm : ∀ s ∈ dia.memberPaths rules fixed,
      LinearExpr.eval point (.scaled (dia.utility s / (level * scale)) (.ofVar (tailRow k scale s).mass)) =
        (tailValues k point).mass s / scale * dia.utility s * level⁻¹ := by
    intro s _
    rw [LinearExpr.eval_scaled, LinearExpr.eval_ofVar]
    change dia.utility s / (level * scale) * (tailValues k point).mass s = _
    rw [div_eq_mul_inv, div_eq_mul_inv, mul_inv]
    ring
  rw [Diagram.tailExpr, LinearExpr.eval_sum, List.map_map, div_eq_mul_inv, ← List.sum_map_mul_right]
  congr 1
  exact List.map_congr_left hterm

/-- **Exactness.** At a solution that stands for a strategy the objective is its conditional value at
risk. -/
theorem conditionalValueAtRisk_eq_eval (h : dia.WellFormed) (hfixed : fixed.Within dia.S) (hpos : 0 < level)
    (hle : level ≤ 1) (hscale : 0 < scale) (hZ : Z.Admissible dia (dia.pathBlock rules fixed))
    (hpoint : Encodes (dia.D.map dia.decisionBlock) (dia.pathBlock rules fixed) point Z)
    (htail : TailSolution l (dia.memberPaths rules fixed) dia.utility (takenMass dia point) level scale
      (tailValues k point)) :
    ∃ dist, utilityDistribution dia Z = .ok dist ∧
      conditionalValueAtRisk dist level = .ok ((dia.tailExpr rules fixed k level scale).eval point) := by
  obtain ⟨dist, v, hdist, hvalue, hv, -⟩ := conditionalValueAtRisk_eq h hZ.fits hpos hle
  refine ⟨dist, hdist, ?_⟩
  rw [hvalue, eval_tailExpr,
    (htail.shares hscale).mean_eq (isQuantile_taken h hfixed hZ hpoint hv), tailMean_taken h hfixed hZ hpoint]

/-! ## Completion -/

theorem takenMass_bounds (h : dia.WellFormed) (hsol : dia.Solution rules fixed point) :
    ∀ s ∈ dia.memberPaths rules fixed, 0 ≤ takenMass dia point s ∧ takenMass dia point s ≤ 1 := by
  have hnonneg : ∀ s ∈ dia.memberPaths rules fixed, 0 ≤ takenMass dia point s := by
    intro s hs
    exact mul_nonneg (h.prob_nonneg s) (hsol.share s hs).1
  intro s hs
  refine ⟨hnonneg s hs, ?_⟩
  rw [← hsol.total]
  apply List.single_le_sum
  · exact List.forall_mem_map.2 hnonneg
  · exact List.mem_map_of_mem (f := takenMass dia point) hs

theorem Diagram.Solution.congr {p q : VarKey → Rat} (hchoice : ∀ d index, choiceAt q d index = choiceAt p d index)
    (hshare : ∀ s, shareAt q s = shareAt p s) (h : dia.Solution rules fixed p) : dia.Solution rules fixed q := by
  have hshares : shareAt q = shareAt p := funext hshare
  have hchoices : choiceAt q = choiceAt p := funext fun d => funext (hchoice d)
  refine ⟨⟨?_, ?_, ?_, ?_⟩, ?_⟩
  all_goals simp only [hshares, hchoices]
  · exact h.binary
  · exact h.share
  · exact h.one
  · exact h.through
  · exact h.total

/-- A point that stands for a strategy can be completed to a solution without touching the model. -/
theorem exists_completion (h : dia.WellFormed) (hfixed : fixed.Within dia.S) (hpos : 0 < level) (hle : level ≤ 1)
    (hscale : 0 < scale) (hcover : l.Cover ((dia.memberPaths rules fixed).map dia.utility))
    (hZ : Z.Admissible dia (dia.pathBlock rules fixed))
    (hpoint : Encodes (dia.D.map dia.decisionBlock) (dia.pathBlock rules fixed) point Z) (k : Nat) :
    ∃ q, (∀ d index, choiceAt q d index = choiceAt point d index) ∧ (∀ s, shareAt q s = shareAt point s) ∧
      TailSolution l (dia.memberPaths rules fixed) dia.utility (takenMass dia q) level scale
        (tailValues k q) := by
  obtain ⟨dist, v, -, -, hv, s, hs, hprob, hutility⟩ := conditionalValueAtRisk_eq h hZ.fits hpos hle
  -- the quantile is the utility of a path that has a variable
  have hmember : s ∈ dia.memberPaths rules fixed := by
    rw [← Diagram.paths_pathBlock]
    exact hZ.members s hs hprob
  have hmem : v ∈ (dia.memberPaths rules fixed).map dia.utility := List.mem_map.2 ⟨s, hmember, hutility⟩
  have hsol := Diagram.solution_of_encodes h hfixed hZ hpoint
  obtain ⟨t, ht⟩ := exists_tailSolution hcover hscale (takenMass_bounds h hsol)
    (isQuantile_taken h hfixed hZ hpoint hv) hmem
  let q := writeTail k (dia.memberPaths rules fixed) t point
  have htaken : takenMass dia q = takenMass dia point := by
    funext r
    rw [takenMass, takenMass, shareAt_writeTail]
  refine ⟨q, choiceAt_writeTail, shareAt_writeTail, ?_⟩
  rw [htaken]
  exact ht.writeTail k point

/-- Points that agree on decisions and paths give the variables of the model the same values. -/
theorem values_eq (dia : Diagram Rat) (rules : List ForbiddenRule) (fixed : FixedStates) {p q : VarKey → Rat}
    (hchoice : ∀ d index, choiceAt q d index = choiceAt p d index)
    (hshare : ∀ s, shareAt q s = shareAt p s) :
    (∀ v ∈ dia.D.map dia.decisionBlock, ∀ i ∈ v.z, q i.2.key = p i.2.key) ∧
      ∀ m ∈ (dia.pathBlock rules fixed).members, q m.var.key = p m.var.key := by
  constructor
  · intro v hv i hi
    obtain ⟨d, -, rfl⟩ := List.mem_map.1 hv
    obtain ⟨index, -, rfl⟩ := List.mem_map.1 hi
    exact hchoice d index
  · intro m hm
    obtain ⟨s, -, rfl⟩ := List.mem_map.1 hm
    exact hshare s

/-- Every strategy whose paths have variables has a point that also solves the tail objective. -/
theorem exists_encodes_tail (h : dia.WellFormed) (hfixed : fixed.Within dia.S) (hpos : 0 < level) (hle : level ≤ 1)
    (hscale : 0 < scale) (hcover : l.Cover ((dia.memberPaths rules fixed).map dia.utility))
    (hZ : Z.Admissible dia (dia.pathBlock rules fixed)) (k : Nat) :
    ∃ q, dia.Solution rules fixed q ∧
      TailSolution l (dia.memberPaths rules fixed) dia.utility (takenMass dia q) level scale (tailValues k q) ∧
      Encodes (dia.D.map dia.decisionBlock) (dia.pathBlock rules fixed) q Z := by
  obtain ⟨point, hpoint⟩ := Diagram.exists_encodes rules fixed h hZ.fits hZ.nodes_eq
  obtain ⟨q, hchoice, hshare, htail⟩ := exists_completion h hfixed hpos hle hscale hcover hZ hpoint k
  obtain ⟨hz, hx⟩ := values_eq dia rules fixed hchoice hshare
  exact ⟨q, (Diagram.solution_of_encodes h hfixed hZ hpoint).congr hchoice hshare, htail, hpoint.congr hz hx⟩

/-- The feasible points of the model with the tail objective are the solutions of the model that also solve
the linear program of the worst part. -/
theorem feasible_iff_tailSolution {scale' : Rat} (hscale' : 0 < scale') (hscale : 0 < scale)
    (hne : dia.memberPaths rules fixed ≠ []) {p q : Problem Rat}
    (hp : p.constraints = dia.modelConstraints rules fixed scale')
    (hq : q.constraints.map Prod.snd =
      p.constraints.map Prod.snd ++ dia.tailConstraints rules fixed l k level scale) (point : VarKey → Rat) :
    q.Feasible point ↔ dia.Solution rules fixed point ∧
      TailSolution l (dia.memberPaths rules fixed) dia.utility (takenMass dia point) level scale
        (tailValues k point) := by
  have happend : q.constraints.map Prod.snd = p.constraints.map Prod.snd ++
      (Problem.ofConstraints (dia.tailConstraints rules fixed l k level scale)).constraints.map Prod.snd := by
    rw [hq, Problem.constraints_ofConstraints]
  rw [Problem.feasible_append happend, Diagram.feasible_iff_solution hscale' hp,
    Diagram.tail_feasible_iff hscale hne]
  constructor
  · rintro ⟨hsol, -, htail⟩
    exact ⟨hsol, htail⟩
  · rintro ⟨hsol, htail⟩
    exact ⟨hsol, hsol.share, htail⟩

/-! ## The main statement -/

/-- **The tail objective.** A tail objective at a level above zero and at most one can be added to the model
of a well-formed diagram that has path variables. At every feasible point it is the conditional value at
risk of the strategy that the point stands for, every point that is feasible without it has the values of a
feasible point, and its maximum is the greatest conditional value at risk of a strategy whose paths have
variables. -/
theorem tailValue_exact (h : dia.WellFormed) (hrules : RulesWithin rules dia.S) (hfixed : fixed.Within dia.S)
    {options : ModelOptions Rat} (heager : options.lazyCuts = false) (hoptions : 0 < options.scale)
    (hpos : 0 < level) (hle : level ≤ 1) (hscale : 0 < scale) :
    ∃ z x w, (assemble dia options rules fixed).runOn (.empty options.name) = (.ok (z, x), w) ∧
      (x.members ≠ [] → ∃ e v, (tailValue dia x level scale).runOn w = (.ok e, v) ∧
        (∀ point, v.model.problem.Feasible point → ∃ Z : Strategy, Z.Admissible dia x ∧ Encodes z x point Z) ∧
        (∀ point, v.model.problem.Feasible point → ∀ Z : Strategy, Z.Admissible dia x → Encodes z x point Z →
          ∃ dist, utilityDistribution dia Z = .ok dist ∧
            conditionalValueAtRisk dist level = .ok (e.eval point)) ∧
        (∀ point, w.model.problem.Feasible point → ∃ completed, v.model.problem.Feasible completed ∧
          (∀ d ∈ z, ∀ i ∈ d.z, completed i.2.key = point i.2.key) ∧
          ∀ m ∈ x.members, completed m.var.key = point m.var.key) ∧
        ∀ best, IsGreatest {c | ∃ point, v.model.problem.Feasible point ∧ e.eval point = c} best ↔
          IsGreatest {c | ∃ Z : Strategy, Z.Admissible dia x ∧ ∃ dist, utilityDistribution dia Z = .ok dist ∧
            conditionalValueAtRisk dist level = .ok c} best) := by
  obtain ⟨w, hrun, hconstraints⟩ := Diagram.assemble_spec h hrules hfixed heager hoptions
  refine ⟨_, _, w, hrun, ?_⟩
  intro hmembers
  have hne : dia.memberPaths rules fixed ≠ [] := by simpa [Diagram.pathBlock] using hmembers
  obtain ⟨l, k, v, htail, hcover, hadded⟩ :=
    Diagram.tailValue_spec h hfixed hpos hle hscale hne hconstraints
  have hfeasible := feasible_iff_tailSolution hoptions hscale hne hconstraints hadded
  have hexact : ∀ point, v.model.problem.Feasible point → ∀ Z : Strategy,
      Z.Admissible dia (dia.pathBlock rules fixed) →
      Encodes (dia.D.map dia.decisionBlock) (dia.pathBlock rules fixed) point Z →
        ∃ dist, utilityDistribution dia Z = .ok dist ∧
          conditionalValueAtRisk dist level = .ok ((dia.tailExpr rules fixed k level scale).eval point) := by
    intro point hp Z hZ hpoint
    exact conditionalValueAtRisk_eq_eval h hfixed hpos hle hscale hZ hpoint ((hfeasible point).1 hp).2
  have hstrategy : ∀ point, v.model.problem.Feasible point → ∃ Z : Strategy,
      Z.Admissible dia (dia.pathBlock rules fixed) ∧
        Encodes (dia.D.map dia.decisionBlock) (dia.pathBlock rules fixed) point Z := by
    intro point hp
    exact (Diagram.solution_iff_exists_encodes h hfixed).1 ((hfeasible point).1 hp).1
  refine ⟨_, v, htail, hstrategy, hexact, ?_, ?_⟩
  · intro point hp
    have hsol := (Diagram.feasible_iff_solution hoptions hconstraints point).1 hp
    obtain ⟨hZ, hpoint⟩ := hsol.exists_encodes h hfixed
    obtain ⟨q, hchoice, hshare, hsolution⟩ := exists_completion h hfixed hpos hle hscale hcover hZ hpoint k
    exact ⟨q, (hfeasible q).2 ⟨hsol.congr hchoice hshare, hsolution⟩, values_eq dia rules fixed hchoice hshare⟩
  · intro best
    -- the values at feasible points are the values of strategies
    suffices hsets : {c | ∃ point, v.model.problem.Feasible point ∧
        (dia.tailExpr rules fixed k level scale).eval point = c} =
        {c | ∃ Z : Strategy, Z.Admissible dia (dia.pathBlock rules fixed) ∧ ∃ dist,
          utilityDistribution dia Z = .ok dist ∧ conditionalValueAtRisk dist level = .ok c} by rw [hsets]
    apply Set.Subset.antisymm
    · rintro c ⟨point, hp, rfl⟩
      obtain ⟨Z, hZ, hpoint⟩ := hstrategy point hp
      exact ⟨Z, hZ, hexact point hp Z hZ hpoint⟩
    · rintro c ⟨Z, hZ, dist, hdist, hc⟩
      -- a point for the strategy, with the value at risk as the quantile
      obtain ⟨q, hsol, hsolution, hencodes⟩ := exists_encodes_tail h hfixed hpos hle hscale hcover hZ k
      have hq := (hfeasible q).2 ⟨hsol, hsolution⟩
      obtain ⟨dist', hdist', hc'⟩ := hexact q hq Z hZ hencodes
      obtain rfl : dist' = dist := Except.ok.inj (hdist'.symm.trans hdist)
      exact ⟨q, hq, Except.ok.inj (hc'.symm.trans hc)⟩

theorem tailValue_exact_umbrella :
    ∃ z x w e v point dist, (assemble umbrella .default [] .empty).runOn (.empty ModelOptions.defaultName) =
        (.ok (z, x), w) ∧
      (tailValue umbrella x (1 / 4) 10).runOn w = (.ok e, v) ∧ v.model.problem.Feasible point ∧
      Encodes z x point umbrellaStrategy ∧ utilityDistribution umbrella umbrellaStrategy = .ok dist ∧
      conditionalValueAtRisk dist (1 / 4) = .ok (e.eval point) := by
  have hrules : RulesWithin [] umbrella.S := fun rule hrule => absurd hrule List.not_mem_nil
  have hfixed := FixedStates.within_empty umbrella.S
  have heager : (ModelOptions.default : ModelOptions Rat).lazyCuts = false := rfl
  have hoptions : 0 < (ModelOptions.default : ModelOptions Rat).scale := by decide
  have hpos : (0 : Rat) < 1 / 4 := by decide +kernel
  have hle : (1 / 4 : Rat) ≤ 1 := by decide +kernel
  have hscale : (0 : Rat) < 10 := by decide +kernel
  obtain ⟨z, x, w, hrun, htail⟩ :=
    tailValue_exact umbrella_wellFormed hrules hfixed heager hoptions hpos hle hscale
  obtain ⟨w', hrun', hconstraints⟩ := Diagram.assemble_spec umbrella_wellFormed hrules hfixed heager hoptions
  rw [hrun] at hrun'
  cases hrun'
  have hdry : [0, 0, 0, 0] ∈ umbrella.memberPaths [] .empty := by decide +kernel
  obtain ⟨e, v, hadded, -, hexact, hcomplete, -⟩ :=
    htail (by simpa [Diagram.pathBlock] using List.ne_nil_of_mem hdry)
  have hadmissible : umbrellaStrategy.Admissible umbrella (umbrella.pathBlock [] .empty) :=
    Diagram.admissible_unrestricted umbrellaStrategy_fits rfl
  obtain ⟨point, hpoint⟩ := Diagram.exists_encodes [] .empty umbrella_wellFormed
    umbrellaStrategy_fits rfl
  have hfeasible : w.model.problem.Feasible point :=
    (Diagram.feasible_iff_solution (by decide) hconstraints point).2
      (Diagram.solution_of_encodes umbrella_wellFormed hfixed hadmissible hpoint)
  obtain ⟨completed, hcompleted, hz, hx⟩ := hcomplete point hfeasible
  have hencodes := hpoint.congr hz hx
  obtain ⟨dist, hdist, hvalue⟩ := hexact completed hcompleted _ hadmissible hencodes
  exact ⟨_, _, w, e, v, completed, dist, hrun, hadded, hcompleted, hencodes, hdist, hvalue⟩

end InfluenceDiagrams
