import InfluenceDiagrams.Proofs.Model.LazyCut
import InfluenceDiagrams.Proofs.Model.Naming
import InfluenceDiagrams.Proofs.Model.TailObjective

/-!
# `InfluenceDiagrams.Proofs.Model.Scaling` — what the factor on probabilities does

Probabilities can be multiplied with a factor before they become coefficients of a model. The factor stands on both
sides of the constraint on the probabilities, so that the constraint says the same with every factor, in an eager
model and from a callback. It is a factor of the expected utility. In a tail objective it is a bound on the masses,
and a factor of the taken mass and of the level. There the masses are multiplied with it, all other values
stay, and the expression divides by it again.

## Contents
- **`LazyCallback.answers`, `map_evaluateProbabilityCut`** — what a callback says about candidates.
- **`assembled_feasible_iff`, `answers_callbacks`** — models with different factors.
- **`TailRowSolution.rescale`, `TailSolution.rescale`** — solutions with multiplied masses; `TailValues.Rescaled`,
  `TailRow.Rescaled`.
- **`Rescaled`, `tail_feasible_rescaled_iff`, `eval_tailExpr_rescaled`** — points with multiplied masses, their
  feasibility and their worth.
- **`Workspace.HasRoom`** — a tail objective can be added.
- **`scaling_feasible_iff`** — the main statement.
-/

namespace InfluenceDiagrams

/-! ## The constraint on the probabilities -/

/-- What a callback says about candidates: there is a fault, or nothing, or the points that satisfy the constraint
that it submits. -/
def LazyCallback.answers (cb : LazyCallback Rat) (c : Candidate Rat) :
    Except (Fault Rat) (Option (Set (VarKey → Rat))) :=
  (cb.evaluate c).map (Option.map fun cut => {point | cut.constraint.Holds point})

namespace Diagram

section Models

variable (dia : Diagram Rat) (rules : List ForbiddenRule) (fixed : FixedStates)

/-- The constraint on the probabilities has the same solutions with every factor. -/
theorem solutions_probabilityConstraint {scale scale' : Rat} (hscale : 0 < scale) (hscale' : 0 < scale') :
    {point | (dia.probabilityConstraint rules fixed scale).Holds point} =
      {point | (dia.probabilityConstraint rules fixed scale').Holds point} :=
  Set.ext fun _ => (holds_probabilityConstraint hscale).trans (holds_probabilityConstraint hscale').symm

/-- Neither the probability of the paths taken nor whether it is close to one depends on the factor. -/
theorem map_evaluateProbabilityCut (scale tolerance : Rat) (c : Candidate Rat) :
    (evaluateProbabilityCut (dia.pathBlock rules fixed) scale tolerance c).map
        (Option.map fun cut => {point | cut.constraint.Holds point}) =
      (candidateMass (dia.pathBlock rules fixed) c).bind fun total => (isClose total 1 tolerance).map fun close =>
        if close then none else some {point | (dia.probabilityConstraint rules fixed scale).Holds point} := by
  rw [evaluateProbabilityCut, probabilityCut_eq]
  cases candidateMass (dia.pathBlock rules fixed) c with
  | error f => rfl
  | ok total =>
      show Except.map _ (isClose total 1 tolerance >>= _) = (isClose total 1 tolerance).map _
      cases isClose total 1 tolerance with
      | error f => rfl
      | ok close => cases close <;> rfl

variable {options options' : ModelOptions Rat} (hmode : options.lazyCuts = options'.lazyCuts)
  (hscale : 0 < options.scale) (hscale' : 0 < options'.scale)

include hmode hscale hscale'

/-- Models of the same kind have the same feasible points. -/
theorem assembled_feasible_iff (point : VarKey → Rat) :
    (dia.assembled rules fixed options).model.problem.Feasible point ↔
      (dia.assembled rules fixed options').model.problem.Feasible point := by
  cases hlazy : options.lazyCuts with
  | true =>
      -- without the constraint on the probabilities the factor does not occur
      rw [Problem.Feasible, Problem.Feasible, constraints_lazy hlazy, constraints_lazy (hmode ▸ hlazy)]
  | false =>
      rw [feasible_iff_solution hscale (constraints_eager hlazy),
        feasible_iff_solution hscale' (constraints_eager (hmode ▸ hlazy))]

/-- Callbacks with the same tolerance object to the same candidates, and what they submit has the same solutions. -/
theorem answers_callbacks (htolerance : options.tolerance = options'.tolerance) :
    (dia.assembled rules fixed options).model.callbacks.map LazyCallback.answers =
      (dia.assembled rules fixed options').model.callbacks.map LazyCallback.answers := by
  have hanswers : ∀ o : ModelOptions Rat, (dia.probabilityCallback rules fixed o).answers = fun c =>
      (candidateMass (dia.pathBlock rules fixed) c).bind fun total => (isClose total 1 o.tolerance).map fun close =>
        if close then none else some {point | (dia.probabilityConstraint rules fixed o.scale).Holds point} :=
    fun o => funext (dia.map_evaluateProbabilityCut rules fixed o.scale o.tolerance)
  cases hlazy : options.lazyCuts with
  | false => rw [callbacks_eager hlazy, callbacks_eager (hmode ▸ hlazy)]
  | true =>
      rw [callbacks_lazy hlazy, callbacks_lazy (hmode ▸ hlazy), List.map_singleton, List.map_singleton, hanswers,
        hanswers, htolerance, solutions_probabilityConstraint dia rules fixed hscale hscale']

end Models
end Diagram

/-! ## The expected utility -/

/-- The factor is one of the expected utility. -/
theorem Diagram.Accepted.expectedValue_scaled {dia : Diagram Rat} {rules : List ForbiddenRule} {fixed : FixedStates}
    (h : dia.Accepted) (hutility : dia.U.Fits dia.S dia.V) (hfixed : fixed.Within dia.S) {k : Rat} (hk : 0 < k) :
    ∃ e₁ e, expectedValue dia (dia.pathBlock rules fixed) 1 = .ok e₁ ∧
      expectedValue dia (dia.pathBlock rules fixed) k = .ok e ∧ ∀ point, e.eval point = k * e₁.eval point := by
  refine ⟨_, _, h.expectedValue_eq hutility hfixed one_pos, h.expectedValue_eq hutility hfixed hk, fun point => ?_⟩
  rw [LinearExpr.eval_sum, LinearExpr.eval_sum, List.map_map, List.map_map, ← List.sum_map_mul_left]
  congr 1
  refine List.map_congr_left fun s _ => ?_
  show LinearExpr.eval point (.scaled (dia.prob s * dia.utility s * k) _) =
    k * LinearExpr.eval point (.scaled (dia.prob s * dia.utility s * 1) _)
  rw [LinearExpr.eval_scaled, LinearExpr.eval_scaled]
  ring

/-! ## Masses -/

/-- With the masses a solution for one path is multiplied. -/
theorem TailRowSolution.rescale {l : TailLevels Rat}
    {k scale quantile u taken below atMost strictMass mass : Rat} (hk : 0 < k)
    (h : TailRowSolution l scale quantile u taken below atMost strictMass mass) :
    TailRowSolution l (k * scale) quantile u taken below atMost (k * strictMass) (k * mass) := by
  have hmul : ∀ {a b : Rat}, a ≤ b → k * a ≤ k * b := fun hab => mul_le_mul_of_nonneg_left hab (le_of_lt hk)
  constructor
  · exact h.below_binary
  · exact h.atMost_binary
  · exact mul_nonneg (le_of_lt hk) h.strictMass_nonneg
  · exact hmul h.strictMass_le_scale
  · exact mul_nonneg (le_of_lt hk) h.mass_nonneg
  · exact hmul h.mass_le_scale
  · exact h.distance_le_below
  · exact h.below_le_distance
  · exact h.distance_le_atMost
  · exact h.atMost_le_distance
  · rw [mul_assoc]
    exact hmul h.strictMass_le_below
  · rw [mul_assoc]
    exact hmul h.mass_le_atMost
  · exact hmul h.strictMass_le_mass
  · rw [mul_assoc]
    exact hmul h.mass_le_taken
  · rw [mul_assoc, mul_assoc, ← mul_sub]
    exact hmul h.taken_le_strictMass

/-- Two values of a tail objective agree for some paths but for the masses, which are multiplied. -/
structure TailValues.Rescaled (k : Rat) (ss : List Path) (t t' : TailValues) : Prop where
  quantile : t'.quantile = t.quantile
  below : ∀ s ∈ ss, t'.below s = t.below s
  atMost : ∀ s ∈ ss, t'.atMost s = t.atMost s
  strictMass : ∀ s ∈ ss, t'.strictMass s = k * t.strictMass s
  mass : ∀ s ∈ ss, t'.mass s = k * t.mass s

theorem TailValues.Rescaled.symm {k : Rat} (hk : k ≠ 0) {ss : List Path} {t t' : TailValues}
    (h : TailValues.Rescaled k ss t t') : TailValues.Rescaled k⁻¹ ss t' t where
  quantile := h.quantile.symm
  below s hs := (h.below s hs).symm
  atMost s hs := (h.atMost s hs).symm
  strictMass s hs := by rw [h.strictMass s hs, inv_mul_cancel_left₀ hk]
  mass s hs := by rw [h.mass s hs, inv_mul_cancel_left₀ hk]

section Solutions

variable {l : TailLevels Rat} {ss : List Path} {u taken taken' : Path → Rat} {k level scale : Rat} {t t' : TailValues}

/-- With the masses a solution is multiplied. -/
theorem TailSolution.rescale (hk : 0 < k) (ht : TailValues.Rescaled k ss t t') (htaken : ∀ s ∈ ss, taken' s = taken s)
    (h : TailSolution l ss u taken level scale t) : TailSolution l ss u taken' level (k * scale) t' := by
  refine ⟨?_, ?_, ?_, ?_⟩
  · rw [ht.quantile]
    exact h.least_le
  · rw [ht.quantile]
    exact h.le_greatest
  · intro s hs
    rw [ht.quantile, ht.below s hs, ht.atMost s hs, ht.strictMass s hs, ht.mass s hs, htaken s hs]
    exact (h.rows s hs).rescale hk
  · have hmasses : ss.map t'.mass = ss.map fun s => k * t.mass s :=
      List.map_congr_left ht.mass
    rw [hmasses, List.sum_map_mul_left, h.total, mul_left_comm]

/-- The solutions with one factor are those with another one. -/
theorem tailSolution_rescaled_iff (hk : 0 < k) (ht : TailValues.Rescaled k ss t t')
    (htaken : ∀ s ∈ ss, taken' s = taken s) :
    TailSolution l ss u taken level scale t ↔ TailSolution l ss u taken' level (k * scale) t' := by
  have hne : k ≠ 0 := ne_of_gt hk
  constructor
  · exact TailSolution.rescale hk ht htaken
  · intro h
    have hback := h.rescale (inv_pos.2 hk) (ht.symm hne) fun s hs => (htaken s hs).symm
    rwa [inv_mul_cancel_left₀ hne] at hback

end Solutions

/-! ## Tail objectives -/

/-- Two rows of one path. The second point has the values for the second row that the first point has for the first one,
but for the masses, which are multiplied. -/
structure TailRow.Rescaled (k : Rat) (p q : VarKey → Rat) (r s : TailRow Rat) : Prop where
  path : s.path = r.path
  below : q s.below.key = p r.below.key
  atMost : q s.atMost.key = p r.atMost.key
  strictMass : q s.strictMass.key = k * p r.strictMass.key
  mass : q s.mass.key = k * p r.mass.key

/-- The second point has the values of the first one for decisions and paths, and for one record of a tail objective
those that the first one has for another record, but for the masses, which are multiplied. -/
structure Rescaled (k : Rat) (z : List (DecisionVariables Rat)) (x : PathVariables Rat)
    (first second : TailVariables Rat) (p q : VarKey → Rat) : Prop where
  choices : ∀ d ∈ z, ∀ i ∈ d.z, q i.2.key = p i.2.key
  shares : ∀ m ∈ x.members, q m.var.key = p m.var.key
  quantile : q second.quantile.key = p first.quantile.key
  rows : List.Forall₂ (TailRow.Rescaled k p q) first.rows second.rows

namespace Diagram

variable {dia : Diagram Rat} {rules : List ForbiddenRule} {fixed : FixedStates} {l : TailLevels Rat} {i j : Nat}
  {k level scale scale' : Rat} {p q : VarKey → Rat}

theorem tailValues_rescaled
    (h : Rescaled k (dia.D.map dia.decisionBlock) (dia.pathBlock rules fixed)
      (dia.tailRecord rules fixed l i level scale) (dia.tailRecord rules fixed l j level scale') p q) :
    TailValues.Rescaled k (dia.memberPaths rules fixed) (tailValues i p) (tailValues j q) := by
  have hrows : ∀ s ∈ dia.memberPaths rules fixed, TailRow.Rescaled k p q (tailRow i scale s) (tailRow j scale' s) := by
    have := h.rows
    rwa [tailRecord, tailRecord, List.forall₂_map_left_iff, List.forall₂_map_right_iff, List.forall₂_same] at this
  exact ⟨h.quantile, fun s hs => (hrows s hs).below, fun s hs => (hrows s hs).atMost,
    fun s hs => (hrows s hs).strictMass, fun s hs => (hrows s hs).mass⟩

/-- Every point has one with multiplied masses. -/
theorem exists_rescaled (p : VarKey → Rat) :
    ∃ q, Rescaled k (dia.D.map dia.decisionBlock) (dia.pathBlock rules fixed)
      (dia.tailRecord rules fixed l i level scale) (dia.tailRecord rules fixed l j level scale') p q := by
  let t := tailValues i p
  let q := writeTail j (dia.memberPaths rules fixed)
    ⟨t.quantile, t.below, t.atMost, fun s => k * t.strictMass s, fun s => k * t.mass s⟩ p
  obtain ⟨hchoices, hshares⟩ := values_eq dia rules fixed (p := p) (q := q) choiceAt_writeTail shareAt_writeTail
  refine ⟨q, hchoices, hshares, quantile_writeTail, ?_⟩
  rw [tailRecord, tailRecord, List.forall₂_map_left_iff, List.forall₂_map_right_iff, List.forall₂_same]
  intro s hs
  obtain ⟨hbelow, hatMost, hstrict, hmass⟩ := tailValues_writeTail j _ p hs
  exact ⟨rfl, hbelow, hatMost, hstrict, hmass⟩

variable (hk : 0 < k) (ht : TailValues.Rescaled k (dia.memberPaths rules fixed) (tailValues i p) (tailValues j q))

include hk ht

/-- The feasible points of a tail objective with one factor are those with another one, with multiplied masses. -/
theorem tail_feasible_rescaled_iff (hscale : 0 < scale) (hne : dia.memberPaths rules fixed ≠ [])
    (hshare : ∀ s ∈ dia.memberPaths rules fixed, shareAt q s = shareAt p s) :
    (Problem.ofConstraints (dia.tailConstraints rules fixed l i level scale)).Feasible p ↔
      (Problem.ofConstraints (dia.tailConstraints rules fixed l j level (k * scale))).Feasible q := by
  rw [tail_feasible_iff hscale hne, tail_feasible_iff (mul_pos hk hscale) hne]
  refine and_congr (forall₂_congr fun s hs => by rw [hshare s hs]) ?_
  exact tailSolution_rescaled_iff hk ht fun s hs => by rw [hshare s hs]

/-- The expression of a tail objective does not depend on the factor. -/
theorem eval_tailExpr_rescaled :
    (dia.tailExpr rules fixed j level (k * scale)).eval q = (dia.tailExpr rules fixed i level scale).eval p := by
  rw [eval_tailExpr, eval_tailExpr]
  congr 2
  refine List.map_congr_left fun s hs => ?_
  rw [ht.mass s hs, mul_div_mul_left _ _ (ne_of_gt hk)]

end Diagram

/-! ## The main statement -/

/-- The name that the next tail objective has for its constraint on the mass is not taken. -/
def Workspace.HasRoom (w : Workspace Rat) : Prop :=
  massName w.model.nextIndex ∉ w.model.problem.constraints.map Prod.fst

/-- A tail objective can be added to a model that was built at any time. -/
theorem hasRoom_of_revisions {dia : Diagram Rat} (h : dia.Tabulated) (options : ModelOptions Rat)
    {rules : List ForbiddenRule} {fixed : FixedStates} {z : List (DecisionVariables Rat)} {x : PathVariables Rat}
    {w v : Workspace Rat} (hbuilt : (assemble dia options rules fixed).runOn (.empty options.name) = (.ok (z, x), w))
    (hsteps : Relation.ReflTransGen (Revision z x) w v) : v.HasRoom := by
  obtain ⟨P, hP, -⟩ := h.probability
  have hmodel := (assemble_ends h.accepted hP options rules fixed).of_ok rfl hbuilt
  have hz := fun u hu => hmodel.labelled u (List.mem_append_left _ hu)
  have hx := fun u hu => hmodel.labelled u (List.mem_append_right _ hu)
  have hnamed := named_of_revisions hz hx hsteps (hmodel.named h.accepted)
  exact fun hmem => lt_irrefl _ (hnamed.problem.numbers _ hmem)

/-- **Scaling.** Take an accepted diagram with tables that match and a state for every node; what the tables say and
what the nodes observe does not matter. Models that are built with a factor and without one have the same feasible
points, callbacks that object to the same candidates, and constraints with the same solutions to submit. The
expected utility is multiplied with the factor at every point. At any time tail objectives can be added to both models,
and to every model in which the name of the constraint on the mass is not taken. A point is feasible for what
a tail objective without a factor adds exactly if the point with the masses multiplied is feasible for what one with
the factor adds, and there the expressions have the same value. -/
theorem scaling_feasible_iff {dia : Diagram Rat} (h : dia.Tabulated) (hpos : ∀ n ∈ dia.S, 1 ≤ n)
    (hutility : dia.U.Fits dia.S dia.V) {rules : List ForbiddenRule} (hrules : RulesWithin rules dia.S)
    {fixed : FixedStates} (hfixed : fixed.Within dia.S) (options : ModelOptions Rat) {k : Rat} (hk : 0 < k) :
    ∃ z x w₁ w,
      (assemble dia { options with scale := 1 } rules fixed).runOn (.empty options.name) = (.ok (z, x), w₁) ∧
      (assemble dia { options with scale := k } rules fixed).runOn (.empty options.name) = (.ok (z, x), w) ∧
      (∀ point, w₁.model.problem.Feasible point ↔ w.model.problem.Feasible point) ∧
      w₁.model.callbacks.map LazyCallback.answers = w.model.callbacks.map LazyCallback.answers ∧
      (∃ e₁ e, expectedValue dia x 1 = .ok e₁ ∧ expectedValue dia x k = .ok e ∧
        ∀ point, e.eval point = k * e₁.eval point) ∧
      (∀ u, Relation.ReflTransGen (Revision z x) w₁ u ∨ Relation.ReflTransGen (Revision z x) w u → u.HasRoom) ∧
      (x.members ≠ [] → ∀ level, 0 < level → level ≤ 1 → ∀ u₁ u : Workspace Rat, u₁.HasRoom → u.HasRoom →
        ∃ e₁ v₁ added₁ tail₁ e v added tail,
          (tailValue dia x level 1).runOn u₁ = (.ok e₁, v₁) ∧ u₁.Gains v₁ added₁ tail₁ ∧
          (tailValue dia x level k).runOn u = (.ok e, v) ∧ u.Gains v added tail ∧
          tail₁.rows.map TailRow.path = x.paths ∧
          (∀ p, ∃ q, Rescaled k z x tail₁ tail p q) ∧
          ∀ p q, Rescaled k z x tail₁ tail p q →
            ((Problem.ofConstraints (added₁.map Prod.snd)).Feasible p ↔
              (Problem.ofConstraints (added.map Prod.snd)).Feasible q) ∧
            e.eval q = e₁.eval p) := by
  have hbuilt : ∀ {scale : Rat}, 0 < scale →
      (assemble dia { options with scale := scale } rules fixed).runOn (.empty options.name) =
        (.ok (dia.D.map dia.decisionBlock, dia.pathBlock rules fixed),
          dia.assembled rules fixed { options with scale := scale }) :=
    fun hscale => Diagram.assemble_eq h hpos hrules hfixed hscale
  refine ⟨_, _, _, _, hbuilt one_pos, hbuilt hk, dia.assembled_feasible_iff rules fixed rfl one_pos hk,
    dia.answers_callbacks rules fixed rfl one_pos hk rfl, h.accepted.expectedValue_scaled hutility hfixed hk, ?_, ?_⟩
  · rintro u (hsteps | hsteps)
    · exact hasRoom_of_revisions h { options with scale := 1 } (hbuilt one_pos) hsteps
    · exact hasRoom_of_revisions h { options with scale := k } (hbuilt hk) hsteps
  · intro hmembers level hlevel hle u₁ u hroom₁ hroom
    have hne : dia.memberPaths rules fixed ≠ [] := by simpa [Diagram.pathBlock] using hmembers
    have hutilities : (dia.memberPaths rules fixed).map dia.utility ≠ [] := by simpa using hne
    -- both objectives have the same levels
    obtain ⟨l, hl, -⟩ := TailLevels.ofUtilities?_spec hutilities
    obtain ⟨v₁, added₁, hrun₁, hgains₁, hadded₁⟩ :=
      Diagram.tailValue_runOn h.accepted hutility hfixed hlevel hle one_pos hne hl hroom₁
    obtain ⟨v, added, hrun, hgains, hadded⟩ :=
      Diagram.tailValue_runOn h.accepted hutility hfixed hlevel hle (mul_pos hk one_pos) hne hl hroom
    rw [show tailValue dia (dia.pathBlock rules fixed) level (k * 1) =
      tailValue dia (dia.pathBlock rules fixed) level k by rw [mul_one]] at hrun
    refine ⟨_, v₁, added₁, _, _, v, added, _, hrun₁, hgains₁, hrun, hgains, ?_, Diagram.exists_rescaled,
      fun p q hrescaled => ?_⟩
    · simp only [Diagram.tailRecord, PathVariables.paths, Diagram.pathBlock, List.map_map]
      rfl
    · have ht := Diagram.tailValues_rescaled hrescaled
      have hshares : ∀ s ∈ dia.memberPaths rules fixed, shareAt q s = shareAt p s :=
        fun s hs => hrescaled.shares _ (List.mem_map_of_mem hs)
      rw [hadded₁, hadded]
      exact ⟨Diagram.tail_feasible_rescaled_iff hk ht one_pos hne hshares, Diagram.eval_tailExpr_rescaled hk ht⟩

/-- With a factor of a thousand: the point of a strategy is feasible for the models of both kinds, and together with a
worst quarter for what both tail objectives add. -/
theorem scaling_feasible_iff_umbrella : ∃ z x w₁ w e₁ v₁ added₁ tail₁ e v added tail p q,
    (assemble umbrella .default [] .empty).runOn (.empty ModelOptions.defaultName) = (.ok (z, x), w₁) ∧
    (assemble umbrella { ModelOptions.default with scale := 1000 } [] .empty).runOn
      (.empty ModelOptions.defaultName) = (.ok (z, x), w) ∧
    w₁.model.problem.Feasible p ∧ w.model.problem.Feasible p ∧
    (tailValue umbrella x (1 / 4) 1).runOn w₁ = (.ok e₁, v₁) ∧ w₁.Gains v₁ added₁ tail₁ ∧
    (tailValue umbrella x (1 / 4) 1000).runOn w = (.ok e, v) ∧ w.Gains v added tail ∧
    Rescaled 1000 z x tail₁ tail p q ∧ (Problem.ofConstraints (added₁.map Prod.snd)).Feasible p ∧
    (Problem.ofConstraints (added.map Prod.snd)).Feasible q ∧ e.eval q = e₁.eval p := by
  have hwell := umbrella_wellFormed
  have hfixed := FixedStates.within_empty umbrella.S
  have hlevel : (0 : Rat) < 1 / 4 := by decide +kernel
  have hle : (1 / 4 : Rat) ≤ 1 := by decide +kernel
  obtain ⟨z, x, w₁, w, hbuilt₁, hbuilt, hmodels, -, -, hroom, htail⟩ :=
    scaling_feasible_iff hwell.tabulated hwell.counts_pos hwell.utility (rulesWithin_nil umbrella.S) hfixed .default
      (show (0 : Rat) < 1000 by decide +kernel)
  have hscale : 0 < (ModelOptions.default : ModelOptions Rat).scale := one_pos
  have hassembled := Diagram.assemble_eq hwell.tabulated hwell.counts_pos (rulesWithin_nil umbrella.S) hfixed hscale
  obtain ⟨⟨rfl, rfl⟩, rfl⟩ : (_ = z ∧ _ = x) ∧ _ = w₁ := by
    obtain ⟨hblocks, hw⟩ := Prod.mk.inj (hassembled.symm.trans hbuilt₁)
    exact ⟨Prod.mk.inj (Except.ok.inj hblocks), hw⟩
  have hne : umbrella.memberPaths [] .empty ≠ [] := by decide +kernel
  obtain ⟨e₁, v₁, added₁, tail₁, e, v, added, tail, hrun₁, hgains₁, hrun, hgains, -, hexists, hscaled⟩ :=
    htail (by simpa [Diagram.pathBlock] using hne) _ hlevel hle _ w (hroom _ (Or.inl .refl)) (hroom w (Or.inr .refl))
  -- a worst quarter of the probability of a strategy
  have hadmissible : umbrellaStrategy.Admissible umbrella (umbrella.pathBlock [] .empty) :=
    Diagram.admissible_unrestricted umbrellaStrategy_fits rfl
  obtain ⟨l, hl, hcover⟩ := TailLevels.ofUtilities?_spec
    (show (umbrella.memberPaths [] .empty).map umbrella.utility ≠ [] by simpa using hne)
  obtain ⟨p, hsol, hsolution, -⟩ := exists_encodes_tail hwell hfixed hlevel hle one_pos hcover hadmissible
    (umbrella.assembled [] .empty .default).model.nextIndex
  have hp₁ := (Diagram.feasible_iff_solution hscale (Diagram.constraints_eager rfl) p).2 hsol
  obtain ⟨v', added', hrun', hgains', hadded⟩ := Diagram.tailValue_runOn hwell.accepted hwell.utility hfixed hlevel hle
    one_pos hne hl (hroom _ (Or.inl .refl))
  obtain rfl : v' = v₁ := (Prod.mk.inj (hrun'.symm.trans hrun₁)).2
  obtain rfl : added' = added₁ := List.append_cancel_left (hgains'.constraints.symm.trans hgains₁.constraints)
  have hp : (Problem.ofConstraints (added'.map Prod.snd)).Feasible p := by
    rw [hadded]
    exact (Diagram.tail_feasible_iff one_pos hne).2 ⟨hsol.share, hsolution⟩
  obtain ⟨q, hq⟩ := hexists p
  exact ⟨_, _, _, w, e₁, v', added', tail₁, e, v, added, tail, p, q, hassembled, hbuilt, hp₁, (hmodels p).1 hp₁, hrun₁,
    hgains₁, hrun, hgains, hq, hp, (hscaled p q hq).1.1 hp, (hscaled p q hq).2⟩

end InfluenceDiagrams
