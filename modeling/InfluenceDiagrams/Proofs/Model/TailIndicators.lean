import InfluenceDiagrams.Proofs.Model.Labels
import InfluenceDiagrams.Proofs.Model.TailObjective

/-!
# `InfluenceDiagrams.Proofs.Model.TailIndicators` — what the indicators of a tail objective mean

A tail objective gives every path two indicators, and four inequalities tie them to the quantile. The span of the
utilities switches an inequality off, and half the least gap between two utilities tells a quantile at a utility from one
above it. Of any two different utilities one is below the other, so that no other pattern of indicators is left: the
first one says that the utility is below the quantile, the second one that it is at most the quantile.

Nothing is assumed of the diagram, of the path variables, nor of the model that is extended.

## Contents
- **`tailValue_adds`** — what a tail objective that could be added has added.
- **`TailLevels.indicatorInequalities`** — the four inequalities; **`TailLevels.Cover.exists_indicators`** — what solves
  them where the quantile is a utility.
- **`TailValues.Meaning`**, **`TailValues.Indicates`** — what the variables of a path mean, and indicators that mean it.
- **`tailValue_indicators`** — the main statement.
-/

namespace InfluenceDiagrams

/-! ## What has been added -/

/-- Utilities that could be looked up are those of the paths. -/
theorem eval_of_utilities {dia : Diagram Rat} {members : List (PathVariable Rat)} {us : List Rat}
    (h : utilities dia members = .ok us) :
    us = members.map (fun m => dia.utility m.path) ∧ ∀ m ∈ members, dia.U.eval m.path = .ok (dia.utility m.path) := by
  have hvalue : ∀ {s : Path} {u : Rat}, dia.U.eval s = .ok u → dia.utility s = u := by
    intro s u hu
    rw [Diagram.utility, hu]
    rfl
  have hall := forall₂_of_mapM_ok h
  have heq : List.Forall₂ (· = ·) (members.map fun m => dia.utility m.path) us :=
    List.forall₂_map_left_iff.2 (hall.imp fun _ _ hu => hvalue hu)
  rw [List.forall₂_eq_eq_eq] at heq
  refine ⟨heq.symm, fun m hm => ?_⟩
  obtain ⟨u, -, hu⟩ := exists_of_mem_left hall hm
  rw [hu, hvalue hu]

/-- If a tail objective could be added, its constraints have been added and its variables have been recorded, and all
paths have a utility. -/
theorem tailValue_adds (dia : Diagram Rat) (x : PathVariables Rat) (level scale : Rat) (w : Workspace Rat) :
    (tailValue dia x level scale).Ends (· = w)
      (fun _ v => (∀ m ∈ x.members, dia.U.eval m.path = .ok (dia.utility m.path)) ∧
        ∃ l added, TailLevels.ofUtilities? (x.members.map fun m => dia.utility m.path) = some l ∧
          w.Gains v added (x.tailRecord l w.model.nextIndex level scale) ∧
          added.map Prod.snd = x.tailConstraints l w.model.nextIndex level scale dia.utility)
      fun _ _ => True := by
  rw [tailValue_eq]
  refine Build.Ends.lift_bind_ok fun _ _ => Build.Ends.lift_bind_ok fun _ _ => Build.Ends.lift_bind_ok fun _ _ => ?_
  refine Build.Ends.lift_bind_ok fun us hus => Build.Ends.lift_bind_ok fun l hl => ?_
  obtain ⟨rfl, heval⟩ := eval_of_utilities hus
  have hlevels : TailLevels.ofUtilities? (x.members.map fun m => dia.utility m.path) = some l := by
    cases hsome : TailLevels.ofUtilities? (x.members.map fun m => dia.utility m.path) with
    | none =>
        rw [hsome] at hl
        cases hl
    | some l' =>
        rw [hsome] at hl
        rw [Except.ok.inj hl]
  rintro w rfl
  by_cases hname : "cvar_mass_" ++ toString w.model.nextIndex ∈ w.model.problem.constraints.map Prod.fst
  · obtain ⟨f, v, htail⟩ := addTail_taken x dia.utility level scale l hname
    rw [htail]
    trivial
  · obtain ⟨v, added, htail, hgains, hadded⟩ := addTail_runOn x dia.utility level scale l hname
    rw [htail]
    cases tailExpression (x.members.map fun m => tailRow w.model.nextIndex scale m.path)
      (x.members.map fun m => dia.utility m.path) (level * scale) with
    | error f => trivial
    | ok e => exact ⟨heval, l, added, hlevels, hgains, hadded⟩

/-! ## The indicators -/

/-- The four inequalities that tie the indicators of a path to the quantile. -/
def TailLevels.indicatorInequalities (l : TailLevels Rat) (quantile : Variable Rat) (row : TailRow Rat) (u : Rat) :
    List (Constraint Rat) :=
  let distance := (LinearExpr.ofVar quantile).lowered u
  let reach := l.span + l.halfGap
  [ .atMost distance (.scaled l.span (.ofVar row.below)),
    .atLeast distance ((LinearExpr.scaled reach (.ofVar row.below)).lowered l.span),
    .atMost distance ((LinearExpr.scaled reach (.ofVar row.atMost)).lowered l.halfGap),
    .atLeast distance (.scaled l.span ((LinearExpr.ofVar row.atMost).lowered 1)) ]

/-- They are the first constraints of the path. -/
theorem TailLevels.indicatorInequalities_prefix (l : TailLevels Rat) (quantile : Variable Rat) (row : TailRow Rat)
    (u p scale : Rat) (x : Variable Rat) :
    l.indicatorInequalities quantile row u <+: l.inequalities quantile row u p scale x := ⟨_, rfl⟩

/-- The inequalities as numbers. -/
theorem TailLevels.forall_indicatorInequalities_iff (l : TailLevels Rat) {quantile : Variable Rat} {row : TailRow Rat}
    {u : Rat} {point : VarKey → Rat} :
    (∀ c ∈ l.indicatorInequalities quantile row u, c.Holds point) ↔
      (point quantile.key - u ≤ l.span * point row.below.key ∧
        (l.span + l.halfGap) * point row.below.key - l.span ≤ point quantile.key - u ∧
        point quantile.key - u ≤ (l.span + l.halfGap) * point row.atMost.key - l.halfGap ∧
        l.span * (point row.atMost.key - 1) ≤ point quantile.key - u) := by
  simp only [indicatorInequalities, List.forall_mem_cons, Constraint.holds_atMost, Constraint.holds_atLeast,
    LinearExpr.eval_lowered, LinearExpr.eval_scaled, LinearExpr.eval_ofVar, List.not_mem_nil, false_implies,
    implies_true, and_true]

/-- Where the quantile is one of the utilities, a path of which nothing is taken has the solution whose indicators say
where its utility is. -/
theorem TailLevels.Cover.exists_indicators {l : TailLevels Rat} {us : List Rat} (hcover : l.Cover us) {u quantile : Rat}
    (hu : u ∈ us) (hquantile : quantile ∈ us) :
    ∃ strictMass mass, TailRowSolution l 1 quantile u 0 (if u < quantile then 1 else 0) (if u ≤ quantile then 1 else 0)
      strictMass mass := by
  have hlow := hcover.least_le u hu
  have hhigh := hcover.le_greatest u hu
  rcases lt_trichotomy u quantile with hlt | heq | hgt
  · rw [if_pos hlt, if_pos (le_of_lt hlt)]
    exact ⟨_, _, TailRowSolution.of_lt one_pos hcover.span_eq hlow (hcover.le_greatest _ hquantile) le_rfl zero_le_one
      (hcover.halfGap_le u hu quantile hquantile hlt) hlt⟩
  · rw [if_neg (not_lt_of_ge (ge_of_eq heq)), if_pos (le_of_eq heq)]
    exact ⟨_, 0, TailRowSolution.of_eq one_pos hcover.span_eq hlow hhigh zero_le_one heq le_rfl (by rw [mul_zero])⟩
  · rw [if_neg (not_lt_of_gt hgt), if_neg (not_le_of_gt hgt)]
    exact ⟨_, _, TailRowSolution.of_gt one_pos hcover.span_eq hhigh (hcover.least_le _ hquantile) le_rfl zero_le_one
      (hcover.halfGap_le quantile hquantile u hu hgt) hgt⟩

/-- What the variables of a path mean. The first indicator says that the utility is below the quantile, the second one that
it is at most the quantile. Of a path below the quantile all that is taken counts, both times, and of a path above it
nothing does. -/
structure TailValues.Meaning (t : TailValues) (s : Path) (u taken : Rat) : Prop where
  below : t.below s = 1 ↔ u < t.quantile
  atMost : t.atMost s = 1 ↔ u ≤ t.quantile
  inside : u < t.quantile → t.strictMass s = taken ∧ t.mass s = taken
  outside : t.quantile < u → t.mass s = 0

/-- If there is a gap, the solutions of the linear program mean what they should. -/
theorem TailRowSolution.meaning {l : TailLevels Rat} {t : TailValues} {s : Path} {scale u taken : Rat}
    (h : TailRowSolution l scale t.quantile u taken (t.below s) (t.atMost s) (t.strictMass s) (t.mass s))
    (hgap : 0 < l.halfGap) : t.Meaning s u (scale * taken) where
  below := h.below_eq_one_iff hgap
  atMost := h.atMost_eq_one_iff hgap
  inside := h.masses_eq_of_lt
  outside := h.mass_eq_of_gt

/-- The indicators of some paths say where their utilities are. -/
def TailValues.Indicates (t : TailValues) (u : Path → Rat) (ss : List Path) : Prop :=
  ∀ s ∈ ss, t.below s = (if u s < t.quantile then 1 else 0) ∧ t.atMost s = if u s ≤ t.quantile then 1 else 0

/-- If the quantile is one of the utilities, these indicators satisfy the inequalities. -/
theorem TailValues.Indicates.inequalities_hold {l : TailLevels Rat} {us : List Rat} (hcover : l.Cover us) {k : Nat}
    {scale : Rat} {point : VarKey → Rat} {u : Path → Rat} {ss : List Path} (h : (tailValues k point).Indicates u ss)
    (hquantile : (tailValues k point).quantile ∈ us) {s : Path} (hs : s ∈ ss) (hu : u s ∈ us) :
    ∀ c ∈ l.indicatorInequalities (l.quantileVariable k) (tailRow k scale s) (u s), c.Holds point := by
  obtain ⟨hbelow, hatMost⟩ := h s hs
  obtain ⟨strictMass, mass, hrow⟩ := hcover.exists_indicators hu hquantile
  rw [← hbelow, ← hatMost] at hrow
  exact l.forall_indicatorInequalities_iff.2
    ⟨hrow.distance_le_below, hrow.below_le_distance, hrow.distance_le_atMost, hrow.atMost_le_distance⟩

/-- Every quantile and the indicators that go with it are the values at some point. -/
theorem exists_indicates (k : Nat) (u : Path → Rat) (ss : List Path) (quantile : Rat) :
    ∃ point, (tailValues k point).quantile = quantile ∧ (tailValues k point).Indicates u ss := by
  let t : TailValues := ⟨quantile, fun s => if u s < quantile then 1 else 0, fun s => if u s ≤ quantile then 1 else 0,
    fun _ => 0, fun _ => 0⟩
  refine ⟨writeTail k ss t fun _ => 0, quantile_writeTail, fun s hs => ?_⟩
  obtain ⟨hbelow, hatMost, -⟩ := tailValues_writeTail k t (fun _ => 0) hs
  rw [hbelow, hatMost, quantile_writeTail]
  exact ⟨rfl, rfl⟩

/-! ## The main statement -/

section Main

variable {dia : Diagram Rat} {x : PathVariables Rat} {level scale : Rat} {w v : Workspace Rat} {e : LinearExpr Rat}

/-- **The indicators of a tail objective.** Let a tail objective be added to any model over path variables with two
different utilities. At every point that satisfies the constraints which have been added and gives the variables that
have been recorded admissible values, the variables of every path mean what they should. Conversely, if the quantile is
the utility of some path, the indicators that say where the utilities are satisfy the four inequalities of every path. -/
theorem tailValue_indicators (hrun : (tailValue dia x level scale).runOn w = (.ok e, v))
    (hdistinct : ∃ a ∈ x.members, ∃ b ∈ x.members, dia.utility a.path ≠ dia.utility b.path) :
    (∀ m ∈ x.members, dia.U.eval m.path = .ok (dia.utility m.path)) ∧
    ∃ l k added, w.Gains v added (x.tailRecord l k level scale) ∧
      (∀ point, (∀ c ∈ added, c.2.Holds point) →
        (∀ y ∈ (x.tailRecord l k level scale).vars, Problem.Admits point y) → ∀ m ∈ x.members,
          (tailValues k point).Meaning m.path (dia.utility m.path) (scale * m.prob * point m.var.key)) ∧
      ∀ n ∈ x.members,
        (∃ point, (tailValues k point).quantile = dia.utility n.path ∧
          (tailValues k point).Indicates dia.utility x.paths) ∧
        ∀ point, (tailValues k point).quantile = dia.utility n.path →
          (tailValues k point).Indicates dia.utility x.paths → ∀ m ∈ x.members,
            ∀ c ∈ l.indicatorInequalities (l.quantileVariable k) (tailRow k scale m.path) (dia.utility m.path),
              c ∈ added.map Prod.snd ∧ c.Holds point := by
  obtain ⟨heval, l, added, hl, hgains, hadded⟩ := (tailValue_adds dia x level scale w).of_ok rfl hrun
  have hmem : ∀ m ∈ x.members, ∀ c ∈ l.inequalities (l.quantileVariable w.model.nextIndex)
      (tailRow w.model.nextIndex scale m.path) (dia.utility m.path) m.prob scale m.var, c ∈ added.map Prod.snd := by
    intro m hm c hc
    rw [hadded]
    exact List.mem_append_left _ (List.mem_flatMap.2 ⟨m, hm, hc⟩)
  have hus : ∀ m ∈ x.members, dia.utility m.path ∈ x.members.map fun m => dia.utility m.path :=
    fun m hm => List.mem_map_of_mem hm
  refine ⟨heval, l, w.model.nextIndex, added, hgains, ?_, ?_⟩
  · intro point hholds hadmits m hm
    have hgap : 0 < l.halfGap := by
      obtain ⟨a, ha, b, hb, hne⟩ := hdistinct
      rcases lt_or_gt_of_ne hne with hlt | hgt
      · exact TailLevels.halfGap_pos hl (hus a ha) (hus b hb) hlt
      · exact TailLevels.halfGap_pos hl (hus b hb) (hus a ha) hgt
    have hrow : ∀ y ∈ (tailRow w.model.nextIndex scale m.path).vars, Problem.Admits point y := by
      intro y hy
      refine hadmits y (List.mem_cons_of_mem _ (List.mem_flatMap.2 ⟨_, List.mem_map_of_mem hm, hy⟩))
    have hsolution := Diagram.row_solution_iff.1 ⟨hrow, fun c hc => by
      obtain ⟨a, ha, rfl⟩ := List.mem_map.1 (hmem m hm c hc)
      exact hholds a ha⟩
    rw [mul_assoc]
    exact hsolution.meaning hgap
  · intro n hn
    refine ⟨exists_indicates _ _ _ _, fun point hquantile hindicates m hm c hc => ⟨?_, ?_⟩⟩
    · exact hmem m hm c ((l.indicatorInequalities_prefix _ _ _ m.prob scale m.var).subset hc)
    · obtain ⟨l', hl', hcover⟩ := TailLevels.ofUtilities?_spec (List.ne_nil_of_mem (hus n hn))
      obtain rfl : l' = l := Option.some.inj (hl'.symm.trans hl)
      refine hindicates.inequalities_hold hcover ?_ (List.mem_map_of_mem hm) (hus m hm) c hc
      rw [hquantile]
      exact hus n hn

/-- The tail objective of the umbrella at a quarter, scaled by ten. With the utility of the first path as its quantile
there is a point whose indicators satisfy the inequalities of every path. -/
theorem tailValue_indicators_umbrella :
    ∃ z x w e v, (assemble umbrella .default [] .empty).runOn (.empty ModelOptions.defaultName) = (.ok (z, x), w) ∧
      (tailValue umbrella x (1 / 4) 10).runOn w = (.ok e, v) ∧
      (∃ a ∈ x.members, ∃ b ∈ x.members, umbrella.utility a.path ≠ umbrella.utility b.path) ∧
      ∃ l k added, w.Gains v added (x.tailRecord l k (1 / 4) 10) ∧
        (∀ point, (∀ c ∈ added, c.2.Holds point) →
          (∀ y ∈ (x.tailRecord l k (1 / 4) 10).vars, Problem.Admits point y) → ∀ m ∈ x.members,
            (tailValues k point).Meaning m.path (umbrella.utility m.path) (10 * m.prob * point m.var.key)) ∧
        ∃ point, (tailValues k point).quantile = umbrella.utility [0, 0, 0, 0] ∧
          (tailValues k point).Indicates umbrella.utility x.paths ∧ ∀ m ∈ x.members,
            ∀ c ∈ l.indicatorInequalities (l.quantileVariable k) (tailRow k 10 m.path) (umbrella.utility m.path),
              c ∈ added.map Prod.snd ∧ c.Holds point := by
  have hrules : RulesWithin [] umbrella.S := fun rule hrule => absurd hrule List.not_mem_nil
  have hfixed := FixedStates.within_empty umbrella.S
  have heager : (ModelOptions.default : ModelOptions Rat).lazyCuts = false := rfl
  have hoptions : 0 < (ModelOptions.default : ModelOptions Rat).scale := by decide
  have hpos : (0 : Rat) < 1 / 4 := by decide +kernel
  have hle : (1 / 4 : Rat) ≤ 1 := by decide +kernel
  have hscale : (0 : Rat) < 10 := by decide +kernel
  obtain ⟨w, hassembled, hconstraints⟩ := Diagram.assemble_spec umbrella_wellFormed hrules hfixed heager hoptions
  have hdry : [0, 0, 0, 0] ∈ umbrella.memberPaths [] .empty := by decide +kernel
  have hwet : [1, 1, 1, 1] ∈ umbrella.memberPaths [] .empty := by decide +kernel
  obtain ⟨l, k, v, hrun, -⟩ := Diagram.tailValue_spec umbrella_wellFormed hfixed hpos hle hscale
    (List.ne_nil_of_mem hdry) hconstraints
  have hdistinct : ∃ a ∈ (umbrella.pathBlock [] .empty).members, ∃ b ∈ (umbrella.pathBlock [] .empty).members,
      umbrella.utility a.path ≠ umbrella.utility b.path :=
    ⟨_, List.mem_map_of_mem hdry, _, List.mem_map_of_mem hwet, by decide +kernel⟩
  obtain ⟨-, l, k, added, hgains, hmeaning, hconverse⟩ := tailValue_indicators hrun hdistinct
  obtain ⟨⟨point, hquantile, hindicates⟩, hinequalities⟩ := hconverse _ (List.mem_map_of_mem hdry)
  exact ⟨_, _, w, _, v, hassembled, hrun, hdistinct, l, k, added, hgains, hmeaning, point, hquantile, hindicates,
    hinequalities point hquantile hindicates⟩

end Main

end InfluenceDiagrams
