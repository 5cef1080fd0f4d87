import InfluenceDiagrams.Proofs.Model.Correspondence
import InfluenceDiagrams.Proofs.Model.Faults
import InfluenceDiagrams.Proofs.Model.TailLevels

/-!
# `InfluenceDiagrams.Proofs.Model.TailConstraints` — what a tail objective adds to the model

A tail objective adds nine constraints without names for every path that has a variable, and a named one
for the mass of the tail. The objective is the sum of the masses in the tail, weighted with utilities.

## Contents
- **`TailLevels.inequalities`** — the nine constraints of a path.
- **`PathVariables.tailConstraints`, `tailRecord`** — all constraints, and what is recorded.
- **`addTail_runOn`, `addTail_taken`** — adding them to any model, whether the name of the last one is free or taken.
- **`Diagram.tailConstraints`, `tailRecord`, `tailExpr`** — the same for the path variables of a diagram, and the objective.
- **`tailValue_runOn`** — adding a tail objective to a model; `tailValue_spec` for the model of a diagram.
-/

namespace InfluenceDiagrams

/-! ## The constraints of a path -/

namespace TailLevels

variable (l : TailLevels Rat)

/-- The variable of the quantile. -/
def quantileVariable (k : Nat) : Variable Rat := .real ("eta_" ++ toString k) 0 l.least l.greatest

/-- The constraints of a path, built without faults. -/
def inequalities (quantile : Variable Rat) (row : TailRow Rat) (u p scale : Rat) (x : Variable Rat) :
    List (Constraint Rat) :=
  let distance := (LinearExpr.ofVar quantile).lowered u
  let reach := l.span + l.halfGap
  [ .atMost distance (.scaled l.span (.ofVar row.below)),
    .atLeast distance ((LinearExpr.scaled reach (.ofVar row.below)).lowered l.span),
    .atMost distance ((LinearExpr.scaled reach (.ofVar row.atMost)).lowered l.halfGap),
    .atLeast distance (.scaled l.span ((LinearExpr.ofVar row.atMost).lowered 1)),
    .atMost (.ofVar row.strictMass) (.scaled scale (.ofVar row.below)),
    .atMost (.ofVar row.mass) (.scaled scale (.ofVar row.atMost)),
    .atMost (.ofVar row.strictMass) (.ofVar row.mass),
    .atMost (.ofVar row.mass) (.scaled (p * scale) (.ofVar x)),
    .atMost ((LinearExpr.scaled (p * scale) (.ofVar x)).sub
      (.scaled scale (LinearExpr.sub ⟨[], 1⟩ (.ofVar row.below)))) (.ofVar row.strictMass) ]

theorem constraints_eq (quantile : Variable Rat) (row : TailRow Rat) (u p scale : Rat) (x : Variable Rat) :
    l.constraints quantile row u p scale x = (l.inequalities quantile row u p scale x).map Except.ok := by
  unfold constraints affine
  simp only [LinearExpr.multiple_eq, LinearExpr.scale_eq]
  rfl

/-- The point satisfies the constraints of a path. -/
theorem forall_inequalities_iff {quantile : Variable Rat} {row : TailRow Rat} {u p scale : Rat}
    {x : Variable Rat} {point : VarKey → Rat} :
    (∀ c ∈ l.inequalities quantile row u p scale x, c.Holds point) ↔
      (point quantile.key - u ≤ l.span * point row.below.key ∧
        (l.span + l.halfGap) * point row.below.key - l.span ≤ point quantile.key - u ∧
        point quantile.key - u ≤ (l.span + l.halfGap) * point row.atMost.key - l.halfGap ∧
        l.span * (point row.atMost.key - 1) ≤ point quantile.key - u ∧
        point row.strictMass.key ≤ scale * point row.below.key ∧
        point row.mass.key ≤ scale * point row.atMost.key ∧
        point row.strictMass.key ≤ point row.mass.key ∧
        point row.mass.key ≤ p * scale * point x.key ∧
        p * scale * point x.key - scale * (1 - point row.below.key) ≤ point row.strictMass.key) := by
  simp only [inequalities, List.forall_mem_cons, Constraint.holds_atMost, Constraint.holds_atLeast,
    LinearExpr.eval_lowered, LinearExpr.eval_scaled, LinearExpr.eval_ofVar, LinearExpr.eval_sub,
    LinearExpr.eval_number, List.not_mem_nil, false_implies, implies_true, and_true]

end TailLevels

/-! ## Steps -/

/-- One workspace has the constraints and the records of tail objectives of another one, and after them some
constraints and one record. -/
structure Workspace.Gains (w v : Workspace Rat) (added : List (String × Constraint Rat)) (tail : TailVariables Rat) :
    Prop where
  constraints : v.model.problem.constraints = w.model.problem.constraints ++ added
  tails : v.model.tails = w.model.tails ++ [tail]

theorem addEach_appends (cs : List (Constraint Rat)) : (addEach (cs.map Except.ok)).Appends () cs := by
  induction cs with
  | nil => exact Build.Appends.pure ()
  | cons c cs ih => exact Build.Appends.lift_bind rfl ((Build.Appends.addConstraint c).bind ih)

theorem addTailRows_appends (l : TailLevels Rat) (quantile : Variable Rat) (k : Nat) (scale : Rat)
    (pairs : List (PathVariable Rat × Rat)) :
    (addTailRows l quantile k scale pairs).Appends (pairs.map fun r => tailRow k scale r.1.path)
      (pairs.flatMap fun r =>
        l.inequalities quantile (tailRow k scale r.1.path) r.2 r.1.prob scale r.1.var) := by
  induction pairs with
  | nil => exact Build.Appends.pure []
  | cons r pairs ih =>
      obtain ⟨m, u⟩ := r
      have hrest := ih.bind (f := fun rows => (return tailRow k scale m.path :: rows : Build Rat _))
        (Build.Appends.pure _)
      rw [List.append_nil] at hrest
      unfold addTailRows
      dsimp only
      rw [TailLevels.constraints_eq, List.flatMap_cons]
      exact (addEach_appends _).bind hrest

/-- The name of the constraint on the mass is not an automatic one. -/
theorem massName_not_mem_added (k : Nat) {added : List (String × Constraint Rat)}
    (hadded : ∀ a ∈ added, ∃ n, a.1 = automaticName n) : "cvar_mass_" ++ toString k ∉ added.map Prod.fst := by
  intro hmem
  obtain ⟨a, ha, hname⟩ := List.mem_map.1 hmem
  obtain ⟨n, hn⟩ := hadded a ha
  exact Diagram.append_ne_append (by decide) (by decide) (by decide) _ _ (hname.symm.trans hn)

section Definitions

variable (x : PathVariables Rat) (l : TailLevels Rat) (k : Nat) (level scale : Rat)

/-- What the model records of a tail objective over path variables. -/
def PathVariables.tailRecord : TailVariables Rat :=
  ⟨level, l.quantileVariable k, x.members.map fun m => tailRow k scale m.path⟩

/-- The constraints of the paths, which have some utilities. -/
def PathVariables.pathConstraints (u : Path → Rat) : List (Constraint Rat) :=
  x.members.flatMap fun m =>
    l.inequalities (l.quantileVariable k) (tailRow k scale m.path) (u m.path) m.prob scale m.var

/-- The constraint on the mass of the tail. -/
def PathVariables.massConstraint : Constraint Rat :=
  .equals (.sumVars (x.members.map fun m => (tailRow k scale m.path).mass)) (level * scale)

/-- The constraints of a tail objective over path variables whose paths have some utilities. -/
def PathVariables.tailConstraints (u : Path → Rat) : List (Constraint Rat) :=
  x.pathConstraints l k scale u ++ [x.massConstraint k level scale]

end Definitions

section Run

variable (x : PathVariables Rat) (u : Path → Rat) (level scale : Rat) (l : TailLevels Rat) (w : Workspace Rat)

/-- Once the levels are known, the variables and the constraints of the paths are always added. -/
theorem addTail_paths :
    ∃ v added, (addTail x level scale (x.members.map fun m => u m.path) l).runOn w =
        (do
          Build.addConstraint (some ("cvar_mass_" ++ toString w.model.nextIndex))
            (x.massConstraint w.model.nextIndex level scale)
          Build.modifyModel fun m =>
            { m with tails := m.tails ++ [x.tailRecord l w.model.nextIndex level scale] }
          Build.lift (tailExpression (x.members.map fun m => tailRow w.model.nextIndex scale m.path)
            (x.members.map fun m => u m.path) (level * scale)) : Build Rat (LinearExpr Rat)).runOn v ∧
      v.model.problem.constraints = w.model.problem.constraints ++ added ∧ v.model.tails = w.model.tails ∧
      added.map Prod.snd = x.pathConstraints l w.model.nextIndex scale u ∧
      ∀ a ∈ added, ∃ n, a.1 = automaticName n := by
  -- the index is the next one, and taking it changes nothing else
  let k := w.model.nextIndex
  let w₁ : Workspace Rat := { w with model := { w.model with nextIndex := k + 1 } }
  have hpairs : x.members.zip (x.members.map fun m => u m.path) = x.members.map fun m => (m, u m.path) :=
    List.map_prod_left_eq_zip.symm
  obtain ⟨p, added, hrows, hconstraints, hadded, hnames⟩ :=
    addTailRows_appends l (l.quantileVariable k) k scale (x.members.map fun m => (m, u m.path)) w₁
  rw [List.map_map] at hrows
  rw [List.flatMap_map] at hadded
  refine ⟨{ w₁ with model := { w₁.model with problem := p } }, added, ?_, hconstraints, rfl, hadded, hnames⟩
  rw [addTail, hpairs, Build.runOn_bind_ok (Build.runOn_freshIndex w)]
  refine (Build.runOn_bind_ok hrows).trans ?_
  rw [PathVariables.massConstraint, PathVariables.tailRecord, List.map_map]
  rfl

variable {w}

/-- If the name of the constraint on the mass is not taken, that constraint is added, and the variables are recorded. Only
the expression may still be missing. -/
theorem addTail_runOn
    (hfree : "cvar_mass_" ++ toString w.model.nextIndex ∉ w.model.problem.constraints.map Prod.fst) :
    ∃ v added, (addTail x level scale (x.members.map fun m => u m.path) l).runOn w =
        (tailExpression (x.members.map fun m => tailRow w.model.nextIndex scale m.path)
          (x.members.map fun m => u m.path) (level * scale), v) ∧
      w.Gains v added (x.tailRecord l w.model.nextIndex level scale) ∧
      added.map Prod.snd = x.tailConstraints l w.model.nextIndex level scale u := by
  obtain ⟨w₁, added, hrun, hconstraints, htails, hadded, hnames⟩ := addTail_paths x u level scale l w
  let name := "cvar_mass_" ++ toString w.model.nextIndex
  let cut := x.massConstraint w.model.nextIndex level scale
  have hfresh : name ∉ w₁.model.problem.constraints.map Prod.fst := by
    rw [hconstraints, List.map_append, List.mem_append, not_or]
    exact ⟨hfree, massName_not_mem_added _ hnames⟩
  let w₂ := w₁.extend [(name, cut)]
  let v : Workspace Rat := { w₂ with model := { w₂.model with
    tails := w₂.model.tails ++ [x.tailRecord l w.model.nextIndex level scale] } }
  refine ⟨v, added ++ [(name, cut)], ?_, ⟨?_, ?_⟩, ?_⟩
  · rw [hrun, Build.runOn_bind_ok (Build.runOn_addConstraint (Problem.addConstraint_eq_extend cut hfresh))]
    exact Build.runOn_bind_ok (Build.runOn_modifyModel _ w₂)
  · show w₁.model.problem.constraints ++ [(name, cut)] = _
    rw [hconstraints, List.append_assoc]
  · show w₁.model.tails ++ _ = _
    rw [htails]
  · rw [List.map_append, hadded]
    rfl

/-- If the name of the constraint on the mass is taken, there is no tail objective. -/
theorem addTail_taken (hname : "cvar_mass_" ++ toString w.model.nextIndex ∈ w.model.problem.constraints.map Prod.fst) :
    ∃ f v, (addTail x level scale (x.members.map fun m => u m.path) l).runOn w = (.error f, v) := by
  obtain ⟨w₁, added, hrun, hconstraints, -⟩ := addTail_paths x u level scale l w
  have htaken : "cvar_mass_" ++ toString w.model.nextIndex ∈ w₁.model.problem.constraints.map Prod.fst := by
    rw [hconstraints, List.map_append]
    exact List.mem_append_left _ hname
  exact ⟨_, w₁, hrun.trans (Build.runOn_bind_error (Build.runOn_addConstraint_taken htaken _))⟩

end Run

/-! ## The tail objective -/

namespace Diagram

section Definitions

variable (dia : Diagram Rat) (rules : List ForbiddenRule) (fixed : FixedStates)

/-- The constraints of a tail objective: those of the paths, and that on the mass of the tail. -/
def tailConstraints (l : TailLevels Rat) (k : Nat) (level scale : Rat) : List (Constraint Rat) :=
  ((dia.memberPaths rules fixed).flatMap fun s => l.inequalities (l.quantileVariable k) (tailRow k scale s)
    (dia.utility s) (dia.prob s) scale (pathVariable 1 s)) ++
  [.equals (.sumVars ((dia.memberPaths rules fixed).map fun s => (tailRow k scale s).mass)) (level * scale)]

/-- What the model records of a tail objective. -/
def tailRecord (l : TailLevels Rat) (k : Nat) (level scale : Rat) : TailVariables Rat :=
  ⟨level, l.quantileVariable k, (dia.memberPaths rules fixed).map (tailRow k scale)⟩

/-- The tail objective. -/
def tailExpr (k : Nat) (level scale : Rat) : LinearExpr Rat :=
  .sum ((dia.memberPaths rules fixed).map fun s =>
    .scaled (dia.utility s / (level * scale)) (.ofVar (tailRow k scale s).mass))

end Definitions

variable {dia : Diagram Rat} {rules : List ForbiddenRule} {fixed : FixedStates}

theorem utilities_eq (h : dia.Accepted) (hutility : dia.U.Fits dia.S dia.V) (hfixed : fixed.Within dia.S) :
    utilities dia (dia.pathBlock rules fixed).members = .ok ((dia.memberPaths rules fixed).map dia.utility) := by
  rw [utilities, pathBlock, List.mapM_map]
  exact mapM_eq_pure fun s hs => h.eval_utility hutility (inSpace_of_member hfixed hs)

theorem tailExpression_eq {k : Nat} {level scale : Rat} (hmass : level * scale ≠ 0) :
    tailExpression ((dia.memberPaths rules fixed).map (tailRow k scale))
      ((dia.memberPaths rules fixed).map dia.utility) (level * scale) =
        .ok (dia.tailExpr rules fixed k level scale) := by
  have hterms : (((dia.memberPaths rules fixed).map (tailRow k scale)).zip
      ((dia.memberPaths rules fixed).map dia.utility)).mapM (fun r => tailTerm (level * scale) r.1 r.2) =
        (Except.ok ((dia.memberPaths rules fixed).map fun s =>
          LinearExpr.scaled (dia.utility s / (level * scale)) (.ofVar (tailRow k scale s).mass)) :
            Except (Fault Rat) _) := by
    rw [List.zip_map', List.mapM_map]
    apply mapM_eq_pure
    intro s _
    show tailTerm (level * scale) (tailRow k scale s) (dia.utility s) = _
    rw [tailTerm, Scalar.quotient?, if_neg (by rwa [beq_iff_eq])]
    exact LinearExpr.multiple_eq _ _
  rw [tailExpression, hterms]
  rfl

theorem positiveLevel_eq_true {level : Rat} (hpos : 0 < level) (hle : level ≤ 1) : positiveLevel level = true := by
  rw [positiveLevel, decide_eq_true (show (0 : Rat) < level from hpos),
    decide_eq_true (show level ≤ (1 : Rat) from hle)]
  rfl

/-- What a tail objective does to a model in which the name of its constraint on the mass is not taken: it adds its
constraints, keeps a record of its variables, and gives its expression. -/
theorem tailValue_runOn (h : dia.Accepted) (hutility : dia.U.Fits dia.S dia.V) (hfixed : fixed.Within dia.S)
    {level scale : Rat} (hpos : 0 < level) (hle : level ≤ 1) (hscale : 0 < scale)
    (hne : dia.memberPaths rules fixed ≠ []) {l : TailLevels Rat}
    (hl : TailLevels.ofUtilities? ((dia.memberPaths rules fixed).map dia.utility) = some l) {w : Workspace Rat}
    (hfree : "cvar_mass_" ++ toString w.model.nextIndex ∉ w.model.problem.constraints.map Prod.fst) :
    ∃ v added, (tailValue dia (dia.pathBlock rules fixed) level scale).runOn w =
        (.ok (dia.tailExpr rules fixed w.model.nextIndex level scale), v) ∧
      w.Gains v added (dia.tailRecord rules fixed l w.model.nextIndex level scale) ∧
      added.map Prod.snd = dia.tailConstraints rules fixed l w.model.nextIndex level scale := by
  have hchecked : ModelOptions.checkScale scale = .ok () := if_neg (not_le.2 hscale)
  have hnonempty : (!(dia.pathBlock rules fixed).members.isEmpty) = true := by
    rw [pathBlock]
    simpa using hne
  have hlevels : orFault (α := Rat) .emptyExtremum
      (TailLevels.ofUtilities? ((dia.memberPaths rules fixed).map dia.utility)) = .ok l := by
    rw [hl]
    rfl
  have hmass : level * scale ≠ 0 := ne_of_gt (mul_pos hpos hscale)
  obtain ⟨v, added, htail, hgains, hadded⟩ :=
    addTail_runOn (dia.pathBlock rules fixed) dia.utility level scale l hfree
  -- the members are the paths of the diagram
  simp only [PathVariables.tailRecord, PathVariables.tailConstraints, PathVariables.pathConstraints,
    PathVariables.massConstraint, pathBlock, List.map_map, List.flatMap_map] at htail hgains hadded
  refine ⟨v, added, ?_, hgains, hadded⟩
  rw [tailValue_eq, Build.runOn_bind_ok (Build.runOn_lift_ok hchecked w),
    Build.runOn_bind_ok (Build.runOn_require (positiveLevel_eq_true hpos hle) _ w),
    Build.runOn_bind_ok (Build.runOn_require hnonempty _ w),
    Build.runOn_bind_ok (Build.runOn_lift_ok (utilities_eq h hutility hfixed) w),
    Build.runOn_bind_ok (Build.runOn_lift_ok hlevels w)]
  exact htail.trans (congrArg (·, v) (tailExpression_eq hmass))

/-- The name of the constraint on the mass is not one of the model of a diagram. -/
theorem massName_not_mem (dia : Diagram Rat) (rules : List ForbiddenRule) (fixed : FixedStates) (k : Nat)
    (scale : Rat) :
    "cvar_mass_" ++ toString k ∉ (dia.modelConstraints rules fixed scale).map Prod.fst := by
  obtain ⟨indices, -, hnames⟩ := modelConstraints_names dia rules fixed scale
  rw [hnames]
  exact not_mem_familyNames (by decide) (by decide) _

/-- **Construction.** A tail objective is added to the model of a well-formed diagram that has path
variables; its expression and constraints are those that are written down above. -/
theorem tailValue_spec (h : dia.WellFormed) (hfixed : fixed.Within dia.S) {level scale scale' : Rat}
    (hpos : 0 < level) (hle : level ≤ 1) (hscale : 0 < scale) (hne : dia.memberPaths rules fixed ≠ [])
    {w : Workspace Rat} (hw : w.model.problem.constraints = dia.modelConstraints rules fixed scale') :
    ∃ l k v, (tailValue dia (dia.pathBlock rules fixed) level scale).runOn w =
        (.ok (dia.tailExpr rules fixed k level scale), v) ∧
      l.Cover ((dia.memberPaths rules fixed).map dia.utility) ∧
      v.model.problem.constraints.map Prod.snd = w.model.problem.constraints.map Prod.snd ++
        dia.tailConstraints rules fixed l k level scale := by
  have hutilities : (dia.memberPaths rules fixed).map dia.utility ≠ [] := by simpa using hne
  obtain ⟨l, hl, hcover⟩ := TailLevels.ofUtilities?_spec hutilities
  have hfree := hw ▸ massName_not_mem dia rules fixed w.model.nextIndex scale'
  obtain ⟨v, added, hrun, hgains, hadded⟩ :=
    tailValue_runOn h.accepted h.utility hfixed hpos hle hscale hne hl hfree
  refine ⟨l, w.model.nextIndex, v, hrun, hcover, ?_⟩
  rw [hgains.constraints, List.map_append, hadded]

end Diagram
end InfluenceDiagrams
