import InfluenceDiagrams.Model.Objective
import InfluenceDiagrams.Proofs.Model.Construction

/-!
# `InfluenceDiagrams.Proofs.Model.Faults` — the faults of the steps that change a model

Once the paths with variables are known, and once the levels of a tail objective are, nothing is looked up in a table
any more. What is left to do may come across a number that is too large or not finite, or a name that is taken. Only the
strategy constraints still look up states, and find them if the nodes and the paths are in order.

## Contents
- **`addStrategyConstraints_gives`** — the strategy constraints of a decision node.
- **`linkPaths`**, **`pathVariables_eq`, `linkPaths_gives`** — what is left when the paths with variables are known.
- **`addTailRows_gives`, `tailExpression_ofNumber`** — the parts of a tail objective.
- **`addTail`**, **`tailValue_eq`, `addTail_gives`** — what is left to do when its levels are known.
-/

namespace InfluenceDiagrams

variable {α : Type}

theorem Fault.OfNumber.ofProgram {f : Fault α} (h : f.OfNumber) : f.OfProgram := Or.inl h

theorem Fault.ofProgram_duplicate (name : String) : (Fault.duplicateConstraint name : Fault α).OfProgram :=
  Or.inr ⟨name, rfl⟩

variable [Scalar α]

/-! ## Strategy constraints -/

theorem addStrategyConstraint_gives (x : PathVariables α) (d : Node) (bound : α)
    (groups : List (Path × List Path)) (z : Path × Variable α) :
    (addStrategyConstraint x d bound groups z).Gives (fun _ => True) Fault.OfProgram := by
  unfold addStrategyConstraint
  cases Keyed.find? z.1 groups with
  | none => exact Build.Gives.pure trivial
  | some group =>
      have hmultiple : Yields (strategyConstraint (strategyBound group.length bound) (groupVars x group) z.2)
          (fun _ => True) Fault.OfProgram :=
        ((multiple_yields _ z.2).mono (fun _ _ _ => trivial) fun _ hf => hf.ofProgram).map
      exact Build.Gives.lift_bind hmultiple fun c _ => Build.Gives.addConstraint Fault.ofProgram_duplicate

/-- The strategy constraints of a decision node look up the counts of decision nodes and the states of paths, and
nothing else. -/
theorem addStrategyConstraints_gives (S : StateCounts) (D : List InfoNode) (x : PathVariables α)
    (z : DecisionVariables α) :
    (addStrategyConstraints S D x z).Gives (fun _ => True) fun f => f.OfProgram ∨ f = .outOfRange ∧
      ¬((∀ d ∈ D, InRange S.length d.index) ∧ ∀ s ∈ x.paths, ∀ k ∈ z.node.scope, InRange s.length k) := by
  have hgroups : Yields (orFault (α := α) .outOfRange (groupBy? x.paths (z.node.info ++ [z.node.index])))
      (fun _ => True) fun f => f.OfProgram ∨ f = .outOfRange ∧
        ¬((∀ d ∈ D, InRange S.length d.index) ∧ ∀ s ∈ x.paths, ∀ k ∈ z.node.scope, InRange s.length k) := by
    by_cases hpaths : ∀ s ∈ x.paths, ∀ k ∈ z.node.scope, InRange s.length k
    · obtain ⟨groups, hgroups, -⟩ := groupBy?_spec hpaths
      change Yields (orFault .outOfRange (groupBy? x.paths z.node.scope)) _ _
      rw [hgroups]
      trivial
    · exact (orFault_yields (Or.inr ⟨rfl, fun h => hpaths h.2⟩)).mono (fun _ _ _ => trivial) fun _ hf => hf
  have hbound : Yields (theoreticalBound S D z) (fun _ => True) fun f => f.OfProgram ∨ f = .outOfRange ∧
      ¬((∀ d ∈ D, InRange S.length d.index) ∧ ∀ s ∈ x.paths, ∀ k ∈ z.node.scope, InRange s.length k) :=
    (theoreticalBound_yields S D z).mono (fun _ _ _ => trivial) fun _ hf =>
      hf.imp Fault.OfNumber.ofProgram fun hf => ⟨hf.1, fun h => hf.2 h.1⟩
  unfold addStrategyConstraints
  refine Build.Gives.lift_bind hbound fun bound _ => Build.Gives.lift_bind hgroups fun groups _ => ?_
  refine Build.Gives.forM fun zi _ => ?_
  exact (addStrategyConstraint_gives x z.node.index bound groups zi).mono (fun _ h => h) fun _ hf => Or.inl hf

theorem probabilityCut_ofNumber (x : PathVariables α) (scale : α) :
    Yields (probabilityCut x scale) (fun _ => True) Fault.OfNumber :=
  ((combination_yields _).mono (fun _ _ _ => trivial) fun _ hf => hf).map

/-! ## Creating the variables of paths -/

/-- The path variables of some paths with their probabilities, in a family. -/
def pathsIn (family : Nat) (ms : List (Path × α)) (fixed : FixedStates) : PathVariables α :=
  ⟨ms.map fun m => ⟨m.1, pathVariable family m.1, m.2⟩, fixed⟩

/-- What is left to do when the paths with variables are known: the variables get a family, and are tied to the
decisions and, if `eager`, to the total probability. -/
def linkPaths (dia : Diagram α) (z : List (DecisionVariables α)) (fixed : FixedStates) (eager : Bool) (scale : α)
    (members : List (Path × α)) : Build α (PathVariables α) := do
  let family ← Build.freshFamily
  let x : PathVariables α :=
    ⟨members.map fun m => ⟨m.1, pathVariable family m.1, m.2⟩, fixed⟩
  z.forM (addStrategyConstraints dia.S dia.D x)
  if eager then
    let c ← Build.lift (probabilityCut x scale)
    Build.addConstraint (some probabilityCutName) c
  return x

/-- Everything is checked and looked up before anything is changed. -/
theorem pathVariables_eq [Lengths] (dia : Diagram α) (z : List (DecisionVariables α)) (rules : List ForbiddenRule)
    (fixed : FixedStates) (eager : Bool) (scale : α) :
    pathVariables dia z rules fixed eager scale = (do
      Build.lift (ModelOptions.checkScale scale)
      if !rules.isEmpty then Build.notify .forbiddenPaths
      Build.lift (checkFixedStates dia.S fixed.pairs)
      let ms ← Build.lift (members dia rules fixed)
      linkPaths dia z fixed eager scale ms) := rfl

theorem linkPaths_gives (dia : Diagram α) (z : List (DecisionVariables α)) (fixed : FixedStates) (eager : Bool)
    (scale : α) (ms : List (Path × α)) :
    (linkPaths dia z fixed eager scale ms).Gives (fun x => ∃ family, x = pathsIn family ms fixed)
      fun f => f.OfProgram ∨ f = .outOfRange ∧ ¬((∀ d ∈ dia.D, InRange dia.S.length d.index) ∧
        ∀ b ∈ z, ∀ s ∈ ms.map Prod.fst, ∀ k ∈ b.node.scope, InRange s.length k) := by
  unfold linkPaths
  refine Build.Gives.bind (p := fun _ => True) (fun _ _ => trivial) fun family _ => ?_
  extract_lets x afterCut
  have hx : x.paths = ms.map Prod.fst := List.map_map
  refine Build.Gives.bind (p := fun _ => True) (Build.Gives.forM fun b hb => ?_) fun _ _ => ?_
  · refine (addStrategyConstraints_gives dia.S dia.D x b).mono (fun _ hu => hu) fun f hf => ?_
    refine hf.imp_right fun ⟨hf, hrange⟩ => ⟨hf, fun hall => hrange ⟨hall.1, ?_⟩⟩
    rw [hx]
    exact hall.2 b hb
  · split
    · refine Build.Gives.lift_bind ((probabilityCut_ofNumber x scale).mono (fun _ _ hc => hc)
        fun _ hf => Or.inl hf.ofProgram) fun c _ => ?_
      exact (Build.Gives.addConstraint fun name => Or.inl (Fault.ofProgram_duplicate name)).bind
        fun _ _ => Build.Gives.pure ⟨family, rfl⟩
    · exact Build.Gives.pure ⟨family, rfl⟩

/-! ## Tail objectives -/

theorem ofNumber_yields (c : α) : Yields (LinearExpr.ofNumber c) (fun _ => True) Fault.OfNumber := by
  unfold LinearExpr.ofNumber
  split <;> trivial

/-- The constraints of a path are made of multiples and differences. -/
theorem TailLevels.constraints_ofNumber (l : TailLevels α) (quantile : Variable α) (row : TailRow α) (u p scale : α)
    (x : Variable α) :
    ∀ c ∈ l.constraints quantile row u p scale x, Yields c (fun _ => True) Fault.OfNumber := by
  have hmultiple : ∀ (c : α) (v : Variable α), Yields (LinearExpr.multiple c v) (fun _ => True) Fault.OfNumber :=
    fun c v => (multiple_yields c v).mono (fun _ _ _ => trivial) fun _ hf => hf
  have hscale : ∀ (c : α) (e : LinearExpr α), Yields (LinearExpr.scale c e) (fun _ => True) Fault.OfNumber :=
    fun c e => (scale_yields c e).mono (fun _ _ _ => trivial) fun _ hf => hf
  have hsub : ∀ (e : LinearExpr α) (c : α), Yields (e.subNumber c) (fun _ => True) Fault.OfNumber :=
    fun e c => (subNumber_yields e c).mono (fun _ _ _ => trivial) fun _ hf => hf
  have haffine : ∀ (c : α) (v : Variable α) (n : α), Yields (affine c v n) (fun _ => True) Fault.OfNumber :=
    fun c v n => (hmultiple c v).bind fun e _ => hsub e n
  have hdistance := hsub (LinearExpr.ofVar quantile) u
  simp only [constraints, List.forall_mem_cons, List.not_mem_nil, false_implies, implies_true, and_true]
  refine ⟨?_, ?_, ?_, ?_, ?_, ?_, trivial, ?_, ?_⟩
  · exact hdistance.bind fun _ _ => (hmultiple _ _).bind fun _ _ => trivial
  · exact hdistance.bind fun _ _ => (haffine _ _ _).bind fun _ _ => trivial
  · exact hdistance.bind fun _ _ => (haffine _ _ _).bind fun _ _ => trivial
  · exact hdistance.bind fun _ _ => (hsub _ _).bind fun _ _ => (hscale _ _).bind fun _ _ => trivial
  · exact (hmultiple _ _).bind fun _ _ => trivial
  · exact (hmultiple _ _).bind fun _ _ => trivial
  · exact (hmultiple _ _).bind fun _ _ => trivial
  · exact (hmultiple _ _).bind fun _ _ => (ofNumber_yields 1).bind fun _ _ => (hscale _ _).bind fun _ _ => trivial

omit [Scalar α] in
theorem addEach_gives {cs : List (Except (Fault α) (Constraint α))}
    (h : ∀ c ∈ cs, Yields c (fun _ => True) Fault.OfNumber) : (addEach cs).Gives (fun _ => True) Fault.OfProgram := by
  induction cs with
  | nil => exact Build.Gives.pure trivial
  | cons c cs ih =>
      obtain ⟨hc, hcs⟩ := List.forall_mem_cons.1 h
      unfold addEach
      refine Build.Gives.lift_bind (hc.mono (fun _ _ _ => trivial) fun _ hf => hf.ofProgram) fun c _ => ?_
      exact (Build.Gives.addConstraint Fault.ofProgram_duplicate).bind fun _ _ => ih hcs

theorem addTailRows_gives (l : TailLevels α) (quantile : Variable α) (k : Nat) (scale : α)
    (ms : List (PathVariable α × α)) :
    (addTailRows l quantile k scale ms).Gives (fun _ => True) Fault.OfProgram := by
  induction ms with
  | nil => exact Build.Gives.pure trivial
  | cons m ms ih =>
      unfold addTailRows
      refine (addEach_gives (l.constraints_ofNumber quantile _ m.2 m.1.prob scale m.1.var)).bind fun _ _ => ?_
      exact ih.bind fun _ _ => Build.Gives.pure trivial

theorem tailExpression_ofNumber (rows : List (TailRow α)) (us : List α) (mass : α) :
    Yields (tailExpression rows us mass) (fun _ => True) Fault.OfNumber := by
  have hterm : ∀ r : TailRow α × α, Yields (tailTerm mass r.1 r.2) (fun _ => True) Fault.OfNumber := by
    intro r
    refine (orFault_yields (by trivial)).bind fun c _ => ?_
    exact (multiple_yields c r.1.mass).mono (fun _ _ _ => trivial) fun _ hf => hf
  exact ((Yields.mapM fun r _ => hterm r).mono (fun _ _ _ => trivial) fun _ hf => hf).map

/-- What is left to do when the levels of a tail objective are known. -/
def addTail (x : PathVariables α) (alpha scale : α) (us : List α) (l : TailLevels α) : Build α (LinearExpr α) := do
  let k ← Build.freshIndex
  let quantile := Variable.real ("eta_" ++ toString k) 0 l.least l.greatest
  let rows ← addTailRows l quantile k scale (x.members.zip us)
  Build.addConstraint (some ("cvar_mass_" ++ toString k))
    (.equals (.sumVars (rows.map TailRow.mass)) (alpha * scale))
  Build.modifyModel fun m => { m with tails := m.tails ++ [⟨alpha, quantile, rows⟩] }
  Build.lift (tailExpression rows us (alpha * scale))

/-- Everything is checked and looked up before anything is changed. -/
theorem tailValue_eq (dia : Diagram α) (x : PathVariables α) (alpha scale : α) :
    tailValue dia x alpha scale = (do
      Build.lift (ModelOptions.checkScale scale)
      Build.require (positiveLevel alpha) (.riskLevel alpha .positive)
      Build.require (!x.members.isEmpty) .noPathVariables
      let us ← Build.lift (utilities dia x.members)
      let l ← Build.lift (orFault .emptyExtremum (TailLevels.ofUtilities? us))
      addTail x alpha scale us l) := rfl

theorem addTail_gives (x : PathVariables α) (alpha scale : α) (us : List α) (l : TailLevels α) :
    (addTail x alpha scale us l).Gives (fun _ => True) Fault.OfProgram := by
  unfold addTail
  refine Build.Gives.bind (p := fun _ => True) (fun _ _ => trivial) fun k _ => ?_
  refine (addTailRows_gives l _ k scale _).bind fun rows _ => ?_
  refine (Build.Gives.addConstraint Fault.ofProgram_duplicate).bind fun _ _ => ?_
  refine Build.Gives.bind (p := fun _ => True) (fun _ _ => trivial) fun _ _ => ?_
  exact Build.Gives.lift ((tailExpression_ofNumber rows us _).mono (fun _ _ hp => hp) fun _ hf => hf.ofProgram)

end InfluenceDiagrams
