import InfluenceDiagrams.Proofs.Model.Rounds
import InfluenceDiagrams.Proofs.Path.Grouping
import InfluenceDiagrams.Proofs.Program.Evaluation

/-!
# `InfluenceDiagrams.Proofs.Model.Verdicts` — right answers of a solver

A point is permitted if it gives every variable that occurs an admissible value and satisfies all constraints,
and optimal if no permitted point has a better value of the objective. A solver is right about a problem if it
says that nothing is permitted when that is so, and reports an optimal point otherwise. The questions of a run
have an objective in common. If it has no terms, they have the anchor, which is zero, in its place, so that
the anchor does not show in what is optimal or in the value that is reported at the end.

## Contents
- **`Problem.Meets`, `Problem.Permits`, `Problem.Optimal`** — what a solver looks for; `Optimal.of_relaxed`.
- **`Verdict.Correct`** — the solver is right.
- **`Problem.Poses`** — a problem with some constraints and an objective; `Poses.permits_iff`, `Poses.worth_eq`.
- **`Workspace.Asks`** — the next question is such a problem; what each part of a round does to it.
- **`Workspace.Asks.conclusion_eq`** — the value at the end is that of the objective.
-/

namespace InfluenceDiagrams

/-! ## Optimal points -/

/-- One value of an objective is at least as good as another one. -/
def Sense.Prefers : Sense → Rat → Rat → Prop
  | maximize, a, b => b ≤ a
  | minimize, a, b => a ≤ b

theorem Sense.Prefers.antisymm {sense : Sense} {a b : Rat} (h : sense.Prefers a b) (h' : sense.Prefers b a) :
    a = b := by
  cases sense with
  | maximize => exact le_antisymm h' h
  | minimize => exact le_antisymm h h'

namespace Problem

/-- The variables that occur in the constraints and in the objective. -/
def occurring (p : Problem Rat) : List (Variable Rat) :=
  p.constraints.flatMap (fun c => c.2.vars) ++ p.objective.elim [] LinearExpr.vars

/-- A point gives some variables admissible values, and satisfies all constraints. -/
structure Meets (p : Problem Rat) (vs : List (Variable Rat)) (point : VarKey → Rat) : Prop where
  admits : ∀ v ∈ vs, Admits point v
  holds : ∀ c ∈ p.constraints, c.2.Holds point

/-- A point gives all variables that occur admissible values, and satisfies all constraints. -/
abbrev Permits (p : Problem Rat) (point : VarKey → Rat) : Prop := p.Meets p.occurring point

/-- The value of the objective at a point, zero without one. -/
def worth (p : Problem Rat) (point : VarKey → Rat) : Rat := p.objective.elim 0 (LinearExpr.eval point)

/-- No permitted point has a better value of the objective than this one. -/
structure Optimal (p : Problem Rat) (point : VarKey → Rat) : Prop where
  permits : p.Permits point
  best : ∀ q, p.Permits q → p.sense.Prefers (p.worth point) (p.worth q)

end Problem

/-! ## Right answers -/

/-- The answer has the values of a point for all variables that occur. -/
def Verdict.Reports (verdict : Verdict Rat) (p : Problem Rat) (point : VarKey → Rat) : Prop :=
  ∀ v ∈ p.occurring, ∃ x : Numeral Rat,
    Keyed.find? v.key verdict.values = some (some x) ∧ x.number = point v.key

/-- The answer is that nothing is permitted, if that is so, and otherwise an optimal point. -/
structure Verdict.Correct (verdict : Verdict Rat) (p : Problem Rat) : Prop where
  infeasible : (¬∃ point, p.Permits point) → verdict.status = .infeasible
  optimal : (∃ point, p.Permits point) →
    verdict.status = .optimal ∧ ∃ point, p.Optimal point ∧ verdict.Reports p point

/-! ## Questions -/

/-- An objective as a solver sees it: one without terms has the anchor as its only term. -/
def LinearExpr.anchored (e : LinearExpr Rat) (c : Rat) : LinearExpr Rat :=
  if e.terms.isEmpty then ⟨[(Problem.anchor, c)], e.constant⟩ else e

namespace LinearExpr

variable {e : LinearExpr Rat}

theorem isEmpty_terms_anchored (e : LinearExpr Rat) (c : Rat) : (e.anchored c).terms.isEmpty = false := by
  unfold anchored
  split
  · rfl
  · rename_i h
    simpa using h

/-- Which variables occur does not depend on the coefficient of the anchor. -/
theorem vars_anchored (e : LinearExpr Rat) (c : Rat) : (e.anchored c).vars = (e.anchored 0).vars := by
  unfold anchored
  split <;> rfl

theorem mem_vars_anchored {v : Variable Rat} {c : Rat} (hv : v ∈ (e.anchored c).vars) :
    v ∈ e.vars ∨ v = Problem.anchor := by
  unfold anchored at hv
  split at hv
  · exact Or.inr (List.mem_singleton.1 hv)
  · exact Or.inl hv

/-- Where the anchor is admissible it does not show. -/
theorem eval_anchored {c : Rat} {point : VarKey → Rat} (h : ∀ v ∈ (e.anchored c).vars, Problem.Admits point v) :
    (e.anchored c).eval point = e.eval point := by
  unfold anchored at *
  split at h
  · rename_i hempty
    rw [if_pos hempty]
    obtain ⟨hlow, hhigh, -⟩ := h Problem.anchor List.mem_cons_self
    change 0 ≤ point (Problem.anchor (α := Rat)).key at hlow
    change point (Problem.anchor (α := Rat)).key ≤ 0 at hhigh
    rw [eval_eq, eval_eq, List.isEmpty_iff.1 hempty, termSum, List.map_singleton, List.sum_singleton,
      le_antisymm hhigh hlow, zero_mul]
    rfl
  · rename_i hne
    rw [if_neg hne]

end LinearExpr

/-- A problem with some constraints, under any names, and an objective. -/
structure Problem.Poses (p : Problem Rat) (cs : List (Constraint Rat)) (e : LinearExpr Rat) (sense : Sense) :
    Prop where
  constraints : p.constraints.map Prod.snd = cs
  sense_eq : p.sense = sense
  objective : ∃ c, p.objective = some (e.anchored c)

namespace Problem

variable {p q : Problem Rat} {cs ds : List (Constraint Rat)} {e : LinearExpr Rat} {sense : Sense}
  {point : VarKey → Rat}

namespace Poses

theorem mem_occurring (h : p.Poses cs e sense) {v : Variable Rat} :
    v ∈ p.occurring ↔ (∃ c ∈ cs, v ∈ c.vars) ∨ v ∈ (e.anchored 0).vars := by
  obtain ⟨c, hobjective⟩ := h.objective
  rw [occurring, List.mem_append, hobjective, Option.elim_some, LinearExpr.vars_anchored, ← h.constraints]
  simp only [List.mem_flatMap, List.mem_map, exists_exists_and_eq_and]

/-- The permitted points do not depend on the names of the constraints. -/
theorem permits_iff (h : p.Poses cs e sense) :
    p.Permits point ↔ (∀ c ∈ cs, c.Holds point ∧ ∀ v ∈ c.vars, Admits point v) ∧
      ∀ v ∈ (e.anchored 0).vars, Admits point v := by
  have hholds : (∀ c ∈ p.constraints, c.2.Holds point) ↔ ∀ c ∈ cs, c.Holds point := by
    rw [← h.constraints, List.forall_mem_map]
  constructor
  · intro hpoint
    refine ⟨?_, ?_⟩
    · intro c hc
      exact ⟨hholds.1 hpoint.holds c hc, fun v hv => hpoint.admits v (h.mem_occurring.2 (Or.inl ⟨c, hc, hv⟩))⟩
    · intro v hv
      exact hpoint.admits v (h.mem_occurring.2 (Or.inr hv))
  · rintro ⟨hcs, hobjective⟩
    refine ⟨?_, hholds.2 fun c hc => (hcs c hc).1⟩
    intro v hv
    rcases h.mem_occurring.1 hv with ⟨c, hc, hv⟩ | hv
    · exact (hcs c hc).2 v hv
    · exact hobjective v hv

theorem worth_eq (h : p.Poses cs e sense) (hpoint : p.Permits point) : p.worth point = e.eval point := by
  obtain ⟨c, hobjective⟩ := h.objective
  rw [worth, hobjective, Option.elim_some]
  apply LinearExpr.eval_anchored
  rw [LinearExpr.vars_anchored]
  exact (h.permits_iff.1 hpoint).2

/-- Problems with the same constraints and the same objective permit the same points. -/
theorem permits_congr (h : p.Poses cs e sense) (h' : q.Poses cs e sense) : p.Permits point ↔ q.Permits point := by
  rw [h.permits_iff, h'.permits_iff]

/-- Fewer constraints permit more. -/
theorem permits_of_subset (h : p.Poses cs e sense) (h' : q.Poses ds e sense) (hsub : cs ⊆ ds)
    (hpoint : q.Permits point) : p.Permits point := by
  obtain ⟨hds, hobjective⟩ := h'.permits_iff.1 hpoint
  exact h.permits_iff.2 ⟨fun c hc => hds c (hsub hc), hobjective⟩

end Poses

/-- An optimal point for fewer constraints that satisfies all of them is optimal. -/
theorem Optimal.of_relaxed (hp : p.Poses cs e sense) (hq : q.Poses ds e sense) (hsub : cs ⊆ ds)
    (hopt : p.Optimal point) (hpoint : q.Permits point) : q.Optimal point := by
  refine ⟨hpoint, ?_⟩
  intro r hr
  have hr' := hp.permits_of_subset hq hsub hr
  have hbest := hopt.best r hr'
  rwa [hp.worth_eq hopt.permits, hp.worth_eq hr', hp.sense_eq, ← hq.sense_eq, ← hq.worth_eq hpoint,
    ← hq.worth_eq hr] at hbest

end Problem

/-! ## The questions of a run -/

/-- The workspace whose problem has an objective. -/
def Workspace.aimed (w : Workspace Rat) (e : LinearExpr Rat) (sense : Sense) : Workspace Rat :=
  { w with model := { w.model with problem := { w.model.problem with objective := some e, sense := sense } } }

theorem Build.runOn_setObjective (e : LinearExpr Rat) (sense : Sense) (w : Workspace Rat) :
    (Build.setObjective (some e) sense).runOn w = (.ok (), w.aimed e sense) := rfl

/-- The problem of a workspace has some constraints and an objective, anchored or not. -/
structure Workspace.Asks (w : Workspace Rat) (cs : List (Constraint Rat)) (e : LinearExpr Rat) (sense : Sense) :
    Prop where
  constraints : w.model.problem.constraints.map Prod.snd = cs
  sense_eq : w.model.problem.sense = sense
  objective : w.model.problem.objective = some e ∨ w.model.problem.objective = some (e.anchored 0)

/-- The problem that a solver is asked about. -/
def Workspace.question (w : Workspace Rat) : Problem Rat := w.model.problem.withAnchor.observe

namespace Problem

variable {α : Type} (p : Problem α)

theorem sense_observe : p.observe.sense = p.sense := by
  unfold observe
  split <;> rfl

theorem objective_observe : p.observe.objective = p.objective := by
  unfold observe
  split <;> rfl

theorem sense_withAnchor [Scalar α] : p.withAnchor.sense = p.sense := by
  unfold withAnchor
  split <;> rfl

theorem isUnanchored_eq {p : Problem Rat} {f : LinearExpr Rat} (h : p.objective = some f) :
    p.isUnanchored = f.terms.isEmpty := by
  rw [isUnanchored, h]

theorem objective_withAnchor {p : Problem Rat} {e : LinearExpr Rat}
    (h : p.objective = some e ∨ p.objective = some (e.anchored 0)) :
    ∃ c, p.withAnchor.objective = some (e.anchored c) := by
  unfold withAnchor
  rcases h with h | h
  · rw [isUnanchored_eq h]
    by_cases hempty : e.terms.isEmpty = true
    · -- the anchor comes in with the coefficient one
      refine ⟨1, ?_⟩
      rw [if_pos hempty, LinearExpr.anchored, if_pos hempty]
      show some ((p.objective.getD .zero).addTerm (anchor, 1)) = _
      rw [h, Option.getD_some, LinearExpr.addTerm, List.isEmpty_iff.1 hempty]
      rfl
    · refine ⟨0, ?_⟩
      rw [if_neg hempty, LinearExpr.anchored, if_neg hempty, h]
  · -- it is there already
    refine ⟨0, ?_⟩
    rw [isUnanchored_eq h, if_neg (by rw [LinearExpr.isEmpty_terms_anchored]; exact Bool.false_ne_true), h]

theorem objective_afterAnchor {e : LinearExpr Rat} {objective : Option (LinearExpr Rat)} (q : Problem Rat)
    (h : objective = some e ∨ objective = some (e.anchored 0)) :
    (q.afterAnchor objective).objective = some (e.anchored 0) := by
  unfold afterAnchor
  rcases h with rfl | rfl
  · rw [Option.map_some, LinearExpr.anchored]
    split
    · rename_i hempty
      rw [LinearExpr.addTerm, LinearExpr.addTerm, List.isEmpty_iff.1 hempty]
      show some (⟨[(anchor, 1 + -1)], e.constant⟩ : LinearExpr Rat) = _
      rw [add_neg_cancel]
    · rfl
  · rw [Option.map_some, LinearExpr.isEmpty_terms_anchored, if_neg (by simp)]

end Problem

namespace Workspace.Asks

variable {w : Workspace Rat} {cs : List (Constraint Rat)} {e : LinearExpr Rat} {sense : Sense}
  {verdict : Verdict Rat}

theorem aimed {w : Workspace Rat} (h : w.model.problem.constraints.map Prod.snd = cs) :
    (w.aimed e sense).Asks cs e sense :=
  ⟨h, rfl, Or.inl rfl⟩

theorem question (h : w.Asks cs e sense) : w.question.Poses cs e sense := by
  unfold Workspace.question
  refine ⟨?_, ?_, ?_⟩
  · rw [Problem.constraints_observe, Problem.constraints_withAnchor, h.constraints]
  · rw [Problem.sense_observe, Problem.sense_withAnchor, h.sense_eq]
  · rw [Problem.objective_observe]
    exact Problem.objective_withAnchor h.objective

theorem objective_answered (h : w.Asks cs e sense) (verdict : Verdict Rat) :
    (w.answered verdict).model.problem.objective = some (e.anchored 0) :=
  Problem.objective_afterAnchor _ h.objective

theorem answered (h : w.Asks cs e sense) (verdict : Verdict Rat) : (w.answered verdict).Asks cs e sense := by
  refine ⟨?_, ?_, Or.inr (h.objective_answered verdict)⟩
  · rw [constraints_answered, h.constraints]
  · show w.question.sense = sense
    exact h.question.sense_eq

theorem shown (h : w.Asks cs e sense) : w.shown.Asks cs e sense := by
  refine ⟨?_, ?_, ?_⟩
  · exact (congrArg (List.map Prod.snd) (Problem.constraints_observe _)).trans h.constraints
  · exact (Problem.sense_observe _).trans h.sense_eq
  · rw [show w.shown.model.problem.objective = w.model.problem.objective from Problem.objective_observe _]
    exact h.objective

theorem enforced (h : w.Asks cs e sense) {s : Submission Rat} {c : Constraint Rat} (hs : s.cut = .unnamed c) :
    (w.enforced [s]).Asks (cs ++ [c]) e sense := by
  have hproblem : (w.enforced [s]).model.problem = w.model.problem.addNext c := by
    show (w.model.problem.enforce [s.cut]).1 = _
    rw [hs, Problem.enforce_unnamed]
  refine ⟨?_, ?_, ?_⟩
  · rw [hproblem]
    show (w.model.problem.constraints ++ [(automaticName w.model.problem.nextNumber, c)]).map Prod.snd = _
    rw [List.map_append, h.constraints, List.map_singleton]
  · rw [hproblem]
    exact h.sense_eq
  · rw [hproblem]
    exact h.objective

end Workspace.Asks

/-! ## Values -/

theorem Numeral.finite_eq (x : Numeral Rat) : x.finite = .ok x.number := by
  cases x <;> rfl

/-- An expression has a value if its variables have values. -/
theorem LinearExpr.value_eq {values : VarKey → Option (Numeral Rat)} {point : VarKey → Rat} {e : LinearExpr Rat}
    (h : ∀ v ∈ e.vars, ∃ x, values v.key = some x ∧ x.number = point v.key) :
    e.value values = .ok (some (e.eval point)) := by
  unfold value eval vars at *
  -- the terms are added to what there is already, which starts with the constant
  generalize e.constant = total
  generalize e.terms = terms at h ⊢
  induction terms generalizing total with
  | nil => rfl
  | cons t terms ih =>
      obtain ⟨v, c⟩ := t
      rw [List.map_cons, List.forall_mem_cons] at h
      obtain ⟨⟨x, hx, hnumber⟩, hterms⟩ := h
      rw [addValues, hx, List.foldl_cons, ← ih _ hterms, ← hnumber]
      dsimp only
      rw [Numeral.finite_eq]
      rfl

namespace Verdict

variable {verdict : Verdict Rat} {w : Workspace Rat} {p : Problem Rat} {point : VarKey → Rat}

/-- What a solver reports becomes the present values. -/
theorem Reports.value? (h : verdict.Reports p point) {v : Variable Rat} (hv : v ∈ p.occurring) :
    ∃ x, (w.answered verdict).model.value? v.key = some x ∧ x.number = point v.key := by
  obtain ⟨x, hx, hnumber⟩ := h v hv
  refine ⟨x, ?_, hnumber⟩
  show (Keyed.find? v.key (verdict.values ++ _)).join = some x
  rw [Keyed.find?_append_of_some hx]
  rfl

end Verdict

/-- At an optimum the value is that of the objective at the point that the solver reports. -/
theorem Workspace.Asks.conclusion_eq {w v : Workspace Rat} {cs : List (Constraint Rat)} {e : LinearExpr Rat}
    {sense : Sense} (h : w.Asks cs e sense) {verdict : Verdict Rat} {point : VarKey → Rat}
    (hpoint : w.question.Permits point) (hreports : verdict.Reports w.question point)
    (hvalues : v.model.values = (w.answered verdict).model.values)
    (hobjective : v.model.problem.objective = (w.answered verdict).model.problem.objective) (rounds : Nat) :
    v.model.conclusion .optimal rounds = .ok ⟨.optimal, some (e.eval point), rounds⟩ := by
  have hvalue? : v.model.value? = (w.answered verdict).model.value? := by
    funext key
    rw [DecisionModel.value?, DecisionModel.value?, hvalues]
  have hvalue : (e.anchored 0).value v.model.value? = .ok (some ((e.anchored 0).eval point)) := by
    apply LinearExpr.value_eq
    intro u hu
    rw [hvalue?]
    exact hreports.value? (h.question.mem_occurring.2 (Or.inr hu))
  rw [DecisionModel.conclusion, if_pos rfl, hobjective, h.objective_answered]
  dsimp only
  rw [hvalue, LinearExpr.eval_anchored (h.question.permits_iff.1 hpoint).2]
  rfl

end InfluenceDiagrams
