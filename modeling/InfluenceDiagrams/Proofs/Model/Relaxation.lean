import InfluenceDiagrams.Proofs.Model.Correspondence
import InfluenceDiagrams.Proofs.Model.LazyCut

/-!
# `InfluenceDiagrams.Proofs.Model.Relaxation` — a lazy constraint gives the same optimum

Without the constraint on the probabilities a model is a relaxation. An optimum of the relaxation to which the
callback does not object satisfies the constraint and is an optimum of the model. Otherwise the constraint is
added, and the second question is about the model itself. If the relaxation permits nothing, neither does the
model. So the callback, which can object only once, need not object again, whatever the objective is.

## Contents
- **`lazyRows`, `eagerRows`** — the constraints of the two models; `permits_lazy_iff`, `permits_eager_iff`.
- **`SolveResult.Settles`** — what a run says at the end is right about a problem.
- **`Workspace.Asks.exists_result`** — the end of a run after a right answer.
- **`eager_settles`, `lazy_settles`** — both runs are right about the eager model.
- **`massMinimiser`** — a solver whose answers the callback objects to; `massMinimiser_lazy`, `massMinimiser_eager`.
- **`lazy_solve_agrees`** — the main statement.
-/

namespace InfluenceDiagrams

/-! ## The two models -/

namespace Diagram

/-- The constraints of a lazy model, without their names. -/
def lazyRows (dia : Diagram Rat) (rules : List ForbiddenRule) (fixed : FixedStates) : List (Constraint Rat) :=
  (dia.linkedConstraints rules fixed).map Prod.snd

/-- The constraints of an eager model, without their names. -/
def eagerRows (dia : Diagram Rat) (rules : List ForbiddenRule) (fixed : FixedStates) (scale : Rat) :
    List (Constraint Rat) :=
  dia.lazyRows rules fixed ++ [dia.probabilityConstraint rules fixed scale]

variable {dia : Diagram Rat} {rules : List ForbiddenRule} {fixed : FixedStates} {scale : Rat}
  {p : Problem Rat} {e : LinearExpr Rat} {sense : Sense} {point : VarKey → Rat}

section Points

variable (h : dia.Accepted) (hfixed : fixed.Within dia.S) (hdecision : dia.D ≠ [])

include h hfixed hdecision in
theorem linked_iff_rows : dia.Linked rules fixed point ↔
    ∀ c ∈ dia.lazyRows rules fixed, c.Holds point ∧ ∀ v ∈ c.vars, Problem.Admits point v := by
  let q : Problem Rat := { Problem.empty "" with constraints := dia.linkedConstraints rules fixed }
  have hvars : ∀ c ∈ q.constraints, ∀ v ∈ c.2.vars, v ∈ dia.modelVariables rules fixed := by
    intro c hc
    exact vars_linkedConstraints c hc
  have hfeasible := Problem.feasible_iff (p := q) (dia.modelVariables rules fixed)
    (fun v hv w hw => modelVariables_eq_of_key hv hw) hvars (occurs_linkedConstraints h hfixed hdecision) point
  rw [linked_iff, ← hfeasible, lazyRows, List.forall_mem_map]
  refine forall₂_congr fun c _ => and_congr_right fun _ => ?_
  exact List.forall_mem_map.symm

include h hfixed hdecision in
/-- A problem with the constraints of a lazy model permits what ties the path variables to the decisions. -/
theorem permits_lazy_iff (hp : p.Poses (dia.lazyRows rules fixed) e sense) :
    p.Permits point ↔ dia.Linked rules fixed point ∧ ∀ v ∈ (e.anchored 0).vars, Problem.Admits point v := by
  rw [hp.permits_iff, linked_iff_rows h hfixed hdecision]

include h hfixed hdecision in
/-- A problem with the constraints of an eager model permits the solutions. -/
theorem permits_eager_iff (hscale : 0 < scale) (hp : p.Poses (dia.eagerRows rules fixed scale) e sense) :
    p.Permits point ↔ dia.Solution rules fixed point ∧ ∀ v ∈ (e.anchored 0).vars, Problem.Admits point v := by
  rw [hp.permits_iff, eagerRows, List.forall_mem_append, List.forall_mem_singleton,
    ← linked_iff_rows h hfixed hdecision, holds_probabilityConstraint hscale]
  refine and_congr_left fun _ => ?_
  constructor
  · rintro ⟨hlinked, htotal, -⟩
    exact ⟨hlinked, htotal⟩
  · intro hsol
    refine ⟨hsol.toLinked, hsol.total, ?_⟩
    -- the variables of the last constraint occur in the others
    intro v hv
    exact (linked_iff.1 hsol.toLinked).1 v (vars_probabilityConstraint v hv)

end Points

end Diagram

/-! ## The end of a run -/

/-- A solver is right about the problems with some constraints and an objective, whenever it is asked. -/
def Answers.RightAbout (answer : Answers Rat) (cs : List (Constraint Rat)) (e : LinearExpr Rat) (sense : Sense) :
    Prop :=
  ∀ call p, p.Poses cs e sense → (answer call p).Correct p

/-- What a run says at the end is right about a problem: nothing is permitted, or it has the best value. -/
def SolveResult.Settles (result : SolveResult Rat) (p : Problem Rat) : Prop :=
  ((¬∃ point, p.Permits point) ∧ result.status = .infeasible ∧ result.objective = none) ∨
    ∃ point, p.Optimal point ∧ result.status = .optimal ∧ result.objective = some (p.worth point)

/-- The results of problems with the same constraints and the same objective. -/
theorem SolveResult.Settles.congr {r : SolveResult Rat} {p q : Problem Rat} {cs : List (Constraint Rat)}
    {e : LinearExpr Rat} {sense : Sense} (h : r.Settles p) (hp : p.Poses cs e sense) (hq : q.Poses cs e sense) :
    r.Settles q := by
  rcases h with ⟨hnone, hresult⟩ | ⟨point, hopt, hstatus, hvalue⟩
  · refine Or.inl ⟨?_, hresult⟩
    rintro ⟨point, hpoint⟩
    exact hnone ⟨point, (hp.permits_congr hq).2 hpoint⟩
  · have hpoint := (hp.permits_congr hq).1 hopt.permits
    refine Or.inr ⟨point, hopt.of_relaxed hp hq (List.Subset.refl cs) hpoint, hstatus, ?_⟩
    rw [hvalue, hp.worth_eq hopt.permits, hq.worth_eq hpoint]

/-- A problem has one result. -/
theorem SolveResult.Settles.agree {r r' : SolveResult Rat} {p : Problem Rat} (h : r.Settles p)
    (h' : r'.Settles p) : r'.status = r.status ∧ r'.objective = r.objective := by
  rcases h with ⟨hnone, hstatus, hvalue⟩ | ⟨a, ha, hstatus, hvalue⟩ <;>
    rcases h' with ⟨hnone', hstatus', hvalue'⟩ | ⟨b, hb, hstatus', hvalue'⟩
  · exact ⟨hstatus'.trans hstatus.symm, hvalue'.trans hvalue.symm⟩
  · exact absurd ⟨b, hb.permits⟩ hnone
  · exact absurd ⟨a, ha.permits⟩ hnone'
  · refine ⟨hstatus'.trans hstatus.symm, ?_⟩
    rw [hvalue', hvalue, (hb.best a ha.permits).antisymm (ha.best b hb.permits)]

/-- The callbacks that have not submitted are the only ones that may submit. -/
theorem DecisionModel.submissions_eq_nil {m : DecisionModel Rat} {c : Candidate Rat}
    (h : ∀ cb ∈ m.callbacks, cb.added = true) : m.submissions c = [] := by
  rw [submissions, List.filterMap_eq_nil_iff]
  intro i _
  rw [submissionAt]
  cases hcb : m.callbacks[i]? with
  | none => rfl
  | some cb =>
      rw [Option.bind_some, if_pos (h cb (List.mem_of_getElem? hcb))]

theorem DecisionModel.submissions_singleton {m : DecisionModel Rat} {c : Candidate Rat} {cb : LazyCallback Rat}
    {answer : Option (LazyConstraint Rat)} (hcallbacks : m.callbacks = [cb]) (hadded : cb.added = false)
    (hanswer : cb.evaluate c = .ok answer) :
    m.submissions c = (answer.map fun cut => ⟨0, cb.name, cut⟩).toList := by
  have hfirst : m.submissionAt c 0 = answer.map fun cut => ⟨0, cb.name, cut⟩ :=
    submissionAt_eq (by rw [hcallbacks]; rfl) hadded hanswer
  rw [submissions, hcallbacks]
  show List.filterMap (m.submissionAt c) [0] = _
  cases answer with
  | none => rw [List.filterMap_cons_none hfirst]; rfl
  | some cut => rw [List.filterMap_cons_some hfirst]; rfl

/-- A callback that has submitted does not object again: the next answer ends the run. -/
theorem solveRounds_marked {answer : Answers Rat} (left : Nat) {call : Nat} {w : Workspace Rat} {verdict : Verdict Rat}
    (hverdict : answer call w.question = verdict) (hmarked : ∀ cb ∈ w.model.callbacks, cb.added = true) :
    ∃ v, (v = w.answered verdict ∨ v = (w.answered verdict).shown) ∧
      (solveRounds answer.solver left call).runOn w = (.ok (verdict.status, call), v) := by
  by_cases hstop : verdict.status ≠ .optimal ∨ w.model.callbacks = []
  · exact ⟨_, Or.inl rfl, solveRounds_stop hverdict hstop⟩
  · rw [not_or, not_not] at hstop
    let v := (w.answered verdict).shown
    have hanswers : v.model.AnswersTo v.model.candidate := by
      intro cb hcb hadded
      rw [hmarked cb hcb] at hadded
      cases hadded
    refine ⟨v, Or.inr rfl, ?_⟩
    rw [solveRounds_offer hverdict hstop.1 hstop.2 rfl hanswers (DecisionModel.submissions_eq_nil hmarked),
      if_pos rfl, hstop.1]

namespace Workspace.Asks

variable {w : Workspace Rat} {cs : List (Constraint Rat)} {e : LinearExpr Rat} {sense : Sense}
  {answer : Answers Rat} {verdict : Verdict Rat}

/-- A run that ends after a right answer is right about the question. -/
theorem exists_result (h : w.Asks cs e sense) (hcorrect : verdict.Correct w.question) {v : Workspace Rat}
    (hv : v = w.answered verdict ∨ v = (w.answered verdict).shown) (rounds : Nat) :
    ∃ result, v.model.conclusion verdict.status rounds = .ok result ∧ result.Settles w.question := by
  by_cases hpermits : ∃ point, w.question.Permits point
  · obtain ⟨hstatus, point, hopt, hreports⟩ := hcorrect.optimal hpermits
    have hvalues : v.model.values = (w.answered verdict).model.values := by rcases hv with rfl | rfl <;> rfl
    have hobjective : v.model.problem.objective = (w.answered verdict).model.problem.objective := by
      rcases hv with rfl | rfl
      · rfl
      · exact Problem.objective_observe _
    rw [hstatus, h.conclusion_eq hopt.permits hreports hvalues hobjective]
    refine ⟨_, rfl, Or.inr ⟨point, hopt, rfl, ?_⟩⟩
    rw [h.question.worth_eq hopt.permits]
  · have hstatus := hcorrect.infeasible hpermits
    rw [hstatus]
    exact ⟨_, rfl, Or.inl ⟨hpermits, rfl, rfl⟩⟩

/-- Without an optimum, or without callbacks, the first answer ends the run. -/
theorem solve_stop (h : w.Asks cs e sense) (hverdict : answer 0 w.question = verdict)
    (hcorrect : verdict.Correct w.question) (hstop : verdict.status ≠ .optimal ∨ w.model.callbacks = []) :
    ∃ result, (solve answer.solver).runOn w = (.ok result, w.answered verdict) ∧ result.Settles w.question := by
  obtain ⟨result, hresult, hsettles⟩ := h.exists_result hcorrect (Or.inl rfl) 0
  refine ⟨result, ?_, hsettles⟩
  rw [solve_eq_conclusion (solveRounds_stop hverdict hstop), hresult]

section OneCallback

variable {cb : LazyCallback Rat} {cut : Constraint Rat} (hcallbacks : w.model.callbacks = [cb])
  (hadded : cb.added = false)

include hcallbacks hadded in
/-- What one callback has to say about an optimum, and how the run goes on if that has no name. -/
theorem solveRounds_single (hverdict : answer 0 w.question = verdict) (hstatus : verdict.status = .optimal)
    {v : Workspace Rat} (hv : v = (w.answered verdict).shown) {objection : Option (LazyConstraint Rat)}
    (hanswer : cb.evaluate v.model.candidate = .ok objection) (hname : ∀ cut ∈ objection, cut.name = none) :
    (solveRounds answer.solver (pendingCallbacks w.model) 0).runOn w = objection.elim (.ok (.optimal, 0), v)
      fun cut => (solveRounds answer.solver 0 1).runOn (v.enforced [⟨0, cb.name, cut⟩]) := by
  have hpending : pendingCallbacks w.model = 0 + 1 := by
    rw [pendingCallbacks, hcallbacks, List.countP_singleton, hadded]
    rfl
  have hsame : v.model.callbacks = [cb] := by
    rw [hv]
    exact hcallbacks
  have hanswers : v.model.AnswersTo v.model.candidate := by
    intro cb' hcb' _
    rw [hsame, List.mem_singleton] at hcb'
    rw [hcb']
    exact ⟨objection, hanswer⟩
  have hss := DecisionModel.submissions_singleton hsame hadded hanswer
  rw [hpending, solveRounds_offer hverdict hstatus (by rw [hcallbacks]; exact List.cons_ne_nil _ _) hv hanswers hss]
  cases objection with
  | none => rfl
  | some cut =>
      obtain ⟨name, c⟩ := cut
      obtain rfl : name = none := hname _ rfl
      have hfault : (v.model.problem.enforce [⟨none, c⟩]).2 = none :=
        congrArg Prod.snd (Problem.enforce_unnamed v.model.problem c)
      refine (if_neg (List.cons_ne_nil _ _)).trans ?_
      simp only [Option.map_some, Option.toList_some, List.map_singleton, hfault]
      rfl

include hcallbacks hadded in
/-- If the callback does not object, the run ends with the optimum of the relaxation. -/
theorem solve_settle (h : w.Asks cs e sense) (hverdict : answer 0 w.question = verdict)
    (hstatus : verdict.status = .optimal) {point : VarKey → Rat} (hpoint : w.question.Permits point)
    (hreports : verdict.Reports w.question point)
    (hnone : cb.evaluate (w.answered verdict).shown.model.candidate = .ok none) :
    (solve answer.solver).runOn w = (.ok ⟨.optimal, some (e.eval point), 0⟩, (w.answered verdict).shown) := by
  have hrun := solveRounds_single hcallbacks hadded hverdict hstatus rfl hnone (fun _ hcut => nomatch hcut)
  have hconclusion := h.conclusion_eq (v := (w.answered verdict).shown) hpoint hreports rfl
    (Problem.objective_observe _) 0
  rw [solve_eq_conclusion hrun, hconclusion]

include hcallbacks hadded in
/-- If the callback objects, the run ends with a right answer about all constraints. -/
theorem solve_again (h : w.Asks cs e sense) (hverdict : answer 0 w.question = verdict)
    (hstatus : verdict.status = .optimal) (hright : answer.RightAbout (cs ++ [cut]) e sense)
    (hcut : cb.evaluate (w.answered verdict).shown.model.candidate = .ok (some (.unnamed cut))) :
    ∃ result w' p, (solve answer.solver).runOn w = (.ok result, w') ∧ p.Poses (cs ++ [cut]) e sense ∧
      result.Settles p ∧ w'.model.submitted = w.model.submitted ++ [(cb.name, .unnamed cut)] := by
  let s : Submission Rat := ⟨0, cb.name, .unnamed cut⟩
  let v := (w.answered verdict).shown.enforced [s]
  have hasks : v.Asks (cs ++ [cut]) e sense := (h.answered verdict).shown.enforced rfl
  have hmarked : ∀ cb' ∈ v.model.callbacks, cb'.added = true := by
    intro cb' hcb'
    change cb' ∈ w.model.callbacks.modify 0 _ at hcb'
    rw [hcallbacks] at hcb'
    rw [List.mem_singleton.1 hcb']
  obtain ⟨w', hw', hrest⟩ := solveRounds_marked 0 (show answer 1 v.question = _ from rfl) hmarked
  obtain ⟨result, hresult, hsettles⟩ := hasks.exists_result (hright 1 v.question hasks.question) hw' 1
  refine ⟨result, w', v.question, ?_, hasks.question, hsettles, ?_⟩
  · have hrun := solveRounds_single hcallbacks hadded hverdict hstatus rfl hcut (by rintro _ ⟨⟩; rfl)
    rw [solve_eq_conclusion (hrun.trans hrest), hresult]
  · rcases hw' with rfl | rfl <;> rfl

include hcallbacks hadded in
/-- **Relaxation.** Let a callback object to the reported points that do not satisfy a constraint, by submitting
it. Then a run is right about the problem with the constraint, and submits it or nothing. -/
theorem solve_relaxed (h : w.Asks cs e sense) (hright : answer.RightAbout cs e sense)
    (hright' : answer.RightAbout (cs ++ [cut]) e sense) {p : Problem Rat} (hp : p.Poses (cs ++ [cut]) e sense)
    (hevaluate : ∀ verdict point, w.question.Permits point → verdict.Reports w.question point →
      p.Permits point ∧ cb.evaluate (w.answered verdict).shown.model.candidate = .ok none ∨
        cb.evaluate (w.answered verdict).shown.model.candidate = .ok (some (.unnamed cut))) :
    ∃ result w', (solve answer.solver).runOn w = (.ok result, w') ∧ result.Settles p ∧
      (w'.model.submitted = w.model.submitted ∨
        w'.model.submitted = w.model.submitted ++ [(cb.name, .unnamed cut)]) := by
  have hsub : cs ⊆ cs ++ [cut] := List.subset_append_left _ _
  have hcorrect := hright 0 w.question h.question
  by_cases hpermits : ∃ point, w.question.Permits point
  · obtain ⟨hstatus, point, hopt, hreports⟩ := hcorrect.optimal hpermits
    rcases hevaluate _ point hopt.permits hreports with ⟨hpoint, hnone⟩ | hcut
    · -- the optimum of the relaxation is an optimum of the problem
      refine ⟨_, _, h.solve_settle hcallbacks hadded rfl hstatus hopt.permits hreports hnone, ?_, Or.inl rfl⟩
      refine Or.inr ⟨point, hopt.of_relaxed h.question hp hsub hpoint, rfl, ?_⟩
      rw [hp.worth_eq hpoint]
    · -- the second question is about the problem itself
      obtain ⟨result, w', q, hrun, hq, hsettles, hsubmitted⟩ :=
        h.solve_again hcallbacks hadded rfl hstatus hright' hcut
      exact ⟨result, w', hrun, hsettles.congr hq hp, Or.inr hsubmitted⟩
  · -- what the relaxation does not permit the problem does not permit
    have hstatus := hcorrect.infeasible hpermits
    obtain ⟨result, hrun, hsettles⟩ := h.solve_stop rfl hcorrect (Or.inl (by rw [hstatus]; decide))
    refine ⟨result, _, hrun, ?_, Or.inl rfl⟩
    rcases hsettles with ⟨hnone, hresult⟩ | ⟨point, hopt, -⟩
    · refine Or.inl ⟨?_, hresult⟩
      rintro ⟨point, hpoint⟩
      exact hnone ⟨point, h.question.permits_of_subset hp hsub hpoint⟩
    · exact absurd ⟨point, hopt.permits⟩ hpermits

end OneCallback

end Workspace.Asks

/-! ## The two runs of a diagram -/

namespace Diagram

variable {dia : Diagram Rat} {rules : List ForbiddenRule} {fixed : FixedStates} {options : ModelOptions Rat}
  {e : LinearExpr Rat} {sense : Sense} {answer : Answers Rat}

theorem asks_eager (dia : Diagram Rat) (rules : List ForbiddenRule) (fixed : FixedStates)
    (heager : options.lazyCuts = false) (e : LinearExpr Rat) (sense : Sense) :
    ((dia.assembled rules fixed options).aimed e sense).Asks (dia.eagerRows rules fixed options.scale) e sense := by
  apply Workspace.Asks.aimed
  rw [constraints_eager heager, modelConstraints, List.map_append]
  rfl

theorem asks_lazy (dia : Diagram Rat) (rules : List ForbiddenRule) (fixed : FixedStates)
    (hlazy : options.lazyCuts = true) (e : LinearExpr Rat) (sense : Sense) :
    ((dia.assembled rules fixed options).aimed e sense).Asks (dia.lazyRows rules fixed) e sense := by
  apply Workspace.Asks.aimed
  rw [constraints_lazy hlazy]
  rfl

/-- **The eager run** is right about the eager model. -/
theorem eager_settles (heager : options.lazyCuts = false)
    (hright : answer.RightAbout (dia.eagerRows rules fixed options.scale) e sense) {p : Problem Rat}
    (hp : p.Poses (dia.eagerRows rules fixed options.scale) e sense) :
    ∃ result w',
      (solve answer.solver).runOn ((dia.assembled rules fixed options).aimed e sense) = (.ok result, w') ∧
      result.Settles p := by
  have hasks := asks_eager dia rules fixed heager e sense
  obtain ⟨result, hrun, hsettles⟩ :=
    hasks.solve_stop rfl (hright 0 _ hasks.question) (Or.inr (callbacks_eager heager))
  exact ⟨result, _, hrun, hsettles.congr hasks.question hp⟩

/-- **The lazy run** is right about the eager model, and submits the constraint of that model or nothing. -/
theorem lazy_settles (h : dia.Accepted) (hdecision : dia.D ≠ []) (hfixed : fixed.Within dia.S)
    (hlazy : options.lazyCuts = true) (htolerance : options.tolerance = 0) (hscale : 0 < options.scale)
    (he : e.Within (dia.modelVariables rules fixed)) (hright : answer.RightAbout (dia.lazyRows rules fixed) e sense)
    (hright' : answer.RightAbout (dia.eagerRows rules fixed options.scale) e sense) {p : Problem Rat}
    (hp : p.Poses (dia.eagerRows rules fixed options.scale) e sense) :
    ∃ result w',
      (solve answer.solver).runOn ((dia.assembled rules fixed options).aimed e sense) = (.ok result, w') ∧
      result.Settles p ∧ (w'.model.submitted = [] ∨
        w'.model.submitted =
          [(probabilityCutName, .unnamed (dia.probabilityConstraint rules fixed options.scale))]) := by
  let cb := dia.probabilityCallback rules fixed options
  have hasks := asks_lazy dia rules fixed hlazy e sense
  have hcallbacks : ((dia.assembled rules fixed options).aimed e sense).model.callbacks = [cb] := callbacks_lazy hlazy
  refine hasks.solve_relaxed hcallbacks rfl hright hright' hp ?_
  intro verdict point hpoint hreports
  obtain ⟨hlinked, hadmits⟩ := (permits_lazy_iff h hfixed hdecision hasks.question).1 hpoint
  have hanswer : cb.evaluate (((dia.assembled rules fixed options).aimed e sense).answered
      verdict).shown.model.candidate = _ :=
    evaluateProbabilityCut_eq (gives_shown h hfixed hdecision he hreports) (le_of_eq htolerance.symm)
  rw [hanswer, htolerance]
  by_cases hmass : ((dia.memberPaths rules fixed).map fun s => dia.prob s * shareAt point s).sum = 1
  · rw [if_pos (by rw [hmass, sub_self, abs_zero])]
    exact Or.inl ⟨(permits_eager_iff h hfixed hdecision hscale hp).2 ⟨⟨hlinked, hmass⟩, hadmits⟩, rfl⟩
  · rw [if_neg (by rwa [abs_nonpos_iff, sub_eq_zero, eq_comm])]
    exact Or.inr rfl

end Diagram

/-! ## A solver that takes no path -/

/-- The point that differs from another one in that no path is taken. -/
def idle (point : VarKey → Rat) : VarKey → Rat := fun key => if key.family = 1 then 0 else point key

/-- An answer with the values of a point. -/
def Verdict.reporting (vs : List (Variable Rat)) (point : VarKey → Rat) : Verdict Rat :=
  ⟨.optimal, vs.map fun v => (v.key, some (.real (point v.key)))⟩

namespace Diagram

/-- A solver that minimises the probability of the paths taken. If it is asked about the constraints of the lazy
model, it takes none of the paths that a point takes. -/
def massMinimiser (dia : Diagram Rat) (rules : List ForbiddenRule) (fixed : FixedStates) (point : VarKey → Rat) :
    Answers Rat := fun _ p => .reporting (dia.modelVariables rules fixed)
  (if p.constraints.length = (dia.lazyRows rules fixed).length then idle point else point)

variable {dia : Diagram Rat} {rules : List ForbiddenRule} {fixed : FixedStates} {scale : Rat}
  {point : VarKey → Rat} {p : Problem Rat} {cs : List (Constraint Rat)}

theorem sum_shares_nonneg (h : dia.Linked rules fixed point) (d : InfoNode) (index : Path) :
    0 ≤ ((dia.membersThrough rules fixed d index).map (shareAt point)).sum := by
  apply List.sum_nonneg
  intro x hx
  obtain ⟨s, hs, rfl⟩ := List.mem_map.1 hx
  exact (h.share s (mem_membersThrough.1 hs).1).1

/-- Nothing requires that a path is taken. -/
theorem linked_idle (h : dia.Linked rules fixed point) : dia.Linked rules fixed (idle point) where
  binary := h.binary
  share := fun _ _ => ⟨le_rfl, zero_le_one⟩
  one := h.one
  through := by
    intro d hd index hindex hne
    have hnone : ((dia.membersThrough rules fixed d index).map (shareAt (idle point))).sum = 0 := by
      apply List.sum_eq_zero
      intro x hx
      obtain ⟨s, -, rfl⟩ := List.mem_map.1 hx
      rfl
    rw [hnone]
    exact (sum_shares_nonneg h d index).trans (h.through d hd index hindex hne)

theorem eval_massExpr_idle : (dia.massExpr rules fixed scale).eval (idle point) = 0 := by
  rw [eval_massExpr, List.sum_eq_zero, zero_mul]
  intro x hx
  obtain ⟨s, -, rfl⟩ := List.mem_map.1 hx
  exact mul_zero _

theorem eval_massExpr_nonneg (h : dia.Linked rules fixed point) (hscale : 0 < scale) :
    0 ≤ (dia.massExpr rules fixed scale).eval point := by
  rw [eval_massExpr]
  refine mul_nonneg (List.sum_nonneg ?_) hscale.le
  intro x hx
  obtain ⟨s, hs, rfl⟩ := List.mem_map.1 hx
  exact mul_nonneg (prob_pos_of_member hs).le (h.share s hs).1

section Terms

variable (hscale : 0 < scale) (hmember : dia.memberPaths rules fixed ≠ [])

include hscale hmember in
theorem anchored_massExpr : (dia.massExpr rules fixed scale).anchored 0 = dia.massExpr rules fixed scale := by
  obtain ⟨s, hs⟩ := List.exists_mem_of_ne_nil _ hmember
  have hkey := key_mem_massExpr hscale hs
  rw [LinearExpr.anchored, if_neg]
  intro hempty
  rw [LinearExpr.keys, LinearExpr.vars, List.isEmpty_iff.1 hempty] at hkey
  cases hkey

include hscale hmember in
/-- A solver that reports an optimal point is right. -/
theorem correct_reporting (hp : p.Poses cs (dia.massExpr rules fixed scale) .minimize)
    (hcs : ∀ c ∈ cs, ∀ v ∈ c.vars, v ∈ dia.modelVariables rules fixed) (hpoint : p.Permits point)
    (hbest : ∀ q, p.Permits q →
      (dia.massExpr rules fixed scale).eval point ≤ (dia.massExpr rules fixed scale).eval q) :
    (Verdict.reporting (dia.modelVariables rules fixed) point).Correct p := by
  refine ⟨fun hnone => absurd ⟨point, hpoint⟩ hnone, fun _ => ⟨rfl, point, ⟨hpoint, ?_⟩, ?_⟩⟩
  · intro q hq
    rw [hp.sense_eq, hp.worth_eq hpoint, hp.worth_eq hq]
    exact hbest q hq
  · intro v hv
    have hmem : v ∈ dia.modelVariables rules fixed := by
      rcases hp.mem_occurring.1 hv with ⟨c, hc, hv⟩ | hv
      · exact hcs c hc v hv
      · rw [anchored_massExpr hscale hmember] at hv
        exact vars_probabilityConstraint v hv
    exact ⟨.real (point v.key), Keyed.find?_map_of_mem (fun key => some (Numeral.real (point key))) hmem, rfl⟩

end Terms

section Right

variable (h : dia.Accepted) (hfixed : fixed.Within dia.S) (hdecision : dia.D ≠ []) (hscale : 0 < scale)
  (hmember : dia.memberPaths rules fixed ≠ []) (hsol : dia.Solution rules fixed point)

include hscale hmember in
theorem admits_massExpr (hlinked : dia.Linked rules fixed point) :
    ∀ v ∈ ((dia.massExpr rules fixed scale).anchored 0).vars, Problem.Admits point v := by
  intro v hv
  rw [anchored_massExpr hscale hmember] at hv
  exact (linked_iff.1 hlinked).1 v (vars_probabilityConstraint v hv)

include h hfixed hdecision hscale hmember hsol

/-- About the relaxation it is right, since nothing is less than no path. -/
theorem massMinimiser_lazy : (dia.massMinimiser rules fixed point).RightAbout (dia.lazyRows rules fixed)
    (dia.massExpr rules fixed scale) .minimize := by
  intro call p hp
  have hrows : p.constraints.length = (dia.lazyRows rules fixed).length := by
    rw [← hp.constraints, List.length_map]
  have hidle := linked_idle hsol.toLinked
  rw [massMinimiser, if_pos hrows]
  refine correct_reporting hscale hmember hp ?_ ?_ ?_
  · exact List.forall_mem_map.2 vars_linkedConstraints
  · exact (permits_lazy_iff h hfixed hdecision hp).2 ⟨hidle, admits_massExpr hscale hmember hidle⟩
  · intro q hq
    rw [eval_massExpr_idle]
    exact eval_massExpr_nonneg ((permits_lazy_iff h hfixed hdecision hp).1 hq).1 hscale

/-- About the model it is right, since the constraint leaves no choice. -/
theorem massMinimiser_eager : (dia.massMinimiser rules fixed point).RightAbout (dia.eagerRows rules fixed scale)
    (dia.massExpr rules fixed scale) .minimize := by
  intro call p hp
  have hrows : p.constraints.length ≠ (dia.lazyRows rules fixed).length := by
    rw [← List.length_map (f := Prod.snd), hp.constraints, eagerRows, List.length_append]
    exact Nat.succ_ne_self _
  rw [massMinimiser, if_neg hrows]
  refine correct_reporting hscale hmember hp ?_ ?_ ?_
  · rw [eagerRows, List.forall_mem_append, List.forall_mem_singleton]
    exact ⟨List.forall_mem_map.2 vars_linkedConstraints, vars_probabilityConstraint⟩
  · exact (permits_eager_iff h hfixed hdecision hscale hp).2 ⟨hsol, admits_massExpr hscale hmember hsol.toLinked⟩
  · intro q hq
    rw [eval_massExpr, eval_massExpr, hsol.total, ((permits_eager_iff h hfixed hdecision hscale hp).1 hq).1.total]

end Right

end Diagram

/-! ## The main statement -/

/-- **A lazy constraint gives the same optimum.** Take a diagram with a state for every node, a decision node and
probability tables that match. With the constraint on the probabilities from the start, and with a callback for
it that has no tolerance, the same variables are built, and the constraints are the same but for that one. What
the callback submits is the constraint itself. Let the objective be linear in these variables, and let solvers be
right about it under either set of constraints. Then both models come to the same status and the same value, and
the lazy one submits the constraint at most once. -/
theorem lazy_solve_agrees {dia : Diagram Rat} (h : dia.Tabulated) (hpos : ∀ n ∈ dia.S, 1 ≤ n)
    (hdecision : dia.D ≠ []) {rules : List ForbiddenRule} (hrules : RulesWithin rules dia.S) {fixed : FixedStates}
    (hfixed : fixed.Within dia.S) {options : ModelOptions Rat} (hscale : 0 < options.scale) :
    ∃ z x eager lazy cut cb,
      (assemble dia { options with lazyCuts := false } rules fixed).runOn (.empty options.name) =
        (.ok (z, x), eager) ∧
      (assemble dia { options with lazyCuts := true, tolerance := 0 } rules fixed).runOn (.empty options.name) =
        (.ok (z, x), lazy) ∧
      eager.model.problem.constraints = lazy.model.problem.constraints ++ [(probabilityCutName, cut)] ∧
      eager.model.callbacks = [] ∧ lazy.model.callbacks = [cb] ∧
      (∀ c answer, cb.evaluate c = .ok (some answer) → answer = .unnamed cut) ∧
      ∀ (e : LinearExpr Rat) (sense : Sense), e.Within (z.flatMap (fun d => d.z.map Prod.snd) ++ x.vars) →
        ∀ answer answer' : Answers Rat,
          answer.RightAbout (eager.model.problem.constraints.map Prod.snd) e sense →
          answer'.RightAbout (eager.model.problem.constraints.map Prod.snd) e sense →
          answer'.RightAbout (lazy.model.problem.constraints.map Prod.snd) e sense →
          ∃ r r' w w',
            Build.runOn (do Build.setObjective (some e) sense; solve answer.solver) eager = (.ok r, w) ∧
            Build.runOn (do Build.setObjective (some e) sense; solve answer'.solver) lazy = (.ok r', w') ∧
            r'.status = r.status ∧ r'.objective = r.objective ∧
            (w'.model.submitted = [] ∨ w'.model.submitted = [(probabilityCutName, .unnamed cut)]) := by
  let eagerOptions : ModelOptions Rat := { options with lazyCuts := false }
  let lazyOptions : ModelOptions Rat := { options with lazyCuts := true, tolerance := 0 }
  let eager := dia.assembled rules fixed eagerOptions
  let lazy := dia.assembled rules fixed lazyOptions
  have hoff : eagerOptions.lazyCuts = false := rfl
  have hon : lazyOptions.lazyCuts = true := rfl
  have heager : eager.model.problem.constraints = dia.modelConstraints rules fixed options.scale :=
    Diagram.constraints_eager hoff
  have hlazy : lazy.model.problem.constraints = dia.linkedConstraints rules fixed := Diagram.constraints_lazy hon
  refine ⟨_, _, eager, lazy, dia.probabilityConstraint rules fixed options.scale, _,
    Diagram.assemble_eq h hpos hrules hfixed hscale, Diagram.assemble_eq h hpos hrules hfixed hscale,
    ?_, rfl, rfl, ?_, ?_⟩
  · rw [heager, hlazy]
    rfl
  · intro c answer hanswer
    exact Diagram.eq_of_evaluateProbabilityCut hanswer
  · intro e sense he answer answer' hright hright' hrelaxed
    have heagerRows : eager.model.problem.constraints.map Prod.snd = dia.eagerRows rules fixed options.scale := by
      rw [heager, Diagram.modelConstraints, List.map_append]
      rfl
    rw [heagerRows] at hright hright'
    rw [hlazy] at hrelaxed
    rw [Diagram.modelVariables_eq] at he
    -- the question of the eager run is the problem that both runs are right about
    have hp := (Diagram.asks_eager dia rules fixed hoff e sense).question
    obtain ⟨r, w, hrun, hsettles⟩ := Diagram.eager_settles hoff hright hp
    obtain ⟨r', w', hrun', hsettles', hsubmitted⟩ :=
      Diagram.lazy_settles h.accepted hdecision hfixed hon rfl hscale he hrelaxed hright' hp
    obtain ⟨hstatus, hobjective⟩ := hsettles.agree hsettles'
    refine ⟨r, r', w, w', ?_, ?_, hstatus, hobjective, hsubmitted⟩
    · rw [Build.runOn_bind_ok (Build.runOn_setObjective e sense eager), hrun]
    · rw [Build.runOn_bind_ok (Build.runOn_setObjective e sense lazy), hrun']

theorem lazy_solve_agrees_umbrella :
    ∃ z x eager lazy e answer r r' w w',
      (assemble umbrella { ModelOptions.default with lazyCuts := false } [] .empty).runOn
        (.empty ModelOptions.defaultName) = (.ok (z, x), eager) ∧
      (assemble umbrella { ModelOptions.default with lazyCuts := true, tolerance := 0 } [] .empty).runOn
        (.empty ModelOptions.defaultName) = (.ok (z, x), lazy) ∧
      e.Within (z.flatMap (fun d => d.z.map Prod.snd) ++ x.vars) ∧
      Answers.RightAbout answer (eager.model.problem.constraints.map Prod.snd) e .minimize ∧
      Answers.RightAbout answer (lazy.model.problem.constraints.map Prod.snd) e .minimize ∧
      Build.runOn (do Build.setObjective (some e) .minimize; solve answer.solver) eager = (.ok r, w) ∧
      Build.runOn (do Build.setObjective (some e) .minimize; solve answer.solver) lazy = (.ok r', w') ∧
      r'.status = r.status ∧ r'.objective = r.objective := by
  have hwell := umbrella_wellFormed
  have hdecision : umbrella.D ≠ [] := by decide
  have hrules := rulesWithin_nil umbrella.S
  have hfixed := FixedStates.within_empty umbrella.S
  have hscale : 0 < (ModelOptions.default : ModelOptions Rat).scale := by decide
  have hmember : umbrella.memberPaths [] .empty ≠ [] := List.ne_nil_of_mem
    (show [0, 0, 0, 0] ∈ umbrella.memberPaths [] .empty by decide +kernel)
  obtain ⟨point, hpoint⟩ := Diagram.exists_encodes [] .empty hwell umbrellaStrategy_fits rfl
  have hsol := Diagram.solution_of_encodes hwell hfixed
    (Diagram.admissible_unrestricted umbrellaStrategy_fits rfl) hpoint
  let eagerOptions : ModelOptions Rat := { ModelOptions.default with lazyCuts := false }
  let lazyOptions : ModelOptions Rat := { ModelOptions.default with lazyCuts := true, tolerance := 0 }
  have hoff : eagerOptions.lazyCuts = false := rfl
  have hon : lazyOptions.lazyCuts = true := rfl
  let e := umbrella.massExpr [] .empty ModelOptions.default.scale
  obtain ⟨z, x, eager, lazy, cut, cb, heager, hlazy, -, -, -, -, hruns⟩ :=
    lazy_solve_agrees hwell.tabulated hwell.counts_pos hdecision hrules hfixed hscale
  have heager' := Diagram.assemble_eq hwell.tabulated hwell.counts_pos hrules hfixed
    (show 0 < eagerOptions.scale from hscale)
  have hlazy' := Diagram.assemble_eq hwell.tabulated hwell.counts_pos hrules hfixed
    (show 0 < lazyOptions.scale from hscale)
  obtain ⟨hvars, rfl⟩ := Prod.mk.inj (heager.symm.trans heager')
  obtain ⟨-, rfl⟩ := Prod.mk.inj (hlazy.symm.trans hlazy')
  obtain ⟨rfl, rfl⟩ := Prod.mk.inj (Except.ok.inj hvars)
  have he : e.Within ((umbrella.D.map umbrella.decisionBlock).flatMap (fun d => d.z.map Prod.snd) ++
      (umbrella.pathBlock [] .empty).vars) := by
    rw [Diagram.modelVariables_eq]
    exact Diagram.vars_probabilityConstraint
  have hright := Diagram.massMinimiser_eager hwell.accepted hfixed hdecision hscale hmember hsol
  have hrelaxed := Diagram.massMinimiser_lazy hwell.accepted hfixed hdecision hscale hmember hsol
  rw [← (Diagram.asks_eager umbrella [] .empty hoff e .minimize).constraints] at hright
  rw [← (Diagram.asks_lazy umbrella [] .empty hon e .minimize).constraints] at hrelaxed
  obtain ⟨r, r', w, w', hrun, hrun', hstatus, hobjective, -⟩ := hruns e .minimize he _ _ hright hright hrelaxed
  exact ⟨_, _, _, _, e, _, r, r', w, w', heager, hlazy, he, hright, hrelaxed, hrun, hrun', hstatus, hobjective⟩

end InfluenceDiagrams
