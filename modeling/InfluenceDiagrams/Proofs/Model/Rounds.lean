import InfluenceDiagrams.Proofs.Model.Enforcement
import InfluenceDiagrams.Proofs.Model.Submission

/-!
# `InfluenceDiagrams.Proofs.Model.Rounds` — solving in rounds

A run asks the solver, shows the values found to the callbacks, adds what they submit, and goes on until the
solver finds no optimum or no callback objects. It ends with a fault if what is submitted has a name that is taken.
As written here the run has no bound. It needs none: a round in which callbacks submit leaves fewer of them,
whatever the solver answers. The program, which counts the rounds that can still come, therefore never stops a
run early.

## Contents
- **`Workspace.answered`, `Workspace.shown`, `Workspace.enforced`** — the workspace after each part of a round.
- **`Rounds`** — a run, with what is submitted in each of its rounds.
- **`runSolver_eq`, `offerPresent_eq`** — the program does each part of a round.
- **`Rounds.submits`, `Rounds.gains`, `Rounds.clashes`, `Rounds.settled`** — what a run preserves and where it stops.
- **`exists_rounds`, `Rounds.solve_eq`** — a run comes to an end, and the program does it.
- **`Session`** — any sequence of runs and direct calls of callbacks.
- **`solve_submits_once`** — the main statement.
-/

namespace InfluenceDiagrams

variable {α : Type}

/-! ## A run -/

/-- What a solver that never refuses says when it is asked for the first time, the second time and so on. -/
abbrev Answers (α : Type) := Nat → Problem α → Verdict α

namespace Workspace

/-- The workspace when the values found by a solver have become the present ones. -/
def answered [Scalar α] (w : Workspace α) (verdict : Verdict α) : Workspace α :=
  { w with model := { w.model with
      problem := w.model.problem.withAnchor.observe.afterAnchor w.model.problem.objective }.assign verdict.values }

/-- The workspace when the variables of the problem have been listed. -/
def shown (w : Workspace α) : Workspace α :=
  { w with model := { w.model with problem := w.model.problem.observe } }

/-- The workspace when some constraints have been submitted and added to the problem, as far as they can be. -/
def enforced (w : Workspace α) (ss : List (Submission α)) : Workspace α :=
  { w with model := { w.model.recordAll ss with
      problem := (w.model.problem.enforce (ss.map Submission.cut)).1 } }

end Workspace

section Runs

variable [Scalar α]

/-- A run from a question on: what is submitted after each question, the last status or a fault, and the workspace
at the end. -/
inductive Rounds (answer : Answers α) :
    Nat → Workspace α → List (List (Submission α)) → Except (Fault α) Status → Workspace α → Prop
  /-- Without an optimum, or without callbacks, the run ends. -/
  | stop {call : Nat} {w : Workspace α} {verdict : Verdict α}
      (hverdict : answer call w.model.problem.withAnchor.observe = verdict)
      (hstop : verdict.status ≠ .optimal ∨ w.model.callbacks = []) :
      Rounds answer call w [[]] (.ok verdict.status) (w.answered verdict)
  /-- If no callback objects to the optimum, the run ends. -/
  | settle {call : Nat} {w v : Workspace α} {verdict : Verdict α}
      (hverdict : answer call w.model.problem.withAnchor.observe = verdict) (hoptimal : verdict.status = .optimal)
      (hcallbacks : w.model.callbacks ≠ []) (hv : v = (w.answered verdict).shown)
      (hnone : v.model.submissions v.model.candidate = []) :
      Rounds answer call w [[]] (.ok .optimal) v
  /-- If what the callbacks submit has a name that is taken, it is not added, and the run ends. -/
  | clash {call : Nat} {w v : Workspace α} {verdict : Verdict α} {ss : List (Submission α)} {f : Fault α}
      (hverdict : answer call w.model.problem.withAnchor.observe = verdict) (hoptimal : verdict.status = .optimal)
      (hcallbacks : w.model.callbacks ≠ []) (hv : v = (w.answered verdict).shown)
      (hss : v.model.submissions v.model.candidate = ss)
      (hclash : (v.model.problem.enforce (ss.map Submission.cut)).2 = some f) :
      Rounds answer call w [ss] (.error f) (v.enforced ss)
  /-- What the callbacks submit is added, and the run goes on. -/
  | again {call : Nat} {w v w' : Workspace α} {verdict : Verdict α} {ss : List (Submission α)}
      {rounds : List (List (Submission α))} {ending : Except (Fault α) Status}
      (hverdict : answer call w.model.problem.withAnchor.observe = verdict) (hoptimal : verdict.status = .optimal)
      (hcallbacks : w.model.callbacks ≠ []) (hv : v = (w.answered verdict).shown)
      (hss : v.model.submissions v.model.candidate = ss) (hne : ss ≠ [])
      (hadded : (v.model.problem.enforce (ss.map Submission.cut)).2 = none)
      (hrest : Rounds answer (call + 1) (v.enforced ss) rounds ending w') :
      Rounds answer call w (ss :: rounds) ending w'

/-! ## The program does each part of a round -/

theorem runSolver_eq {solver : Solver α} {call : Nat} {w : Workspace α} {verdict : Verdict α}
    (h : solver call w.model.problem.withAnchor.observe = .ok verdict) :
    (runSolver solver call).runOn w = (.ok verdict.status, w.answered verdict) := by
  unfold runSolver
  rw [Build.runOn_bind_ok (Build.runOn_getModel w)]
  refine (Build.runOn_bind_ok (Build.runOn_modifyModel _ w)).trans ?_
  refine (Build.runOn_bind_ok (Build.runOn_lift_ok h _)).trans ?_
  refine (Build.runOn_bind_ok (Build.runOn_modifyModel _ _)).trans ?_
  rfl

omit [Scalar α] in
theorem offerPresent_eq {w : Workspace α} (h : w.shown.model.AnswersTo w.shown.model.candidate) :
    (offerPresent (α := α)).runOn w =
      (.ok ((w.shown.model.submissions w.shown.model.candidate).map Submission.cut),
        w.shown.recordAll (w.shown.model.submissions w.shown.model.candidate)) := by
  unfold offerPresent
  refine (Build.runOn_bind_ok (Build.runOn_modifyModel _ w)).trans ?_
  refine (Build.runOn_bind_ok (Build.runOn_getModel _)).trans ?_
  exact offerAll_eq _ h List.nodup_range

/-! ## What a run preserves -/

omit [Scalar α] in
/-- What is submitted together comes in the order of registration. -/
theorem DecisionModel.submissions_sorted (m : DecisionModel α) (c : Candidate α) :
    ((m.submissions c).map Submission.place).Pairwise (· < ·) := by
  rw [List.pairwise_map, submissions, List.pairwise_filterMap]
  refine List.pairwise_lt_range.imp ?_
  intro i j hij s hs t ht
  obtain ⟨_, -, -, -, heq⟩ := submissionAt_eq_some hs
  obtain ⟨_, -, -, -, heq'⟩ := submissionAt_eq_some ht
  rw [heq, heq']
  exact hij

omit [Scalar α] in
/-- If nothing is submitted, every callback has submitted before or does not object. -/
theorem DecisionModel.Answering.settled {m : DecisionModel α} (h : m.Answering) {c : Candidate α}
    (hnone : m.submissions c = []) : ∀ cb ∈ m.callbacks, cb.added = true ∨ cb.evaluate c = .ok none := by
  intro cb hcb
  obtain ⟨i, hi, rfl⟩ := List.getElem_of_mem hcb
  have hat := List.filterMap_eq_nil_iff.1 hnone i (List.mem_range.2 hi)
  obtain ⟨answer, hanswer⟩ := h _ hcb c
  rw [submissionAt, List.getElem?_eq_getElem hi, Option.bind_some, hanswer] at hat
  cases hadded : m.callbacks[i].added with
  | true => exact Or.inl rfl
  | false =>
      rw [hadded] at hat
      cases answer with
      | none => exact Or.inr hanswer
      | some cut => cases hat

namespace Problem

omit [Scalar α] in
theorem constraints_observe (p : Problem α) : p.observe.constraints = p.constraints := by
  unfold observe
  split <;> rfl

theorem constraints_withAnchor (p : Problem α) : p.withAnchor.constraints = p.constraints := by
  unfold withAnchor
  split <;> rfl

end Problem

theorem constraints_answered (w : Workspace α) (verdict : Verdict α) :
    (w.answered verdict).model.problem.constraints = w.model.problem.constraints :=
  (Problem.constraints_observe _).trans (Problem.constraints_withAnchor _)

theorem constraints_shown_answered (w : Workspace α) (verdict : Verdict α) :
    (w.answered verdict).shown.model.problem.constraints = w.model.problem.constraints :=
  (Problem.constraints_observe _).trans (constraints_answered w verdict)

omit [Scalar α] in
/-- What is submitted at a candidate is recorded. -/
theorem Submits.enforced (v : Workspace α) (c : Candidate α) :
    Submits v.model (v.model.submissions c) (v.enforced (v.model.submissions c)).model := by
  have h : Submits v.model (v.model.submissions c) (v.model.recordAll (v.model.submissions c)) :=
    recordAll List.nodup_range
  exact ⟨h.recorded, h.marked, h.unmarked, h.places_nodup, h.pending⟩

namespace Rounds

variable {answer : Answers α} {call : Nat} {w w' : Workspace α} {rounds : List (List (Submission α))}
  {ending : Except (Fault α) Status} {f : Fault α}

/-- **All rounds.** What is submitted in the rounds is recorded, and no callback submits twice. -/
theorem submits (h : Rounds answer call w rounds ending w') : Submits w.model rounds.flatten w'.model := by
  have hround : ∀ (w : Workspace α) (verdict : Verdict α) (c : Candidate α),
      Submits w.model ((w.answered verdict).shown.model.submissions c)
        ((w.answered verdict).shown.enforced ((w.answered verdict).shown.model.submissions c)).model := by
    intro w verdict c
    have hshown : Submits w.model [] (w.answered verdict).shown.model := Submits.refl rfl rfl
    exact hshown.trans (Submits.enforced _ c)
  induction h with
  | stop hverdict hstop => exact Submits.refl rfl rfl
  | settle hverdict hoptimal hcallbacks hv hnone =>
      subst hv
      exact Submits.refl rfl rfl
  | clash hverdict hoptimal hcallbacks hv hss hclash =>
      subst hv hss
      rw [List.flatten_singleton]
      exact hround _ _ _
  | again hverdict hoptimal hcallbacks hv hss hne hadded hrest ih =>
      subst hv hss
      rw [List.flatten_cons]
      exact (hround _ _ _).trans ih

theorem gains_shown (w : Workspace α) (verdict : Verdict α) :
    w.model.problem.Gains [] (w.answered verdict).shown.model.problem :=
  Problem.Gains.refl (constraints_shown_answered w verdict)

/-- In a run without a fault, what is submitted in the rounds is added to the problem. -/
theorem gains {status : Status} (h : Rounds answer call w rounds (.ok status) w') :
    w.model.problem.Gains (rounds.flatten.map Submission.cut) w'.model.problem := by
  generalize hending : Except.ok status = ending at h
  induction h with
  | stop hverdict hstop => exact Problem.Gains.refl (constraints_answered _ _)
  | settle hverdict hoptimal hcallbacks hv hnone =>
      subst hv
      exact gains_shown _ _
  | clash hverdict hoptimal hcallbacks hv hss hclash => cases hending
  | again hverdict hoptimal hcallbacks hv hss hne hadded hrest ih =>
      subst hv
      rw [List.flatten_cons, List.map_append]
      exact ((gains_shown _ _).trans (Problem.enforce_gains hadded)).trans (ih hending)

/-- In a run with a fault, what is submitted before a constraint whose name is taken is added to the problem. -/
theorem clashes (h : Rounds answer call w rounds (.error f) w') :
    w.model.problem.Clashes (rounds.flatten.map Submission.cut) w'.model.problem f := by
  generalize hending : Except.error f = ending at h
  induction h with
  | stop hverdict hstop => cases hending
  | settle hverdict hoptimal hcallbacks hv hnone => cases hending
  | clash hverdict hoptimal hcallbacks hv hss hclash =>
      subst hv
      obtain rfl := Except.error.inj hending
      rw [List.flatten_singleton]
      exact (gains_shown _ _).clashes (Problem.enforce_clashes hclash)
  | again hverdict hoptimal hcallbacks hv hss hne hadded hrest ih =>
      subst hv
      rw [List.flatten_cons, List.map_append]
      exact ((gains_shown _ _).trans (Problem.enforce_gains hadded)).clashes (ih hending)

/-- If what callbacks submit has no name of its own, a run has no fault. -/
theorem returns (h : Rounds answer call w rounds ending w')
    (hunnamed : ∀ cb ∈ w.model.callbacks, ∀ c cut, cb.evaluate c = .ok (some cut) → cut.name = none) :
    ∃ status, ending = .ok status := by
  cases ending with
  | ok status => exact ⟨status, rfl⟩
  | error f =>
      obtain ⟨added, cut, left, name, hcuts, -, hname, -⟩ := h.clashes
      obtain ⟨s, hs, rfl⟩ : ∃ s ∈ rounds.flatten, s.cut = cut :=
        List.mem_map.1 (hcuts ▸ List.mem_append_right _ List.mem_cons_self)
      obtain ⟨cb, hcb, -, -, c, hanswer⟩ := h.submits.unmarked s hs
      rw [hunnamed cb (List.mem_of_getElem? hcb) c s.cut hanswer] at hname
      cases hname

/-- In every round but the last a callback submits its constraint. -/
theorem length_le (h : Rounds answer call w rounds ending w') :
    rounds ≠ [] ∧ rounds.length ≤ 1 + pendingCallbacks w.model := by
  induction h with
  | stop hverdict hstop => exact ⟨List.cons_ne_nil _ _, Nat.le_add_right _ _⟩
  | settle hverdict hoptimal hcallbacks hv hnone => exact ⟨List.cons_ne_nil _ _, Nat.le_add_right _ _⟩
  | clash hverdict hoptimal hcallbacks hv hss hclash => exact ⟨List.cons_ne_nil _ _, Nat.le_add_right _ _⟩
  | @again call w v w' verdict ss rounds ending hverdict hoptimal hcallbacks hv hss hne hadded hrest ih =>
      subst hv hss
      refine ⟨List.cons_ne_nil _ _, ?_⟩
      have hpending := (Submits.enforced (w.answered verdict).shown (w.answered verdict).shown.model.candidate).pending
      change _ = pendingCallbacks w.model at hpending
      have hone := List.length_pos_of_ne_nil hne
      have hle := ih.2
      rw [List.length_cons]
      omega

theorem ordered (h : Rounds answer call w rounds ending w') :
    ∀ ss ∈ rounds, (ss.map Submission.place).Pairwise (· < ·) := by
  induction h with
  | stop hverdict hstop => simp
  | settle hverdict hoptimal hcallbacks hv hnone => simp
  | clash hverdict hoptimal hcallbacks hv hss hclash =>
      rw [List.forall_mem_singleton, ← hss]
      exact DecisionModel.submissions_sorted _ _
  | again hverdict hoptimal hcallbacks hv hss hne hadded hrest ih =>
      refine List.forall_mem_cons.2 ⟨?_, ih⟩
      rw [← hss]
      exact DecisionModel.submissions_sorted _ _

theorem answering (h : Rounds answer call w rounds ending w') (htotal : w.model.Answering) : w'.model.Answering := by
  have hshown : ∀ (w : Workspace α) (verdict : Verdict α), w.model.Answering →
      (w.answered verdict).shown.model.Answering := fun _ _ h => h
  induction h with
  | stop hverdict hstop => exact htotal
  | settle hverdict hoptimal hcallbacks hv hnone =>
      subst hv
      exact htotal
  | @clash call w v verdict ss f hverdict hoptimal hcallbacks hv hss hclash =>
      subst hv
      exact (hshown w verdict htotal).recordAll ss
  | @again call w v w' verdict ss rounds ending hverdict hoptimal hcallbacks hv hss hne hadded hrest ih =>
      subst hv
      exact ih ((hshown w verdict htotal).recordAll ss)

/-- A run that ends with an optimum ends where no callback objects. -/
theorem settled (h : Rounds answer call w rounds ending w') (htotal : w.model.Answering)
    (hoptimal : ending = .ok .optimal) :
    ∀ cb ∈ w'.model.callbacks, cb.added = true ∨ cb.evaluate w'.model.candidate = .ok none := by
  induction h with
  | @stop call w verdict hverdict hstop =>
      intro cb hcb
      have hnone : (w.answered verdict).model.callbacks = [] :=
        hstop.resolve_left fun hno => hno (Except.ok.inj hoptimal)
      rw [hnone] at hcb
      exact absurd hcb List.not_mem_nil
  | settle hverdict hoptimal hcallbacks hv hnone =>
      subst hv
      exact DecisionModel.Answering.settled htotal hnone
  | clash hverdict hopt hcallbacks hv hss hclash => cases hoptimal
  | @again call w v w' verdict ss rounds ending hverdict hopt hcallbacks hv hss hne hadded hrest ih =>
      subst hv
      have hshown : (w.answered verdict).shown.model.Answering := htotal
      exact ih (hshown.recordAll ss) hoptimal

end Rounds

/-! ## The program runs the rounds -/

section Program

variable {answer : Answers α} {left call : Nat} {w : Workspace α} {verdict : Verdict α}

/-- The program's solver that gives these answers. -/
def Answers.solver (answer : Answers α) : Solver α := fun call p => .ok (answer call p)

theorem solveRounds_stop (hverdict : answer call w.model.problem.withAnchor.observe = verdict)
    (hstop : verdict.status ≠ .optimal ∨ w.model.callbacks = []) :
    (solveRounds answer.solver left call).runOn w = (.ok (verdict.status, call), w.answered verdict) := by
  have hcond : verdict.status ≠ .optimal ∨ (w.answered verdict).model.callbacks.isEmpty = true :=
    hstop.imp id fun hnil => List.isEmpty_iff.2 hnil
  unfold solveRounds
  rw [Build.runOn_bind_ok (runSolver_eq (congrArg Except.ok hverdict)), Build.runOn_bind_ok (Build.runOn_getModel _),
    if_pos hcond]
  rfl

theorem solveRounds_offer (hverdict : answer call w.model.problem.withAnchor.observe = verdict)
    (hoptimal : verdict.status = .optimal) (hcallbacks : w.model.callbacks ≠ [])
    {v : Workspace α} (hv : v = (w.answered verdict).shown) (htotal : v.model.AnswersTo v.model.candidate)
    {ss : List (Submission α)}
    (hss : v.model.submissions v.model.candidate = ss) :
    (solveRounds answer.solver left call).runOn w =
      if ss = [] then (.ok (.optimal, call), v)
      else
        match (v.model.problem.enforce (ss.map Submission.cut)).2 with
        | some f => (.error f, v.enforced ss)
        | none =>
            (match left with
            | 0 => (pure (.optimal, call) : Build α (Status × Nat))
            | left + 1 => solveRounds answer.solver left (call + 1)).runOn (v.enforced ss) := by
  subst hv
  have hcond : ¬(verdict.status ≠ .optimal ∨ (w.answered verdict).model.callbacks.isEmpty = true) := by
    rintro (hno | hnil)
    · exact hno hoptimal
    · exact hcallbacks (List.isEmpty_iff.1 hnil)
  conv_lhs => unfold solveRounds
  rw [Build.runOn_bind_ok (runSolver_eq (congrArg Except.ok hverdict)), Build.runOn_bind_ok (Build.runOn_getModel _),
    if_neg hcond, Build.runOn_bind_ok (offerPresent_eq htotal), hoptimal, hss]
  by_cases hnone : ss = []
  · rw [if_pos hnone, hnone]
    rfl
  · have hadd := addLazy_eq (ss.map Submission.cut) ((w.answered verdict).shown.recordAll ss)
    rw [Workspace.recordAll, DecisionModel.problem_recordAll] at hadd
    rw [if_neg hnone, if_neg (by rwa [List.isEmpty_map, List.isEmpty_iff])]
    cases hfault : ((w.answered verdict).shown.model.problem.enforce (ss.map Submission.cut)).2 with
    | none =>
        rw [hfault] at hadd
        rw [Workspace.recordAll, Build.runOn_bind_ok hadd]
        rfl
    | some f =>
        rw [hfault] at hadd
        rw [Workspace.recordAll, Build.runOn_bind_error hadd]
        rfl

end Program

/-- However a solver answers, a run comes to an end. -/
theorem exists_rounds (answer : Answers α) (call : Nat) {w : Workspace α} (htotal : w.model.Answering) :
    ∃ rounds ending w', Rounds answer call w rounds ending w' := by
  -- by the number of callbacks that have not submitted: it goes down from round to round
  induction hn : pendingCallbacks w.model using Nat.strongRecOn generalizing call w with
  | _ n ih =>
      subst hn
      let verdict := answer call w.model.problem.withAnchor.observe
      by_cases hstop : verdict.status ≠ .optimal ∨ w.model.callbacks = []
      · exact ⟨[[]], .ok verdict.status, _, .stop rfl hstop⟩
      · rw [not_or, not_not] at hstop
        let v := (w.answered verdict).shown
        let ss := v.model.submissions v.model.candidate
        by_cases hnone : ss = []
        · exact ⟨[[]], .ok .optimal, v, .settle rfl hstop.1 hstop.2 rfl hnone⟩
        cases hfault : (v.model.problem.enforce (ss.map Submission.cut)).2 with
        | some f => exact ⟨[ss], .error f, _, .clash rfl hstop.1 hstop.2 rfl rfl hfault⟩
        | none =>
            have hpending : pendingCallbacks (v.enforced ss).model + ss.length = pendingCallbacks w.model :=
              (Submits.enforced v v.model.candidate).pending
            have hone : 0 < ss.length := List.length_pos_of_ne_nil hnone
            have hshown : v.model.Answering := htotal
            obtain ⟨rounds, ending, w', hrounds⟩ := ih _ (by omega) (call + 1) (w := v.enforced ss)
              (hshown.recordAll ss) rfl
            exact ⟨ss :: rounds, ending, w', .again rfl hstop.1 hstop.2 rfl rfl hnone hfault hrounds⟩

namespace Rounds

variable {answer : Answers α} {call : Nat} {w w' : Workspace α} {rounds : List (List (Submission α))}
  {ending : Except (Fault α) Status}

/-- The program does the run. Its bound on the rounds to come is never reached with constraints left to add. -/
theorem solveRounds_eq (h : Rounds answer call w rounds ending w') (htotal : w.model.Answering) {left : Nat}
    (hleft : pendingCallbacks w.model ≤ left) :
    (solveRounds answer.solver left call).runOn w =
      (ending.map fun status => (status, call + (rounds.length - 1)), w') := by
  induction h generalizing left with
  | stop hverdict hstop => exact solveRounds_stop hverdict hstop
  | @settle call w v verdict hverdict hoptimal hcallbacks hv hnone =>
      have hshown : v.model.Answering := by rw [hv]; exact htotal
      rw [solveRounds_offer hverdict hoptimal hcallbacks hv (hshown.answersTo _) hnone, if_pos rfl]
      rfl
  | @clash call w v verdict ss f hverdict hoptimal hcallbacks hv hss hclash =>
      have hshown : v.model.Answering := by rw [hv]; exact htotal
      have hne : ss ≠ [] := by
        rintro rfl
        cases hclash
      rw [solveRounds_offer hverdict hoptimal hcallbacks hv (hshown.answersTo _) hss, if_neg hne, hclash]
      rfl
  | @again call w v w' verdict ss rounds ending hverdict hoptimal hcallbacks hv hss hne hadded hrest ih =>
      have hpending : pendingCallbacks (v.enforced ss).model + ss.length = pendingCallbacks v.model := by
        rw [← hss]
        exact (Submits.enforced v v.model.candidate).pending
      have hshown : v.model.Answering := by rw [hv]; exact htotal
      have hsame : pendingCallbacks v.model = pendingCallbacks w.model := by rw [hv]; rfl
      have hone : 0 < ss.length := List.length_pos_of_ne_nil hne
      obtain ⟨left, rfl⟩ : ∃ k, left = k + 1 := ⟨left - 1, by omega⟩
      rw [solveRounds_offer hverdict hoptimal hcallbacks hv (hshown.answersTo _) hss, if_neg hne, hadded]
      refine (ih (hshown.recordAll ss) (by omega)).trans ?_
      have hlen := List.length_pos_of_ne_nil hrest.length_le.1
      have hcount : call + 1 + (rounds.length - 1) = call + ((ss :: rounds).length - 1) := by
        rw [List.length_cons]
        omega
      rw [hcount]

/-- A run does not depend on answers to questions that it does not ask. -/
theorem congr (h : Rounds answer call w rounds ending w') {answer' : Answers α}
    (hsame : ∀ n < rounds.length, answer' (call + n) = answer (call + n)) :
    Rounds answer' call w rounds ending w' := by
  induction h with
  | stop hverdict hstop =>
      have hfirst := hsame 0 (Nat.lt_succ_self 0)
      rw [Nat.add_zero] at hfirst
      exact stop (by rw [hfirst, hverdict]) hstop
  | settle hverdict hoptimal hcallbacks hv hnone =>
      have hfirst := hsame 0 (Nat.lt_succ_self 0)
      rw [Nat.add_zero] at hfirst
      exact settle (by rw [hfirst, hverdict]) hoptimal hcallbacks hv hnone
  | clash hverdict hoptimal hcallbacks hv hss hclash =>
      have hfirst := hsame 0 (Nat.lt_succ_self 0)
      rw [Nat.add_zero] at hfirst
      exact clash (by rw [hfirst, hverdict]) hoptimal hcallbacks hv hss hclash
  | again hverdict hoptimal hcallbacks hv hss hne hadded hrest ih =>
      have hfirst := hsame 0 (Nat.lt_of_lt_of_eq (Nat.succ_pos _) (List.length_cons).symm)
      rw [Nat.add_zero] at hfirst
      refine again (by rw [hfirst, hverdict]) hoptimal hcallbacks hv hss hne hadded (ih ?_)
      intro n hn
      have := hsame (n + 1) (by rw [List.length_cons]; omega)
      rwa [← Nat.add_assoc, Nat.add_right_comm] at this

end Rounds

/-- What a run says at the end. -/
def DecisionModel.conclusion (m : DecisionModel α) (status : Status) (rounds : Nat) :
    Except (Fault α) (SolveResult α) :=
  if status = .optimal then
    match m.problem.objective with
    | none => .error .noObjective
    | some e => (e.value m.value?).map fun objective => ⟨status, objective, rounds⟩
  else .ok ⟨status, none, rounds⟩

theorem solve_eq_conclusion {solver : Solver α} {w w' : Workspace α} {status : Status} {rounds : Nat}
    (hrun : (solveRounds solver (pendingCallbacks w.model) 0).runOn w = (.ok (status, rounds), w')) :
    (solve solver).runOn w = (w'.model.conclusion status rounds, w') := by
  unfold solve
  rw [Build.runOn_bind_ok (Build.runOn_getModel w), Build.runOn_bind_ok hrun, DecisionModel.conclusion]
  dsimp only
  by_cases hoptimal : status = .optimal
  · rw [if_pos hoptimal, if_pos hoptimal, Build.runOn_bind_ok (Build.runOn_getModel w')]
    cases w'.model.problem.objective with
    | none => rfl
    | some e =>
        cases hvalue : e.value w'.model.value? with
        | error f =>
            dsimp only
            rw [hvalue]
            rfl
        | ok objective =>
            dsimp only
            rw [Build.runOn_bind_ok (Build.runOn_lift_ok hvalue w'), hvalue]
            rfl
  · rw [if_neg hoptimal, if_neg hoptimal]
    rfl

theorem Rounds.solve_eq {answer : Answers α} {w w' : Workspace α} {rounds : List (List (Submission α))}
    {ending : Except (Fault α) Status} (h : Rounds answer 0 w rounds ending w') (htotal : w.model.Answering) :
    (solve answer.solver).runOn w =
      (ending.bind fun status => w'.model.conclusion status (rounds.length - 1), w') := by
  have hrun := h.solveRounds_eq htotal (Nat.le_refl _)
  rw [Nat.zero_add] at hrun
  cases ending with
  | ok status => exact solve_eq_conclusion hrun
  | error f =>
      unfold solve
      rw [Build.runOn_bind_ok (Build.runOn_getModel w)]
      exact Build.runOn_bind_error hrun

/-! ## Any sequence of runs and direct calls -/

/-- What can be done with a model: solve it, or call the callback in a place at a candidate. -/
inductive Action (α : Type) where
  | solve (answer : Answers α)
  | call (place : Nat) (c : Candidate α)

/-- The workspace after an action of the program. -/
def Action.perform (w : Workspace α) : Action α → Workspace α
  | solve answer => ((InfluenceDiagrams.solve answer.solver).runOn w).2
  | call place c => ((offer place c).runOn w).2

/-- A sequence of actions, with all that is submitted in it. -/
inductive Session : Workspace α → List (Action α) → List (Submission α) → Workspace α → Prop
  | done (w : Workspace α) : Session w [] [] w
  | solve {w v w' : Workspace α} {answer : Answers α} {rounds : List (List (Submission α))}
      {ending : Except (Fault α) Status} {actions : List (Action α)} {log : List (Submission α)}
      (hrounds : Rounds answer 0 w rounds ending v)
      (hrest : Session v actions log w') : Session w (.solve answer :: actions) (rounds.flatten ++ log) w'
  | call {w w' : Workspace α} {place : Nat} {c : Candidate α} {submitted : List (Submission α)}
      {actions : List (Action α)} {log : List (Submission α)}
      (hsubmitted : submitted = (w.model.submissionAt c place).toList)
      (hrest : Session (w.recordAll submitted) actions log w') :
      Session w (.call place c :: actions) (submitted ++ log) w'

omit [Scalar α] in
/-- **One direct call.** -/
theorem Submits.call (m : DecisionModel α) (c : Candidate α) (i : Nat) :
    Submits m (m.submissionAt c i).toList (m.recordAll (m.submissionAt c i).toList) := by
  cases hs : m.submissionAt c i with
  | none => exact Submits.refl rfl rfl
  | some s => exact Submits.record hs

namespace Session

variable {w w' : Workspace α} {actions : List (Action α)} {log : List (Submission α)}

/-- **All actions.** -/
theorem submits (h : Session w actions log w') : Submits w.model log w'.model := by
  induction h with
  | done w => exact Submits.refl rfl rfl
  | solve hrounds hrest ih => exact hrounds.submits.trans ih
  | call hsubmitted hrest ih =>
      subst hsubmitted
      exact (Submits.call _ _ _).trans ih

theorem exists_perform (htotal : w.model.Answering) (actions : List (Action α)) :
    ∃ log, Session w actions log (actions.foldl Action.perform w) := by
  induction actions generalizing w with
  | nil => exact ⟨[], done w⟩
  | cons action actions ih =>
      rw [List.foldl_cons]
      cases action with
      | solve answer =>
          obtain ⟨rounds, ending, v, hrounds⟩ := exists_rounds answer 0 htotal
          obtain ⟨log, hrest⟩ := ih (hrounds.answering htotal)
          rw [Action.perform, hrounds.solve_eq htotal]
          exact ⟨_, solve hrounds hrest⟩
      | call place c =>
          obtain ⟨log, hrest⟩ := ih (w := w.recordAll (w.model.submissionAt c place).toList) (htotal.recordAll _)
          rw [Action.perform, offer_eq c (htotal.answersTo c) place]
          exact ⟨_, call rfl hrest⟩

end Session

/-! ## The main statement -/

/-- **Lazy constraints are submitted once.** Let every callback of a model have an answer to every candidate.
Whatever a solver says, solving runs in rounds: it asks the solver at most once more than there are callbacks
that have not submitted, and adds constraints one time less than it asks. What is submitted in a round comes
in the order of registration, is recorded once and is added to the problem once, and no other constraint is
recorded, added or removed. The exception is a constraint with a name of its own that is taken: the run ends there
with a fault, when those before it have been added. At an optimum every callback has submitted or does not object.
And in any sequence of runs and direct calls, no callback submits twice, or again if it has submitted before. -/
theorem solve_submits_once {w : Workspace α} (htotal : w.model.Answering) :
    (∀ answer, ∃ rounds ending w', Rounds answer 0 w rounds ending w' ∧
      (solve answer.solver).runOn w =
        (ending.bind fun status => w'.model.conclusion status (rounds.length - 1), w') ∧
      (∀ answer', (∀ n < rounds.length, answer' n = answer n) →
        (solve (Answers.solver answer')).runOn w = (solve answer.solver).runOn w) ∧
      rounds.length ≤ 1 + pendingCallbacks w.model ∧
      (∀ ss ∈ rounds, (ss.map Submission.place).Pairwise (· < ·)) ∧
      w'.model.submitted = w.model.submitted ++ rounds.flatten.map (fun s => (s.name, s.cut)) ∧
      (∀ status, ending = .ok status →
        w.model.problem.Gains (rounds.flatten.map Submission.cut) w'.model.problem) ∧
      (∀ f, ending = .error f →
        w.model.problem.Clashes (rounds.flatten.map Submission.cut) w'.model.problem f) ∧
      ((∀ cb ∈ w.model.callbacks, ∀ c cut, cb.evaluate c = .ok (some cut) → cut.name = none) →
        ∃ status, ending = .ok status) ∧
      (ending = .ok .optimal →
        ∀ cb ∈ w'.model.callbacks, cb.added = true ∨ cb.evaluate w'.model.candidate = .ok none)) ∧
    ∀ actions, ∃ log, Session w actions log (actions.foldl Action.perform w) ∧
      (actions.foldl Action.perform w).model.submitted =
        w.model.submitted ++ log.map (fun s => (s.name, s.cut)) ∧
      (log.map Submission.place).Nodup ∧
      ∀ s ∈ log, ∃ cb, w.model.callbacks[s.place]? = some cb ∧ cb.added = false := by
  constructor
  · intro answer
    obtain ⟨rounds, ending, w', hrounds⟩ := exists_rounds answer 0 htotal
    have hrun := hrounds.solve_eq htotal
    refine ⟨rounds, ending, w', hrounds, hrun, ?_, hrounds.length_le.2, hrounds.ordered, hrounds.submits.recorded,
      ?_, ?_, hrounds.returns, hrounds.settled htotal⟩
    · intro answer' hsame
      have hrounds' : Rounds answer' 0 w rounds ending w' := by
        apply hrounds.congr
        intro n hn
        rw [Nat.zero_add]
        exact hsame n hn
      rw [hrun, hrounds'.solve_eq htotal]
    · rintro status rfl
      exact hrounds.gains
    · rintro f rfl
      exact hrounds.clashes
  · intro actions
    obtain ⟨log, hsession⟩ := Session.exists_perform htotal actions
    refine ⟨log, hsession, hsession.submits.recorded, hsession.submits.places_nodup, ?_⟩
    intro s hs
    obtain ⟨cb, hcb, -, hadded, -⟩ := hsession.submits.unmarked s hs
    exact ⟨cb, hcb, hadded⟩

end Runs

/-- A model with a callback that objects to every candidate, and one that never does. -/
def objector : Workspace Rat where
  model := { DecisionModel.empty "objector" with
    callbacks :=
      [⟨"always", fun _ => .ok (some (.unnamed ⟨[], .le, 1⟩)), false⟩, ⟨"never", fun _ => .ok none, false⟩] }
  notices := []

/-- A solver that finds an optimum without values every time is asked three times at most, the constraint is added,
and a direct call after that submits nothing more. -/
theorem solve_submits_once_objector :
    (∃ rounds status w', Rounds (fun _ _ => ⟨.optimal, []⟩) 0 objector rounds (.ok status) w' ∧ rounds.length ≤ 3 ∧
      w'.model.submitted = rounds.flatten.map (fun s => (s.name, s.cut)) ∧
      objector.model.problem.Gains (rounds.flatten.map Submission.cut) w'.model.problem) ∧
    ∃ log w', Session objector [.solve fun _ _ => ⟨.optimal, []⟩, .call 0 []] log w' ∧
      (log.map Submission.place).Nodup := by
  have htotal : objector.model.Answering := by
    intro cb hcb c
    rcases List.mem_pair.1 hcb with rfl | rfl
    · exact ⟨_, rfl⟩
    · exact ⟨_, rfl⟩
  have hunnamed : ∀ cb ∈ objector.model.callbacks, ∀ c cut, cb.evaluate c = .ok (some cut) → cut.name = none := by
    intro cb hcb c cut hcut
    rcases List.mem_pair.1 hcb with rfl | rfl
    · obtain rfl := Option.some.inj (Except.ok.inj hcut)
      rfl
    · cases Except.ok.inj hcut
  obtain ⟨hsolve, hsession⟩ := solve_submits_once htotal
  obtain ⟨rounds, ending, w', hrounds, -, -, hlen, -, hrecorded, hgains, -, hreturns, -⟩ :=
    hsolve fun _ _ => ⟨.optimal, []⟩
  obtain ⟨status, rfl⟩ := hreturns hunnamed
  obtain ⟨log, hlog, -, hnodup, -⟩ := hsession [.solve fun _ _ => ⟨.optimal, []⟩, .call 0 []]
  exact ⟨⟨rounds, status, w', hrounds, hlen, hrecorded, hgains status rfl⟩, log, _, hlog, hnodup⟩

/-- A model with two callbacks that object to every candidate, by constraints of one name. -/
def twins : Workspace Rat where
  model := { DecisionModel.empty "twins" with
    callbacks :=
      [⟨"first", fun _ => .ok (some ⟨some "cut", ⟨[], .le, 1⟩⟩), false⟩,
        ⟨"second", fun _ => .ok (some ⟨some "cut", ⟨[], .le, 2⟩⟩), false⟩] }
  notices := []

/-- Both constraints are recorded, but only the first one is added: its name is then taken. And a run that ends with
an optimum of a problem without an objective has a fault in place of a result. -/
theorem solve_faults_twins :
    (∃ w', (solve (Answers.solver fun _ _ => ⟨.optimal, []⟩)).runOn twins =
        (.error (.duplicateConstraint "cut"), w') ∧
      w'.model.submitted.map Prod.fst = ["first", "second"] ∧
      w'.model.callbacks.map LazyCallback.added = [true, true] ∧
      w'.model.problem.constraints = [("cut", ⟨[], .le, 1⟩)]) ∧
    ((solve (Answers.solver fun _ _ => ⟨.optimal, []⟩)).runOn objector).1 = .error .noObjective := by
  refine ⟨⟨_, rfl, rfl, rfl, rfl⟩, rfl⟩

end InfluenceDiagrams
