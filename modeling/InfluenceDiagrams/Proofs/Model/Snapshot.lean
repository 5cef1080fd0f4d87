import Mathlib.Algebra.Order.Ring.Rat
import InfluenceDiagrams.Model.Objective
import InfluenceDiagrams.Proofs.Diagram.ZeroFree
import InfluenceDiagrams.Proofs.Model.Construction
import InfluenceDiagrams.Proofs.Model.ExpectedObjective
import InfluenceDiagrams.Proofs.Model.Preservation

/-!
# `InfluenceDiagrams.Proofs.Model.Snapshot` — which path variables callbacks can look up

A callback looks up the value of every path variable in the candidate, where only the variables of the problem
are known. A path variable is a variable of the problem if it occurs in a constraint or in the objective. It
does if there is a decision node, since every path leads through a decision, or if the problem has the constraint on
the probabilities from the start. In a lazy model without decision nodes only the objective is left, which does not
mention the paths without utility, and there a callback has no answer.

## Contents
- **`Candidate.Knows`**, **`Workspace.knows_shown`** — which names a candidate knows.
- **`PathVariables.Cut`**, **`Cut.evaluate_yields`** — the tests of the two lazy cuts.
- **`PathVariables.upkeep`** — a run keeps all path variables in the candidate; **`solve_eq_error`** — a run that fails.
- **`expectedValue_yields`, `Assembled.mem_listed_iff`** — which path variables occur.
- **`snapshot_knows_iff`** — the main statement; **`snapshot_misses_path`** — where a run has a fault.
-/

namespace InfluenceDiagrams

variable {α : Type}

/-! ## Names in a candidate -/

/-- A variable of this name is known in the candidate. -/
def Candidate.Knows (c : Candidate α) (name : String) : Prop := (Keyed.find? name c).isSome = true

/-- The candidate shown to callbacks knows the names of the variables that are listed. -/
theorem Workspace.knows_shown {w : Workspace α} {name : String} :
    w.shown.model.candidate.Knows name ↔ ∃ k ∈ w.model.problem.listed, k.name = name := by
  have hvars : ∀ v, v ∈ w.shown.model.problem.vars ↔ v ∈ w.model.problem.observe.met :=
    fun v => (List.mergeSort_perm _ _).mem_iff
  unfold Candidate.Knows DecisionModel.candidate Candidate.ofPairs
  rw [Keyed.isSome_find?_ofPairs]
  simp only [List.mem_map, exists_exists_and_eq_and, hvars, Problem.listed]
  rfl

section Cuts

variable [Scalar α] {x : PathVariables α} {c : Candidate α}

/-- A name that is known has a value, or one that is too large. -/
theorem Candidate.Knows.value_yields {name : String} (h : c.Knows name) :
    Yields (c.value name) (fun _ => True) Fault.Nameless := by
  obtain ⟨x, hx⟩ := Option.isSome_iff_exists.1 h
  rw [value, hx]
  cases x with
  | none => trivial
  | some x =>
      show Yields x.finite _ _
      unfold Numeral.finite
      split <;> trivial

theorem Candidate.value_eq_error {name : String} (h : ¬c.Knows name) :
    c.value name = .error (.notInCandidate name) := by
  rw [value, Option.not_isSome_iff_eq_none.1 h]

/-! ## The tests of the lazy cuts -/

/-- The test of a lazy cut over some path variables: for the probability of the paths taken, or for their number. -/
inductive PathVariables.Cut (x : PathVariables α) :
    (Candidate α → Except (Fault α) (Option (LazyConstraint α))) → Prop
  | mass (scale tolerance : α) : x.Cut (evaluateProbabilityCut x scale tolerance)
  | count (threshold : α) (required : Int) (tolerance : α) :
      x.Cut (evaluateActivePathsCut x threshold required tolerance)

/-- A test has an answer where the path variables have values, and submits a constraint on path variables without a
name. -/
theorem PathVariables.Cut.evaluate_yields {evaluate : Candidate α → Except (Fault α) (Option (LazyConstraint α))}
    (h : x.Cut evaluate) {E : Fault α → Prop} (hE : ∀ f, f.Nameless → E f)
    (hc : ∀ m ∈ x.members, Yields (c.value m.var.name) (fun _ => True) E) :
    Yields (evaluate c) (fun answer => ∀ cut ∈ answer, cut.Bare fun k => ∀ v ∈ k.vars, v ∈ x.vars) E := by
  have hnone : ∀ cut ∈ (none : Option (LazyConstraint α)), cut.Bare fun k => ∀ v ∈ k.vars, v ∈ x.vars :=
    fun cut hcut => by cases hcut
  cases h with
  | mass scale tolerance =>
      have htotal : Yields (candidateMass x c) (fun _ => True) E := by
        refine Yields.foldlM (r := fun _ => True) (fun total _ m hm => ?_) trivial
        exact ((hc m hm).mono (fun _ _ _ => trivial) fun _ hf => hf).map
      have hclose : ∀ total, Yields (isClose total 1 tolerance) (fun _ => True) E := by
        intro total
        unfold isClose
        split
        · exact hE _ trivial
        · split
          · trivial
          · split <;> trivial
      refine htotal.bind fun total _ => (hclose total).bind fun close _ => ?_
      split
      · exact hnone
      · refine ((combination_yields _).mono (fun e _ he => ?_) fun f hf => hE f hf.nameless).map.map
        rintro _ ⟨⟩
        refine ⟨rfl, fun v hv => ?_⟩
        obtain ⟨t, ht, rfl⟩ := he.1 v hv
        obtain ⟨m, hm, rfl⟩ := List.mem_map.1 ht
        exact List.mem_map_of_mem hm
  | count threshold required tolerance =>
      have hcount : Yields (activePaths x threshold c) (fun _ => True) E := by
        refine Yields.foldlM (r := fun _ => True) (fun n _ m hm => ?_) trivial
        exact ((hc m hm).mono (fun _ _ _ => trivial) fun _ hf => hf).map
      refine hcount.bind fun n _ => ?_
      split
      · exact hnone
      · refine ((finiteInt_yields required).mono (fun n _ _ => ?_) fun f hf => hE f hf.nameless).map.map
        rintro _ ⟨⟩
        exact ⟨rfl, fun v hv => LinearExpr.vars_sumVars hv⟩

/-- Where a path variable is not known, a test has no answer. -/
theorem PathVariables.Cut.evaluate_eq_error {evaluate : Candidate α → Except (Fault α) (Option (LazyConstraint α))}
    (h : x.Cut evaluate) {m : PathVariable α} (hm : m ∈ x.members) (hc : ¬c.Knows m.var.name) :
    ∃ f, evaluate c = .error f := by
  -- both tests run through the path variables, and a run with a step that has no result has none
  have hfold : ∀ {β : Type} (step : β → PathVariable α → α → β) (b : β),
      ∃ f, x.members.foldlM (fun b m => (c.value m.var.name).map (step b m)) b = .error f := by
    intro β step b
    generalize x.members = members at hm
    induction members generalizing b with
    | nil => cases hm
    | cons n ns ih =>
        rw [List.foldlM_cons]
        cases hvalue : c.value n.var.name with
        | error f => exact ⟨f, rfl⟩
        | ok value =>
            rcases List.mem_cons.1 hm with rfl | hm
            · rw [Candidate.value_eq_error hc] at hvalue
              cases hvalue
            · exact ih _ hm
  cases h with
  | mass scale tolerance =>
      obtain ⟨f, hf⟩ := hfold (fun total m v => total + v * m.prob) 0
      refine ⟨f, ?_⟩
      unfold evaluateProbabilityCut candidateMass
      rw [hf]
      rfl
  | count threshold required tolerance =>
      obtain ⟨f, hf⟩ := hfold (fun n _ v => if threshold < v then n + 1 else n) (0 : Int)
      refine ⟨f, ?_⟩
      unfold evaluateActivePathsCut activePaths
      rw [hf]
      rfl

omit [Scalar α] in
/-- A callback that has not submitted and has no answer. -/
theorem offer_eq_error {w : Workspace α} {c : Candidate α} {i : Nat} {cb : LazyCallback α} {f : Fault α}
    (hcb : w.model.callbacks[i]? = some cb) (hadded : cb.added = false) (hevaluate : cb.evaluate c = .error f) :
    (offer i c).runOn w = (.error f, w) := by
  unfold offer
  rw [Build.runOn_bind_ok (Build.runOn_getModel w), hcb]
  dsimp only
  rw [hadded, if_neg Bool.false_ne_true, hevaluate]
  rfl

omit [Scalar α] in
/-- The first callback is the first one that sees the candidate. -/
theorem offerPresent_eq_error {w : Workspace α} {cb : LazyCallback α} {rest : List (LazyCallback α)} {f : Fault α}
    (hcallbacks : w.model.callbacks = cb :: rest) (hadded : cb.added = false)
    (hevaluate : cb.evaluate w.shown.model.candidate = .error f) :
    (offerPresent (α := α)).runOn w = (.error f, w.shown) := by
  have hfirst : w.shown.model.callbacks[0]? = some cb := congrArg (·[0]?) hcallbacks
  have hlength : w.shown.model.callbacks.length = rest.length + 1 := congrArg List.length hcallbacks
  unfold offerPresent
  refine (Build.runOn_bind_ok (Build.runOn_modifyModel _ _)).trans ?_
  refine (Build.runOn_bind_ok (Build.runOn_getModel _)).trans ?_
  show (offerAll w.shown.model.candidate (List.range w.shown.model.callbacks.length)).runOn w.shown = _
  rw [hlength, List.range_succ_eq_map]
  exact Build.runOn_bind_error (offer_eq_error hfirst hadded hevaluate)

/-- A run ends with the fault of the first callback, if that one has no answer to the first optimum. -/
theorem solve_eq_error {solver : Solver α} {w : Workspace α} {verdict : Verdict α} {cb : LazyCallback α} {f : Fault α}
    (hverdict : solver 0 w.model.problem.withAnchor.observe = .ok verdict) (hoptimal : verdict.status = .optimal)
    (hcb : w.model.callbacks.head? = some cb) (hadded : cb.added = false)
    (hevaluate : cb.evaluate (w.answered verdict).shown.model.candidate = .error f) :
    ((solve solver).runOn w).1 = .error f := by
  obtain ⟨rest, hcallbacks⟩ : ∃ rest, w.model.callbacks = cb :: rest := List.head?_eq_some_iff.1 hcb
  have hanswered : (w.answered verdict).model.callbacks = cb :: rest := hcallbacks
  have hpresent := offerPresent_eq_error hanswered hadded hevaluate
  have hgo : ¬(verdict.status ≠ .optimal ∨ (w.answered verdict).model.callbacks.isEmpty = true) := by
    rw [hanswered, not_or, not_not]
    exact ⟨hoptimal, Bool.false_ne_true⟩
  have hround : ∀ left, (solveRounds solver left 0).runOn w = (.error f, (w.answered verdict).shown) := by
    intro left
    cases left
    all_goals
      unfold solveRounds
      rw [Build.runOn_bind_ok (runSolver_eq hverdict), Build.runOn_bind_ok (Build.runOn_getModel _), if_neg hgo]
      exact Build.runOn_bind_error hpresent
  unfold solve
  rw [Build.runOn_bind_ok (Build.runOn_getModel w), Build.runOn_bind_error (hround _)]

/-- A property of models for which callbacks know all path variables: a run keeps it, and no look-up fails. -/
theorem PathVariables.upkeep (x : PathVariables α) :
    Upkeep (fun w : Workspace α => (∀ cb ∈ w.model.callbacks, x.Cut cb.evaluate) ∧
        ∀ m ∈ x.members, m.var.key ∈ w.model.problem.listed)
      (fun c => ∀ m ∈ x.members, c.Knows m.var.name) (fun _ => True) (fun f => ∀ name, f ≠ .notInCandidate name) where
  asked w h := ⟨h.1, fun m hm => Problem.mem_listed.2 (Or.inl (Problem.listed_subset_question _ (h.2 m hm)))⟩
  answered w verdict h := ⟨h.1, fun m hm => Problem.mem_listed.2 (Or.inl (Problem.listed_subset_question _ (h.2 m hm)))⟩
  shown w h := ⟨⟨h.1, fun m hm => Problem.listed_subset_observe _ (h.2 m hm)⟩,
    fun m hm => Workspace.knows_shown.2 ⟨_, h.2 m hm, rfl⟩⟩
  evaluated w c h hc cb hcb := by
    refine (((h.1 cb hcb).evaluate_yields (fun f hf => hf) fun m hm => (hc m hm).value_yields)).mono
      (fun _ _ ha cut hcut => ⟨(ha cut hcut).1, trivial⟩) fun f hf => hf.ne_unknown
  recorded w s h _ := by
    refine ⟨fun cb hcb => ?_, h.2⟩
    obtain ⟨old, hold, heq, -⟩ := DecisionModel.exists_of_mem_record hcb
    rw [heq]
    exact h.1 old hold
  added w c h _ := ⟨h.1, fun m hm => Problem.listed_subset_addNext _ c (h.2 m hm)⟩
  nameless f hf := hf.ne_unknown

end Cuts

/-! ## Path variables that occur -/

section Occurrence

variable [Scalar α] {dia : Diagram α} {options : ModelOptions α} {rules : List ForbiddenRule} {fixed : FixedStates}
  {z : List (DecisionVariables α)} {x : PathVariables α} {w : Workspace α}

/-- A path variable occurs in the expected utility unless its coefficient is zero. -/
theorem expectedValue_yields (dia : Diagram α) (x : PathVariables α) (scale : α) :
    Yields (expectedValue dia x scale) (fun e => (∀ v ∈ e.vars, v ∈ x.vars) ∧
      ∀ k, k ∈ e.keys ↔ ∃ m ∈ x.members, (∃ u, dia.U.eval m.path = .ok u ∧ (m.prob * u * scale == 0) = false) ∧
        k = m.var.key) Fault.Nameless := by
  have hterm : ∀ m : PathVariable α, Yields (valueTerm dia scale m) (fun e => (∀ v ∈ e.vars, v = m.var) ∧
      ∀ k, k ∈ e.keys ↔ (∃ u, dia.U.eval m.path = .ok u ∧ (m.prob * u * scale == 0) = false) ∧ k = m.var.key)
      Fault.Nameless := by
    intro m
    have hu := dia.U.eval_yields m.path
    unfold valueTerm
    cases heval : dia.U.eval m.path with
    | error f => exact hu.of_error heval
    | ok u =>
        refine (multiple_yields _ m.var).mono (fun e _ he => ?_) fun _ hf => hf.nameless
        simpa using he
  unfold expectedValue
  refine ((checkScale_yields scale).mono (fun _ _ _ => trivial) fun _ hf => hf ▸ trivial).bind fun _ _ => ?_
  refine ((Yields.mapM fun m _ => hterm m).mono (fun es _ hes => ?_) fun _ hf => hf).map
  obtain ⟨hvars, hkeys⟩ := sum_of_forall₂ hes
  refine ⟨fun v hv => ?_, hkeys⟩
  obtain ⟨m, hm, rfl⟩ := hvars v hv
  exact List.mem_map_of_mem hm

namespace Assembled

variable [Lengths]

/-- No two path variables have the same name, and no decision variable has the name of one. -/
theorem key_eq_of_name (h : Assembled dia options rules fixed z x w) {v : Variable α}
    (hv : v ∈ z.flatMap (fun d => d.z.map Prod.snd) ++ x.vars) {m : PathVariable α} (hm : m ∈ x.members)
    (hname : v.name = m.var.name) : v.key = m.var.key := by
  obtain ⟨ms, -, -, rfl⟩ := h.members
  obtain ⟨p, hp, rfl⟩ := List.mem_map.1 hm
  rcases List.mem_append.1 hv with hv | hv
  · rw [h.blocks] at hv
    obtain ⟨d, hd, hv⟩ := List.mem_flatMap.1 hv
    obtain ⟨d, -, rfl⟩ := List.mem_map.1 hd
    obtain ⟨zi, hzi, rfl⟩ := List.mem_map.1 hv
    obtain ⟨i, -, rfl⟩ := List.mem_map.1 hzi
    exact absurd hname (Diagram.decisionVariable_name_ne _ _ _ _ _)
  · rw [vars_pathsBlock] at hv
    obtain ⟨q, -, rfl⟩ := List.mem_map.1 hv
    exact congrArg (fun name => (⟨name, 1⟩ : VarKey)) hname

/-- Once the objective is the expected utility, a path variable is listed if it occurs in a constraint or in the
objective. -/
theorem mem_listed_iff (h : Assembled dia options rules fixed z x w) {scale : α} {e : LinearExpr α}
    (he : expectedValue dia x scale = .ok e) (sense : Sense) {m : PathVariable α} (hm : m ∈ x.members) :
    m.var.key ∈ Problem.listed { w.model.problem with objective := some e, sense := sense } ↔
      dia.D ≠ [] ∨ (options.lazyCuts = false ∧ (m.prob * options.scale == 0) = false) ∨
        ∃ u, dia.U.eval m.path = .ok u ∧ (m.prob * u * scale == 0) = false := by
  obtain ⟨added, hproblem, -, -, hoccurs⟩ := h.problem
  obtain ⟨ms, -, hsub, hx⟩ := h.members
  have hpaths : x.paths.Nodup := by
    rw [hx, paths_pathsBlock]
    exact (paths_nodup _ _).sublist hsub
  have hmet : m.var.key ∈ w.model.problem.met.map Variable.key ↔ Occurs m.var.key added := by
    rw [hproblem, key_mem_met_extend]
    exact or_iff_right List.not_mem_nil
  have hobjective : m.var.key ∈ e.keys ↔ ∃ u, dia.U.eval m.path = .ok u ∧ (m.prob * u * scale == 0) = false := by
    rw [((expectedValue_yields dia x scale).of_ok he).2]
    constructor
    · rintro ⟨n, hn, hu, hkey⟩
      -- a path variable has the key of its own path only
      have hpath : n.path = m.path := by
        rw [hx] at hm hn
        obtain ⟨p, -, rfl⟩ := List.mem_map.1 hm
        obtain ⟨q, -, rfl⟩ := List.mem_map.1 hn
        exact (Diagram.pathVariable_key_inj hkey).symm
      rwa [← List.inj_on_of_nodup_map hpaths hn hm hpath]
    · exact fun hu => ⟨m, hm, hu, rfl⟩
  rw [Problem.mem_listed]
  simp only [Option.some.injEq, exists_eq_left']
  rw [hmet, hoccurs m hm, ← or_assoc]
  exact or_congr_right hobjective

/-- Only variables of the model are listed then. -/
theorem listed_subset (h : Assembled dia options rules fixed z x w) {scale : α} {e : LinearExpr α}
    (he : expectedValue dia x scale = .ok e) (sense : Sense) :
    Problem.listed { w.model.problem with objective := some e, sense := sense } ⊆
      (z.flatMap (fun d => d.z.map Prod.snd) ++ x.vars).map Variable.key := by
  intro k hk
  obtain ⟨added, hproblem, -, hvars, -⟩ := h.problem
  rcases Problem.mem_listed.1 hk with hk | ⟨f, hf, hk⟩
  · change k ∈ w.model.problem.met.map Variable.key at hk
    rw [hproblem, key_mem_met_extend] at hk
    obtain ⟨c, hc, hk⟩ := hk.resolve_left List.not_mem_nil
    obtain ⟨v, hv, rfl⟩ := List.mem_map.1 hk
    exact List.mem_map_of_mem (hvars c hc v hv)
  · obtain rfl := Option.some.inj hf
    obtain ⟨v, hv, rfl⟩ := List.mem_map.1 hk
    exact List.mem_map_of_mem (List.mem_append_right _ (((expectedValue_yields dia x scale).of_ok he).1 v hv))

/-- Where only variables of the model and the anchor are listed, the name of a path variable stands for it. -/
theorem knows_shown_iff (h : Assembled dia options rules fixed z x w) {v : Workspace α}
    (hlisted : ∀ k ∈ v.model.problem.listed,
      k ∈ (z.flatMap (fun d => d.z.map Prod.snd) ++ x.vars).map Variable.key ∨ k = (Problem.anchor (α := α)).key)
    {m : PathVariable α} (hm : m ∈ x.members) :
    v.shown.model.candidate.Knows m.var.name ↔ m.var.key ∈ v.model.problem.listed := by
  rw [Workspace.knows_shown]
  constructor
  · rintro ⟨k, hk, hname⟩
    rcases hlisted k hk with hvars | rfl
    · obtain ⟨u, hu, rfl⟩ := List.mem_map.1 hvars
      rwa [← h.key_eq_of_name hu hm hname]
    · -- the name of the anchor has another first letter
      obtain ⟨ms, -, -, rfl⟩ := h.members
      obtain ⟨p, -, rfl⟩ := List.mem_map.1 hm
      change "__dummy" = "x_" ++ pathToken p.1 at hname
      rw [← String.append_empty (s := "__dummy")] at hname
      exact absurd hname (Diagram.append_ne_append (by decide) (by decide) (by decide) _ _)
  · exact fun hk => ⟨_, hk, rfl⟩

/-- A question to the solver does not make path variables known. -/
theorem knows_of_answered (h : Assembled dia options rules fixed z x w) {v : Workspace α}
    (hlisted : v.model.problem.listed ⊆ (z.flatMap (fun d => d.z.map Prod.snd) ++ x.vars).map Variable.key)
    (verdict : Verdict α) {m : PathVariable α} (hm : m ∈ x.members)
    (hknows : (v.answered verdict).shown.model.candidate.Knows m.var.name) :
    v.shown.model.candidate.Knows m.var.name := by
  have hanswered : ∀ k ∈ (v.answered verdict).model.problem.listed,
      k ∈ v.model.problem.listed ∨ k = (Problem.anchor (α := α)).key := fun k hk => Problem.mem_listed_question hk
  rw [h.knows_shown_iff (fun k hk => (hanswered k hk).imp_left fun hk => hlisted hk) hm] at hknows
  rw [h.knows_shown_iff (fun k hk => Or.inl (hlisted hk)) hm]
  refine (hanswered _ hknows).resolve_right fun hkey => ?_
  -- the anchor does not belong to the family of the path variables
  obtain ⟨ms, -, -, rfl⟩ := h.members
  obtain ⟨p, -, rfl⟩ := List.mem_map.1 hm
  cases congrArg VarKey.family hkey

end Assembled

end Occurrence

/-! ## The main statement -/

section Statement

variable [Scalar α]

omit [Scalar α] in
/-- Registering callbacks that have not submitted anything, and setting the objective. -/
theorem runOn_register_aim (cuts : List (LazyCallback α)) (e : LinearExpr α) (sense : Sense) (w : Workspace α) :
    Build.runOn (do cuts.forM Build.register; Build.setObjective (some e) sense) w =
      (.ok (), { w with model := { w.model with
        problem := { w.model.problem with objective := some e, sense := sense }
        callbacks := w.model.callbacks ++ cuts } }) := by
  induction cuts generalizing w with
  | nil =>
      rw [List.append_nil]
      rfl
  | cons cb cuts ih =>
      have hrest := ih { w with model := { w.model with callbacks := w.model.callbacks ++ [cb] } }
      rw [List.append_assoc] at hrest
      exact hrest

/-- **What callbacks can look up.** A model of an accepted diagram with probability tables is built, lazy cuts over its
path variables are registered, and the objective is set to the expected utility. In the candidate that is shown to
callbacks a path variable is known exactly if there is a decision node, or the problem has the constraint on the
probabilities with a coefficient other than zero for the path, or the coefficient of the path in the objective is not
zero. If all path variables are known, no look-up fails in a run, unless the solver says so itself. If one is not
known, a run has a fault at the first optimum. -/
theorem snapshot_knows_iff [Lengths] {dia : Diagram α} (h : dia.Accepted) {P : ProbabilityTables α}
    (hP : dia.P = .tables P) {options : ModelOptions α} {rules : List ForbiddenRule} {fixed : FixedStates}
    {z : List (DecisionVariables α)} {x : PathVariables α} {w : Workspace α}
    (hbuilt : (assemble dia options rules fixed).runOn (.empty options.name) = (.ok (z, x), w))
    {cuts : List (LazyCallback α)} (hcuts : ∀ cb ∈ cuts, x.Cut cb.evaluate ∧ cb.added = false) {scale : α}
    {e : LinearExpr α} (he : expectedValue dia x scale = .ok e) {sense : Sense} {v : Workspace α}
    (haim : Build.runOn (do cuts.forM Build.register; Build.setObjective (some e) sense) w = (.ok (), v)) :
    (∀ m ∈ x.members, v.shown.model.candidate.Knows m.var.name ↔
      dia.D ≠ [] ∨ (options.lazyCuts = false ∧ (m.prob * options.scale == 0) = false) ∨
        ∃ u, dia.U.eval m.path = .ok u ∧ (m.prob * u * scale == 0) = false) ∧
    ((∀ m ∈ x.members, v.shown.model.candidate.Knows m.var.name) →
      ∀ solver : Solver α, (∀ call p name, solver call p ≠ .error (.notInCandidate name)) →
        ∀ name, ((solve solver).runOn v).1 ≠ .error (.notInCandidate name)) ∧
    ((∃ m ∈ x.members, ¬v.shown.model.candidate.Knows m.var.name) → v.model.callbacks ≠ [] →
      ∀ (solver : Solver α) (verdict : Verdict α), solver 0 v.model.problem.withAnchor.observe = .ok verdict →
        verdict.status = .optimal → ∃ f, ((solve solver).runOn v).1 = .error f) := by
  have hmodel := (assemble_ends h hP options rules fixed).of_ok rfl hbuilt
  have hv : v = { w with model := { w.model with
      problem := { w.model.problem with objective := some e, sense := sense }
      callbacks := w.model.callbacks ++ cuts } } :=
    congrArg Prod.snd (haim.symm.trans (runOn_register_aim cuts e sense w))
  have hlisted : v.model.problem.listed ⊆ (z.flatMap (fun d => d.z.map Prod.snd) ++ x.vars).map Variable.key := by
    rw [hv]
    exact hmodel.listed_subset he sense
  have hknows : ∀ m ∈ x.members, v.shown.model.candidate.Knows m.var.name ↔ m.var.key ∈ v.model.problem.listed :=
    fun m hm => hmodel.knows_shown_iff (fun k hk => Or.inl (hlisted hk)) hm
  have hcallbacks : ∀ cb ∈ v.model.callbacks, x.Cut cb.evaluate ∧ cb.added = false := by
    rw [hv]
    refine List.forall_mem_append.2 ⟨?_, hcuts⟩
    rw [hmodel.model]
    dsimp only
    split
    · exact List.forall_mem_singleton.2 ⟨.mass _ _, rfl⟩
    · exact fun cb hcb => absurd hcb List.not_mem_nil
  refine ⟨fun m hm => ?_, fun hall solver hsolver name => ?_, ?_⟩
  · rw [hknows m hm, hv]
    exact hmodel.mem_listed_iff he sense hm
  · have hrefused : ∀ call p f, solver call p = .error f → ∀ name, f ≠ .notInCandidate name :=
      fun call p f hf name heq => hsolver call p name (heq ▸ hf)
    have hkeeps := x.upkeep.solve_ends hrefused
    cases hrun : (solve solver).runOn v with
    | mk result v' =>
        cases result with
        | ok r => exact fun heq => by cases heq
        | error f =>
            have hstart : (∀ cb ∈ v.model.callbacks, x.Cut cb.evaluate) ∧
                ∀ m ∈ x.members, m.var.key ∈ v.model.problem.listed :=
              ⟨fun cb hcb => (hcallbacks cb hcb).1, fun m hm => (hknows m hm).1 (hall m hm)⟩
            have hf := (hkeeps.of_error hstart hrun).2
            exact fun heq => hf name (Except.error.inj heq)
  · rintro ⟨m, hm, hunknown⟩ hne solver verdict hverdict hoptimal
    obtain ⟨cb, rest, hcb⟩ := List.exists_cons_of_ne_nil hne
    obtain ⟨hcut, hadded⟩ := hcallbacks cb (hcb ▸ List.mem_cons_self)
    obtain ⟨f, hf⟩ := hcut.evaluate_eq_error hm (mt (hmodel.knows_of_answered hlisted verdict hm) hunknown)
    exact ⟨f, solve_eq_error hverdict hoptimal (hcb ▸ rfl) hadded hf⟩

end Statement

/-- For a fair coin and a guess callbacks know all path variables, also those without utility. -/
theorem snapshot_knows_fairCoin : ∃ z x w e v cb,
    (assemble fairCoin .default [] .empty).runOn (.empty ModelOptions.defaultName) = (.ok (z, x), w) ∧
    expectedValue fairCoin x 1 = .ok e ∧ x.Cut (LazyCallback.evaluate cb) ∧
    Build.runOn (do [cb].forM Build.register; Build.setObjective (some e) .maximize) w = (.ok (), v) ∧
    (∀ m ∈ x.members, v.shown.model.candidate.Knows m.var.name) ∧
    ∀ solver : Solver Rat, (∀ call p name, solver call p ≠ .error (.notInCandidate name)) →
      ∀ name, ((solve solver).runOn v).1 ≠ .error (.notInCandidate name) := by
  have hwell := fairCoin_wellFormed
  have hfixed := FixedStates.within_empty fairCoin.S
  have hbuilt := Diagram.assemble_eq hwell.tabulated hwell.counts_pos (rulesWithin_nil _) hfixed
    (show 0 < (ModelOptions.default : ModelOptions Rat).scale by decide)
  have he : expectedValue fairCoin (fairCoin.pathBlock [] .empty) 1 = .ok _ :=
    expectedValue_eq hwell hfixed (show (0 : Rat) < 1 by decide)
  let cb : LazyCallback Rat :=
    ⟨probabilityCutName, evaluateProbabilityCut (fairCoin.pathBlock [] .empty) 1 0, false⟩
  have hcut : ∀ c ∈ [cb], (fairCoin.pathBlock [] .empty).Cut c.evaluate ∧ c.added = false :=
    List.forall_mem_singleton.2 ⟨.mass _ _, rfl⟩
  have haim := runOn_register_aim [cb] (LinearExpr.sum ((fairCoin.memberPaths [] .empty).map fun s =>
    .scaled (fairCoin.prob s * fairCoin.utility s * 1) (.ofVar (pathVariable 1 s)))) .maximize
    (fairCoin.assembled [] .empty .default)
  obtain ⟨hknows, hrun, -⟩ := snapshot_knows_iff hwell.accepted rfl hbuilt hcut he haim
  have hall : ∀ m ∈ (fairCoin.pathBlock [] .empty).members, _ := fun m hm => (hknows m hm).2 (Or.inl (by decide))
  exact ⟨_, _, _, _, _, cb, hbuilt, he, (hcut cb List.mem_cons_self).1, haim, hall, hrun hall⟩

/-- A fair coin, and a reward for one of its sides. -/
def sideBet : Diagram Rat where
  S := [2]
  C := [⟨0, []⟩]
  D := []
  V := [⟨1, [0]⟩]
  P := .tables ⟨[(⟨0, []⟩, ⟨[2], [1/2, 1/2], by decide⟩)]⟩
  U := .tables [(⟨1, [0]⟩, ⟨[2], [0, 1], by decide⟩)] 0

theorem sideBet_wellFormed : sideBet.WellFormed where
  accepted := Diagram.accepted_iff.2 (by decide)
  counts_pos := by decide
  info_nodup := by decide
  info_lt := by decide
  probability := ⟨_, rfl, by decide, by decide, by decide +kernel⟩
  utility := ⟨rfl, by decide⟩

/-- The first path of the bet has probability but no utility. In the lazy model no constraint mentions its variable,
the objective does not either, and a run has a fault at the first optimum. -/
theorem snapshot_misses_path : sideBet.WellFormed ∧ ∃ z x w e v,
    (assemble sideBet { ModelOptions.default with lazyCuts := true } [] .empty).runOn
      (.empty ModelOptions.defaultName) = (.ok (z, x), w) ∧
    expectedValue sideBet x 1 = .ok e ∧ (Build.setObjective (some e) .maximize).runOn w = (.ok (), v) ∧
    (∃ m ∈ x.members, m.var.name = "x_0" ∧ ¬v.shown.model.candidate.Knows m.var.name) ∧
    ∀ (solver : Solver Rat) (verdict : Verdict Rat), solver 0 v.model.problem.withAnchor.observe = .ok verdict →
      verdict.status = .optimal → ((solve solver).runOn v).1 = .error (.notInCandidate "x_0") := by
  have hwell := sideBet_wellFormed
  have hfixed := FixedStates.within_empty sideBet.S
  let options : ModelOptions Rat := { ModelOptions.default with lazyCuts := true }
  let x := sideBet.pathBlock [] .empty
  let w := sideBet.assembled [] .empty options
  have hbuilt : (assemble sideBet options [] .empty).runOn (.empty options.name) = (.ok (_, x), w) :=
    Diagram.assemble_eq hwell.tabulated hwell.counts_pos (rulesWithin_nil _) hfixed
      (show 0 < options.scale by decide)
  have hmodel := (assemble_ends hwell.accepted rfl options [] .empty).of_ok rfl hbuilt
  obtain ⟨e, he⟩ : ∃ e, expectedValue sideBet x 1 = .ok e :=
    ⟨_, expectedValue_eq hwell hfixed (show (0 : Rat) < 1 by decide)⟩
  have hlisted := hmodel.listed_subset he .maximize
  -- the first path has no utility
  have hpaths : sideBet.memberPaths [] .empty = [[0], [1]] := by decide +kernel
  let m : PathVariable Rat := ⟨[0], pathVariable 1 [0], sideBet.prob [0]⟩
  obtain ⟨rest, hmembers⟩ : ∃ rest, x.members = m :: rest :=
    ⟨[⟨[1], pathVariable 1 [1], sideBet.prob [1]⟩], congrArg (List.map _) hpaths⟩
  have hm : m ∈ x.members := hmembers ▸ List.mem_cons_self
  have hname : m.var.name = "x_0" := by decide +kernel
  have hutility : sideBet.U.eval [0] = .ok 0 := by
    have hzero : sideBet.utility [0] = 0 := by decide +kernel
    rw [hwell.eval_utility (Diagram.inSpace_of_member hfixed (hpaths ▸ List.mem_cons_self)), hzero]
  have hunlisted := mt (hmodel.mem_listed_iff he .maximize hm).1 <| by
    rintro (hne | ⟨hlazy, -⟩ | ⟨u, hu, hne⟩)
    · exact hne rfl
    · cases hlazy
    · obtain rfl := Except.ok.inj (hutility.symm.trans hu)
      rw [mul_zero, zero_mul] at hne
      cases hne
  obtain ⟨v, hv⟩ : ∃ v, (Build.setObjective (some e) .maximize).runOn w = (.ok (), v) := ⟨_, rfl⟩
  have hproblem : v.model.problem = { w.model.problem with objective := some e, sense := .maximize } := by
    rw [← (Prod.mk.inj hv).2]
  have hcallbacks : v.model.callbacks =
      [⟨probabilityCutName, evaluateProbabilityCut x options.scale options.tolerance, false⟩] := by
    rw [← (Prod.mk.inj hv).2]
    rfl
  rw [← hproblem] at hlisted hunlisted
  have hunknown := mt (hmodel.knows_shown_iff (fun k hk => Or.inl (hlisted hk)) hm).1 hunlisted
  refine ⟨hwell, _, x, w, e, v, hbuilt, he, hv, ⟨m, hm, hname, hunknown⟩, ?_⟩
  intro solver verdict hverdict hoptimal
  refine solve_eq_error hverdict hoptimal (congrArg List.head? hcallbacks) rfl ?_
  have hvalue := Candidate.value_eq_error (mt (hmodel.knows_of_answered hlisted verdict hm) hunknown)
  rw [hname] at hvalue
  have hmass : candidateMass x (v.answered verdict).shown.model.candidate = .error (.notInCandidate "x_0") := by
    unfold candidateMass
    rw [hmembers, List.foldlM_cons, hname, hvalue]
    rfl
  show evaluateProbabilityCut x _ _ _ = _
  unfold evaluateProbabilityCut
  rw [hmass]
  rfl

end InfluenceDiagrams
