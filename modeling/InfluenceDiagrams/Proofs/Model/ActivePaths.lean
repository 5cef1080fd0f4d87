import InfluenceDiagrams.Proofs.Diagram.ZeroFree
import InfluenceDiagrams.Proofs.Model.Construction
import InfluenceDiagrams.Proofs.Model.Correspondence
import InfluenceDiagrams.Proofs.Model.LazyCut

/-!
# `InfluenceDiagrams.Proofs.Model.ActivePaths` — how many paths are taken

Without zeros in the probability tables, a feasible point takes every path that its strategy allows. All these
paths agree with the fixed states, and their number is that of the joint states of the chance nodes that are not
fixed, whatever the strategy and the rules are. The constraint on the number of paths is therefore satisfied by
all feasible points. The callback that submits it counts the paths whose value is above the least positive entry
of the tables, which is all of them, unless that entry is one.

## Contents
- **`WellFormed.length_allowed_eq`** — the number of allowed paths that agree at some nodes.
- **`Solution.sum_shares`, `Solution.countP_taken`** — the paths that a feasible point takes.
- **`countConstraint`, `countCallback`** — the constraint and its callback; `registerActivePathsCut_run`.
- **`activePathsCut_keeps_feasible`** — the constraint holds at all feasible points.
- **`activePathsCut_silent_iff`** — when the callback does not object to feasible points.
-/

namespace InfluenceDiagrams

/-! ## Fixed nodes -/

/-- The nodes that are fixed. -/
def FixedStates.nodes (fixed : FixedStates) : List Node := fixed.pairs.map Prod.fst

theorem FixedStates.fixes_eq_contains (fixed : FixedStates) (k : Node) : fixed.fixes k = fixed.nodes.contains k := by
  rw [Bool.eq_iff_iff, fixes, Keyed.hasKey, List.any_eq_true, List.contains_iff_mem, nodes, List.mem_map]
  simp only [beq_iff_eq]

/-- Paths that agree with the fixed states have the same states at the fixed nodes. -/
theorem FixedStates.Agrees.entry_eq {fixed : FixedStates} {s t : Path} (hs : fixed.Agrees s) (ht : fixed.Agrees t)
    {k : Node} (hk : k ∈ fixed.nodes) : entry s k = entry t k := by
  have hfixes : (fixed.state? k).isSome = true := by
    rw [← fixes_eq_isSome, fixes_eq_contains]
    exact List.contains_iff_mem.2 hk
  obtain ⟨v, hv⟩ := Option.isSome_iff_exists.1 hfixes
  rw [hs k v hv, ht k v hv]

theorem requiredPaths?_eq {α : Type} {dia : Diagram α} (h : dia.Accepted) (fixed : FixedStates) :
    requiredPaths? dia fixed = some (freeCount dia fixed.nodes) := by
  have hcounts : ((dia.indices .chance).filter fun c => !fixed.fixes c).mapM (nth? dia.S) =
      some (((dia.indices .chance).filter fun c => !fixed.fixes c).map (entry dia.S)) :=
    mapM_eq_pure fun k hk => nth?_eq_entry (h.chance_inRange (List.mem_of_mem_filter hk))
  rw [requiredPaths?, hcounts, Option.map_some, numPaths_empty, freeCount]
  simp only [FixedStates.fixes_eq_contains]

/-! ## Counting -/

/-- The callback counts the variables above the threshold. -/
theorem activePaths_eq {x : PathVariables Rat} {c : Candidate Rat} {point : VarKey → Rat} (h : c.Gives x point)
    (threshold : Rat) : activePaths x threshold c =
      .ok ((x.members.countP fun m => decide (threshold < point m.var.key) : Nat) : Int) := by
  have hstep : ∀ n : Int, ∀ m ∈ x.members,
      ((c.value m.var.name).map fun v => if threshold < v then n + 1 else n) =
        pure (if threshold < point m.var.key then n + 1 else n) := by
    intro n m hm
    rw [h m hm]
    rfl
  have hcount : ∀ (ms : List (PathVariable Rat)) (n : Int),
      ms.foldl (fun n m => if threshold < point m.var.key then n + 1 else n) n =
        n + (ms.countP fun m => decide (threshold < point m.var.key) : Nat) := by
    intro ms
    induction ms with
    | nil => exact fun n => (add_zero n).symm
    | cons m ms ih =>
        intro n
        rw [List.foldl_cons, ih, List.countP_cons]
        by_cases hm : threshold < point m.var.key <;> simp [hm]
        omega
  rw [activePaths, foldlM_eq_pure hstep 0, hcount, zero_add]
  rfl

/-- An integer is at most nine tenths if it is zero. -/
theorem intAtMost_defaultPathTolerance (n : Int) :
    Scalar.intAtMost (n.natAbs : Int) (defaultPathTolerance : Rat) = decide (n = 0) := by
  have hfloor : Scalar.floor? (defaultPathTolerance : Rat) = some 0 := by decide +kernel
  rw [Scalar.intAtMost, hfloor]
  dsimp only
  rw [decide_eq_decide]
  omega

namespace Diagram

variable {dia : Diagram Rat} {rules : List ForbiddenRule} {fixed : FixedStates} {point : VarKey → Rat}
  {Z : Strategy}

/-! ## Paths that are taken -/

/-- If all allowed paths have the same states at some nodes, they are as many as there are ways to choose the
states of the other chance nodes. -/
theorem WellFormed.length_allowed_eq (h : dia.WellFormed) (hZ : Z.Fits dia) {nodes : List Node}
    (hsame : ∀ s ∈ dia.allowedPaths Z, ∀ t ∈ dia.allowedPaths Z, ∀ k ∈ nodes, entry s k = entry t k) :
    ((dia.allowedPaths Z).length : Rat) = freeCount dia nodes := by
  -- some path is allowed, since the probabilities of all of them sum to one
  have hne : dia.allowedPaths Z ≠ [] := by
    intro hnil
    have htotal := h.sum_prob_allowed hZ
    rw [hnil] at htotal
    cases htotal
  obtain ⟨t, ht⟩ := List.exists_mem_of_ne_nil _ hne
  have hall : ((dia.allowedPaths Z).filter fun s =>
      decide (∀ c ∈ dia.indices .chance, c ∈ nodes → entry s c = entry t c)) = dia.allowedPaths Z :=
    List.filter_eq_self.2 fun s hs => decide_eq_true fun c _ hc => hsame s hs t ht c hc
  rw [← h.staged.length_allowed_agreeing hZ (inSpace_of_allowed ht) nodes, hall]

section Solutions

variable (h : dia.WellFormed) (hzero : dia.ZeroFree) (hfixed : fixed.Within dia.S)
  (hsol : dia.Solution rules fixed point)

include h hfixed hsol in
/-- A path variable is zero or one. -/
theorem Solution.share_eq {s : Path} (hs : s ∈ dia.memberPaths rules fixed) :
    shareAt point s = if (readStrategy dia point).allows s = true then 1 else 0 := by
  obtain ⟨hZ, hpoint⟩ := hsol.exists_encodes h hfixed
  exact ((encodes_iff hZ.nodes_eq).1 hpoint).2 s hs

include h hzero hfixed hsol in
/-- The paths taken are as many as there are joint states of the chance nodes that are not fixed. -/
theorem Solution.sum_shares :
    ((dia.memberPaths rules fixed).map (shareAt point)).sum = freeCount dia fixed.nodes := by
  obtain ⟨hZ, -⟩ := hsol.exists_encodes h hfixed
  have hmembers : ∀ s ∈ dia.allowedPaths (readStrategy dia point), s ∈ dia.memberPaths rules fixed := by
    intro s hs
    rw [← paths_pathBlock]
    exact hZ.members s hs (h.prob_pos hzero (inSpace_of_allowed hs))
  have hsame : ∀ s ∈ dia.allowedPaths (readStrategy dia point), ∀ t ∈ dia.allowedPaths (readStrategy dia point),
      ∀ k ∈ fixed.nodes, entry s k = entry t k := by
    have hagrees : ∀ s ∈ dia.allowedPaths (readStrategy dia point), fixed.Agrees s := fun s hs =>
      ((mem_paths_iff hfixed).1 (List.mem_of_mem_filter (hmembers s hs))).2
    exact fun s hs t ht k hk => (hagrees s hs).entry_eq (hagrees t ht) hk
  calc ((dia.memberPaths rules fixed).map (shareAt point)).sum
      = ((dia.memberPaths rules fixed).map fun s =>
          if (readStrategy dia point).allows s = true then (1 : Rat) else 0).sum := by
        rw [List.map_congr_left fun s hs => hsol.share_eq h hfixed hs]
    _ = ((dia.allowedPaths (readStrategy dia point)).map fun s =>
          if s ∈ dia.memberPaths rules fixed then (1 : Rat) else 0).sum := sum_members_allowed hfixed fun _ => 1
    _ = (dia.allowedPaths (readStrategy dia point)).length := by
        rw [List.map_congr_left fun s hs => if_pos (hmembers s hs), List.map_const', List.sum_replicate, nsmul_one]
    _ = freeCount dia fixed.nodes := h.length_allowed_eq hZ.fits hsame

include h hzero hfixed hsol in
/-- A threshold below one counts the paths taken, and any other one counts nothing. -/
theorem Solution.countP_taken {threshold : Rat} (hthreshold : 0 ≤ threshold) :
    (((dia.memberPaths rules fixed).countP fun s => decide (threshold < shareAt point s) : Nat) : Rat) =
      if threshold < 1 then (freeCount dia fixed.nodes : Rat) else 0 := by
  rw [List.countP_eq_length_filter, length_filter_eq_sum]
  simp only [decide_eq_true_eq]
  have hterm : ∀ s ∈ dia.memberPaths rules fixed, (if threshold < shareAt point s then (1 : Rat) else 0) =
      if threshold < 1 then shareAt point s else 0 := by
    intro s hs
    rw [hsol.share_eq h hfixed hs]
    by_cases hallows : (readStrategy dia point).allows s = true
    · rw [if_pos hallows]
    · rw [if_neg hallows, if_neg (not_lt.2 hthreshold), ite_self]
  rw [List.map_congr_left hterm]
  split
  · exact hsol.sum_shares h hzero hfixed
  · exact List.sum_map_zero

end Solutions

/-! ## The constraint and its callback -/

/-- The paths taken are as many as there are joint states of the chance nodes that are not fixed. -/
def countConstraint (dia : Diagram Rat) (rules : List ForbiddenRule) (fixed : FixedStates) : Constraint Rat :=
  .equals (.sumVars (dia.pathBlock rules fixed).vars) (freeCount dia fixed.nodes)

/-- The callback for the number of paths. -/
def countCallback (dia : Diagram Rat) (rules : List ForbiddenRule) (fixed : FixedStates) (threshold tolerance : Rat) :
    LazyCallback Rat :=
  ⟨"active_paths_cut",
    evaluateActivePathsCut (dia.pathBlock rules fixed) threshold (freeCount dia fixed.nodes) tolerance, false⟩

theorem holds_countConstraint : (dia.countConstraint rules fixed).Holds point ↔
    ((dia.memberPaths rules fixed).map (shareAt point)).sum = freeCount dia fixed.nodes := by
  rw [countConstraint, Constraint.holds_equals, LinearExpr.eval_sumVars, PathVariables.vars, pathBlock, List.map_map,
    List.map_map]
  rfl

/-- The callback objects unless the number of variables above the threshold is right up to the tolerance. -/
theorem evaluate_countCallback {c : Candidate Rat} (hc : c.Gives (dia.pathBlock rules fixed) point)
    (threshold tolerance : Rat) :
    (dia.countCallback rules fixed threshold tolerance).evaluate c =
      .ok (if Scalar.intAtMost ((((dia.memberPaths rules fixed).countP fun s =>
          decide (threshold < shareAt point s) : Nat) : Int) - freeCount dia fixed.nodes).natAbs tolerance
        then none else some (.unnamed (dia.countConstraint rules fixed))) := by
  have hcount : (dia.pathBlock rules fixed).members.countP (fun m => decide (threshold < point m.var.key)) =
      (dia.memberPaths rules fixed).countP fun s => decide (threshold < shareAt point s) := by
    rw [pathBlock, List.countP_map]
    rfl
  show (do
    let n ← activePaths (dia.pathBlock rules fixed) threshold c
    if Scalar.intAtMost (n - freeCount dia fixed.nodes).natAbs tolerance then .ok none
    else .ok (some (LazyConstraint.unnamed (dia.countConstraint rules fixed))) : Except (Fault Rat) _) = _
  rw [activePaths_eq hc, hcount]
  show (if _ then Except.ok none else Except.ok (some (LazyConstraint.unnamed (dia.countConstraint rules fixed)))) = _
  split <;> rfl

/-- What the callback submits does not depend on the candidate. -/
theorem eq_of_evaluateActivePathsCut {threshold tolerance : Rat} {c : Candidate Rat}
    {cut : LazyConstraint Rat}
    (hcut : (dia.countCallback rules fixed threshold tolerance).evaluate c = .ok (some cut)) :
    cut = .unnamed (dia.countConstraint rules fixed) := by
  change (do
    let n ← activePaths (dia.pathBlock rules fixed) threshold c
    if Scalar.intAtMost (n - freeCount dia fixed.nodes).natAbs tolerance then .ok none
    else .ok (some (LazyConstraint.unnamed (dia.countConstraint rules fixed))) : Except (Fault Rat) _) = _ at hcut
  cases hcount : activePaths (dia.pathBlock rules fixed) threshold c with
  | error f =>
      rw [hcount] at hcut
      cases hcut
  | ok n =>
      rw [hcount] at hcut
      change (if _ then Except.ok none else
        Except.ok (some (LazyConstraint.unnamed (dia.countConstraint rules fixed)))) = _ at hcut
      split at hcut
      · cases hcut
      · exact (Option.some.inj (Except.ok.inj hcut)).symm

/-- Registration gives a notice and succeeds. -/
theorem registerActivePathsCut_run (h : dia.Accepted) {P : ProbabilityTables Rat} (hP : dia.P = .tables P)
    (hzero : dia.ZeroFree) (rules : List ForbiddenRule) (fixed : FixedStates) (tolerance : Rat) (w : Workspace Rat) :
    (registerActivePathsCut dia (dia.pathBlock rules fixed) tolerance).runOn w = (.ok (),
      ⟨{ w.model with callbacks := w.model.callbacks ++ [dia.countCallback rules fixed P.minPositive tolerance] },
        w.notices ++ [.activePathsCut]⟩) := by
  have htables : orFault (Fault.tablesRequired (α := Rat)) dia.tables? = .ok P := by
    rw [tables?, hP]
    rfl
  have hrequired : orFault (Fault.outOfRange (α := Rat)) (requiredPaths? dia (dia.pathBlock rules fixed).fixed) =
      .ok (freeCount dia fixed.nodes) := by
    rw [requiredPaths?_eq h]
    rfl
  unfold registerActivePathsCut
  rw [Build.runOn_bind_ok (Build.runOn_lift_ok htables w),
    Build.runOn_bind_ok (Build.runOn_require (by rw [hzero P hP]; rfl) _ w),
    Build.runOn_bind_ok (Build.runOn_notify _ w), Build.runOn_bind_ok (Build.runOn_lift_ok hrequired _)]
  rfl

/-! ## Feasible points -/

theorem freeCount_nodes (dia : Diagram Rat) (fixed : FixedStates) : freeCount dia fixed.nodes =
    (((dia.indices .chance).filter fun c => !fixed.fixes c).map (entry dia.S)).prod := by
  simp only [freeCount, FixedStates.fixes_eq_contains]

/-- The paths taken in numbers: a callback with the least positive entry as its threshold counts all of them,
unless no chance node has a choice of states. -/
theorem Solution.countP_minPositive (h : dia.WellFormed) (hzero : dia.ZeroFree) (hfixed : fixed.Within dia.S)
    (hsol : dia.Solution rules fixed point) {P : ProbabilityTables Rat} (hP : dia.P = .tables P) :
    (((dia.memberPaths rules fixed).countP fun s => decide (P.minPositive < shareAt point s) : Nat) : Int) =
      if dia.Certain then 0 else freeCount dia fixed.nodes := by
  obtain ⟨Q, hQ, hfits⟩ := h.probability
  obtain rfl : P = Q := PathProbability.tables.inj (hP.symm.trans hQ)
  have hcount := hsol.countP_taken h hzero hfixed (WellFormed.minPositive_nonneg P)
  simp only [h.minPositive_lt_one_iff hzero hP hfits, ite_not] at hcount
  split at hcount
  · rename_i hcertain
    rw [if_pos hcertain]
    exact_mod_cast hcount
  · rename_i hcertain
    rw [if_neg hcertain]
    exact_mod_cast hcount

/-- Without a choice of chance states there is one joint state. -/
theorem Certain.freeCount_eq (hcertain : dia.Certain) (nodes : List Node) : freeCount dia nodes = 1 := by
  rw [freeCount]
  apply List.prod_eq_one
  intro n hn
  obtain ⟨k, hk, rfl⟩ := List.mem_map.1 hn
  obtain ⟨c, hc, rfl⟩ := List.mem_map.1 (List.mem_of_mem_filter hk)
  exact hcertain.2 c hc

/-- At a feasible point the callback with the default tolerance does not object, unless no chance node has a
choice of states; then it always does. -/
theorem Solution.evaluate_default (h : dia.WellFormed) (hzero : dia.ZeroFree) (hfixed : fixed.Within dia.S)
    (hsol : dia.Solution rules fixed point) {P : ProbabilityTables Rat} (hP : dia.P = .tables P) {c : Candidate Rat}
    (hc : c.Gives (dia.pathBlock rules fixed) point) :
    (dia.countCallback rules fixed P.minPositive defaultPathTolerance).evaluate c =
      .ok (if dia.Certain then some (.unnamed (dia.countConstraint rules fixed)) else none) := by
  rw [evaluate_countCallback hc, intAtMost_defaultPathTolerance, hsol.countP_minPositive h hzero hfixed hP]
  by_cases hcertain : dia.Certain
  · rw [if_pos hcertain, if_pos hcertain, hcertain.freeCount_eq]
    rfl
  · rw [if_neg hcertain, if_neg hcertain, sub_self]
    rfl

end Diagram

theorem Problem.feasible_addNext {p : Problem Rat} {c : Constraint Rat} {point : VarKey → Rat} :
    (p.addNext c).Feasible point ↔ p.Feasible point ∧ c.Holds point ∧ ∀ t ∈ c.terms, Admits point t.1 := by
  show (∀ a ∈ p.constraints ++ [(automaticName p.nextNumber, c)], _) ↔ _
  rw [List.forall_mem_append, List.forall_mem_singleton]
  rfl

/-- A feasible point satisfies the constraint on the number of paths, and gives its variables admissible values. -/
theorem Diagram.Solution.feasible_countConstraint {dia : Diagram Rat} {rules : List ForbiddenRule}
    {fixed : FixedStates} {point : VarKey → Rat} (h : dia.WellFormed) (hzero : dia.ZeroFree)
    (hfixed : fixed.Within dia.S) (hsol : dia.Solution rules fixed point) :
    (dia.countConstraint rules fixed).Holds point ∧
      ∀ t ∈ (dia.countConstraint rules fixed).terms, Problem.Admits point t.1 := by
  refine ⟨Diagram.holds_countConstraint.2 (hsol.sum_shares h hzero hfixed), ?_⟩
  intro t ht
  have hvar := LinearExpr.vars_sumVars (List.mem_map_of_mem (f := Prod.fst) ht)
  rw [PathVariables.vars, Diagram.pathBlock, List.map_map] at hvar
  obtain ⟨s, hs, heq⟩ := List.mem_map.1 hvar
  rw [← heq]
  exact Diagram.admits_real.2 (hsol.share s hs)

/-! ## Candidates -/

/-- The candidate with the values of a point for the path variables. -/
def Candidate.ofPoint (x : PathVariables Rat) (point : VarKey → Rat) : Candidate Rat :=
  x.members.map fun m => (m.var.name, some (.real (point m.var.key)))

theorem Diagram.gives_ofPoint (dia : Diagram Rat) (rules : List ForbiddenRule) (fixed : FixedStates)
    (point : VarKey → Rat) :
    (Candidate.ofPoint (dia.pathBlock rules fixed) point).Gives (dia.pathBlock rules fixed) point := by
  intro m hm
  obtain ⟨s, hs, rfl⟩ := List.mem_map.1 hm
  -- all path variables are of one family, so that the values go by name
  have hfind : Keyed.find? (pathVariable (α := Rat) 1 s).name (Candidate.ofPoint (dia.pathBlock rules fixed) point) =
      some (some (.real (point ⟨(pathVariable (α := Rat) 1 s).name, 1⟩))) := by
    rw [Candidate.ofPoint, pathBlock, List.map_map]
    exact Keyed.find?_map_of_mem (f := fun s => (pathVariable (α := Rat) 1 s).name)
      (fun name => some (Numeral.real (point ⟨name, 1⟩))) hs
  show (Candidate.ofPoint (dia.pathBlock rules fixed) point).value (pathVariable (α := Rat) 1 s).name = _
  rw [Candidate.value, hfind]
  exact Numeral.finite_eq _

/-- The callback objects to the candidate that takes no path. -/
theorem Diagram.evaluate_idle {dia : Diagram Rat} (rules : List ForbiddenRule) (fixed : FixedStates)
    {threshold : Rat} (hthreshold : 0 ≤ threshold) (hcount : freeCount dia fixed.nodes ≠ 0) :
    (dia.countCallback rules fixed threshold defaultPathTolerance).evaluate
      (.ofPoint (dia.pathBlock rules fixed) fun _ => 0) = .ok (some (.unnamed (dia.countConstraint rules fixed))) := by
  have hnone : (dia.memberPaths rules fixed).countP
      (fun s => decide (threshold < shareAt (fun _ => (0 : Rat)) s)) = 0 := by
    rw [List.countP_eq_zero]
    intro s _
    rw [decide_eq_true_eq]
    exact not_lt.2 hthreshold
  rw [evaluate_countCallback (dia.gives_ofPoint rules fixed _), hnone, intAtMost_defaultPathTolerance,
    decide_eq_false (by omega)]
  rfl

/-! ## The main statements -/

/-- **The constraint on the number of paths is valid.** Take a well-formed diagram without zeros in its probability
tables, and fixed states within it. For every tolerance and all rules, if the eager model is built, then the callback
is registered, and all feasible points of the model satisfy the constraint that it may submit: the path variables
sum up to the product of the state counts of the chance nodes that are not fixed. Adding the constraint leaves the
feasible points as they are. The model is built if the rules name nodes of the state space only. -/
theorem activePathsCut_keeps_feasible {dia : Diagram Rat} (h : dia.WellFormed) (hzero : dia.ZeroFree)
    {fixed : FixedStates} (hfixed : fixed.Within dia.S) {options : ModelOptions Rat}
    (heager : options.lazyCuts = false) (hscale : 0 < options.scale) (rules : List ForbiddenRule) (tolerance : Rat) :
    (RulesWithin rules dia.S → ∃ b w, (assemble dia options rules fixed).runOn (.empty options.name) = (.ok b, w)) ∧
    ∀ z x w, (assemble dia options rules fixed).runOn (.empty options.name) = (.ok (z, x), w) →
      ∃ cb v, (registerActivePathsCut dia x tolerance).runOn w = (.ok (), v) ∧
        v.model.callbacks = w.model.callbacks ++ [cb] ∧ v.model.problem = w.model.problem ∧
        (∀ point, w.model.problem.Feasible point → (x.members.map fun m => point m.var.key).sum =
          (((dia.indices .chance).filter fun c => !fixed.fixes c).map (entry dia.S)).prod) ∧
        ∀ c cut, cb.evaluate c = .ok (some cut) →
          cut = .unnamed (.equals (.sumVars x.vars)
            (((dia.indices .chance).filter fun c => !fixed.fixes c).map (entry dia.S)).prod) ∧
          ∃ v', (Build.addConstraint cut.name cut.constraint).runOn v = (.ok (), v') ∧
            ∀ point, v'.model.problem.Feasible point ↔ w.model.problem.Feasible point := by
  constructor
  · intro hrules
    exact ⟨_, _, Diagram.assemble_eq h.tabulated h.counts_pos hrules hfixed hscale⟩
  intro z x w hrun
  obtain ⟨-, rfl, rfl, rfl⟩ := Diagram.eq_assembled h.tabulated h.counts_pos hrun
  obtain ⟨P, hP, -⟩ := h.probability
  have hsolution : ∀ point, (dia.assembled rules fixed options).model.problem.Feasible point ↔
      dia.Solution rules fixed point := Diagram.feasible_iff_solution hscale (Diagram.constraints_eager heager)
  rw [← Diagram.freeCount_nodes]
  refine ⟨_, _, Diagram.registerActivePathsCut_run h.accepted hP hzero rules fixed tolerance _, rfl, rfl, ?_, ?_⟩
  · intro point hpoint
    rw [← ((hsolution point).1 hpoint).sum_shares h hzero hfixed, Diagram.pathBlock, List.map_map]
    rfl
  · intro c cut hcut
    obtain rfl := Diagram.eq_of_evaluateActivePathsCut hcut
    refine ⟨rfl, _, Build.runOn_addConstraint (Problem.addConstraint_none _ _), ?_⟩
    intro point
    refine Problem.feasible_addNext.trans (and_iff_left_of_imp ?_)
    intro hpoint
    exact ((hsolution point).1 hpoint).feasible_countConstraint h hzero hfixed

/-- For a fair coin and a guess, a point that stands for a strategy is feasible with and without the constraint,
which is submitted at a candidate that takes no path: two paths are taken. -/
theorem activePathsCut_keeps_feasible_fairCoin : ∃ z x w cb v c cut v' point,
    (assemble fairCoin .default [] .empty).runOn (.empty ModelOptions.defaultName) = (.ok (z, x), w) ∧
    (registerActivePathsCut fairCoin x defaultPathTolerance).runOn w = (.ok (), v) ∧
    v.model.callbacks = w.model.callbacks ++ [cb] ∧ cb.evaluate c = .ok (some cut) ∧
    (Build.addConstraint cut.name cut.constraint).runOn v = (.ok (), v') ∧
    w.model.problem.Feasible point ∧ v'.model.problem.Feasible point ∧
    (x.members.map fun m => point m.var.key).sum = 2 := by
  have hwell := fairCoin_wellFormed
  have hfixed := FixedStates.within_empty fairCoin.S
  have hscale : 0 < (ModelOptions.default : ModelOptions Rat).scale := by decide
  have hbuilt := Diagram.assemble_eq hwell.tabulated hwell.counts_pos (rulesWithin_nil fairCoin.S) hfixed hscale
  have hregistered := Diagram.registerActivePathsCut_run hwell.accepted rfl fairCoin_zeroFree [] .empty
    defaultPathTolerance (fairCoin.assembled [] .empty .default)
  obtain ⟨point, hencodes⟩ := Diagram.exists_encodes [] .empty hwell fairCoinStrategy_fits rfl
  have hpoint := (Diagram.feasible_iff_solution hscale (Diagram.constraints_eager rfl) point).2
    (Diagram.solution_of_encodes hwell hfixed (Diagram.admissible_unrestricted fairCoinStrategy_fits rfl) hencodes)
  obtain ⟨cb, v, hregister, hcallbacks, -, hsum, hcuts⟩ :=
    (activePathsCut_keeps_feasible hwell fairCoin_zeroFree hfixed rfl hscale [] defaultPathTolerance).2 _ _ _ hbuilt
  obtain ⟨-, rfl⟩ := Prod.mk.inj (hregister.symm.trans hregistered)
  obtain rfl := List.singleton_inj.1 (List.append_cancel_left hcallbacks)
  have hcut := Diagram.evaluate_idle [] .empty
    (Diagram.WellFormed.minPositive_nonneg ⟨[(⟨0, []⟩, ⟨[2], [1/2, 1/2], rfl⟩)]⟩)
    (show freeCount fairCoin FixedStates.empty.nodes ≠ 0 by decide)
  obtain ⟨-, v', hadd, hkeeps⟩ := hcuts _ _ hcut
  exact ⟨_, _, _, _, _, _, _, v', point, hbuilt, hregister, hcallbacks, hcut, hadd, hpoint,
    (hkeeps point).2 hpoint, (hsum point hpoint).trans (by decide +kernel)⟩

/-- A chance node whose numbers sum up to one, but are not probabilities. -/
def signedChance : Diagram Rat where
  S := [3]
  C := [⟨0, []⟩]
  D := []
  V := []
  P := .tables ⟨[(⟨0, []⟩, ⟨[3], [1, 1, -1], rfl⟩)]⟩
  U := .tables [] 0

theorem signedChance_tabulated : signedChance.Tabulated where
  accepted := Diagram.accepted_iff.2 (by decide)
  probability := ⟨_, rfl, by decide, by decide⟩

/-- Negative entries cannot be allowed. Here the lines sum up to one and no entry is zero, and yet the callback
submits a constraint that a feasible point with shares of zero and one does not satisfy. -/
theorem activePathsCut_removes_feasible :
    signedChance.Tabulated ∧ (∀ n ∈ signedChance.S, 1 ≤ n) ∧
    (∀ n ∈ signedChance.C ++ signedChance.D, n.info.Nodup ∧ ∀ i ∈ n.info, i < n.index) ∧
    signedChance.U.Fits signedChance.S signedChance.V ∧ signedChance.ZeroFree ∧
    (∀ P, signedChance.P = .tables P → ∀ part ∈ P.parts, ∀ row ∈ part.2.rows, row.sum = 1) ∧
    ∃ z x w cb v c cut v' point,
      (assemble signedChance .default [] .empty).runOn (.empty ModelOptions.defaultName) = (.ok (z, x), w) ∧
      (registerActivePathsCut signedChance x defaultPathTolerance).runOn w = (.ok (), v) ∧
      v.model.callbacks = [cb] ∧ cb.evaluate c = .ok (some (.unnamed cut)) ∧
      (Build.addConstraint none cut).runOn v = (.ok (), v') ∧
      (∀ m ∈ x.members, point m.var.key = 0 ∨ point m.var.key = 1) ∧
      w.model.problem.Feasible point ∧ ¬cut.Holds point ∧ ¬v'.model.problem.Feasible point := by
  have hpos : ∀ n ∈ signedChance.S, 1 ≤ n := by decide
  have hzero : signedChance.ZeroFree := by
    rintro P ⟨⟩
    decide +kernel
  have hscale : 0 < (ModelOptions.default : ModelOptions Rat).scale := by decide
  have hmembers : signedChance.memberPaths [] .empty = [[0], [1]] := by decide +kernel
  -- the point takes the first path
  obtain ⟨point, hvalue⟩ : ∃ point : VarKey → Rat, ∀ s, shareAt point s = if s = [0] then 1 else 0 := by
    refine ⟨fun key => if key = (pathVariable (α := Rat) 1 [0]).key then 1 else 0, fun s => ?_⟩
    exact if_congr ⟨Diagram.pathVariable_key_inj, fun heq => heq ▸ rfl⟩ rfl rfl
  have hfirst : shareAt point [0] = 1 := (hvalue _).trans (by decide)
  have hsecond : shareAt point [1] = 0 := (hvalue _).trans (by decide)
  have hshares : ∀ s ∈ signedChance.memberPaths [] .empty, shareAt point s = 0 ∨ shareAt point s = 1 := by
    rw [hmembers, List.forall_mem_cons, List.forall_mem_singleton]
    exact ⟨Or.inr hfirst, Or.inl hsecond⟩
  have hsol : signedChance.Solution [] .empty point := by
    refine ⟨⟨fun d hd => absurd hd List.not_mem_nil, ?_, fun d hd => absurd hd List.not_mem_nil,
      fun d hd => absurd hd List.not_mem_nil⟩, ?_⟩
    · intro s hs
      rcases hshares s hs with hshare | hshare
      · rw [hshare]
        exact ⟨le_rfl, zero_le_one⟩
      · rw [hshare]
        exact ⟨zero_le_one, le_rfl⟩
    · have hprob : signedChance.prob [0] = 1 := by decide +kernel
      simp [hmembers, hfirst, hsecond, hprob]
  have hpoint := (Diagram.feasible_iff_solution hscale (Diagram.constraints_eager rfl) point).2 hsol
  have hviolated : ¬(signedChance.countConstraint [] .empty).Holds point := by
    have hcount : freeCount signedChance FixedStates.empty.nodes = 3 := by decide
    rw [Diagram.holds_countConstraint, hmembers, hcount]
    simp [hfirst, hsecond]
  have hcut := Diagram.evaluate_idle [] .empty
    (Diagram.WellFormed.minPositive_nonneg ⟨[(⟨0, []⟩, ⟨[3], [1, 1, -1], rfl⟩)]⟩)
    (show freeCount signedChance FixedStates.empty.nodes ≠ 0 by decide)
  refine ⟨signedChance_tabulated, hpos, by decide, ⟨rfl, by decide⟩, hzero, ?_, _, _, _, _, _, _, _, _, point,
    Diagram.assemble_eq signedChance_tabulated hpos (rulesWithin_nil _) (FixedStates.within_empty _) hscale,
    Diagram.registerActivePathsCut_run signedChance_tabulated.accepted rfl hzero [] .empty _ _, rfl, hcut,
    Build.runOn_addConstraint (Problem.addConstraint_none _ _), ?_, hpoint, hviolated, ?_⟩
  · rintro P ⟨⟩
    decide +kernel
  · intro m hm
    obtain ⟨s, hs, rfl⟩ := List.mem_map.1 hm
    exact hshares s hs
  · intro hfeasible
    exact hviolated (Problem.feasible_addNext.1 hfeasible).2.1

/-- **When the callback for the number of paths does not object.** Take a well-formed diagram without zeros in its
probability tables, fixed states within it and rules that name nodes of the state space only. The eager model is
built, and the callback is registered with the default tolerance. At every candidate with the values of a feasible
point it counts as many paths as it requires and submits nothing, unless there are chance nodes and none of them has
more than one state. In that case the least positive entry is one, no value is above it, and the callback counts no
path, requires one, and submits its constraint, although the point satisfies it. -/
theorem activePathsCut_silent_iff {dia : Diagram Rat} (h : dia.WellFormed) (hzero : dia.ZeroFree)
    {rules : List ForbiddenRule} (hrules : RulesWithin rules dia.S) {fixed : FixedStates} (hfixed : fixed.Within dia.S)
    {options : ModelOptions Rat} (heager : options.lazyCuts = false) (hscale : 0 < options.scale) :
    ∃ P z x w cb v required, dia.P = .tables P ∧
      (assemble dia options rules fixed).runOn (.empty options.name) = (.ok (z, x), w) ∧
      (registerActivePathsCut dia x defaultPathTolerance).runOn w = (.ok (), v) ∧
      v.model.callbacks = w.model.callbacks ++ [cb] ∧ v.model.problem = w.model.problem ∧
      requiredPaths? dia x.fixed = some required ∧
      ∀ point, w.model.problem.Feasible point → ∀ c : Candidate Rat, c.Gives x point →
        (¬dia.Certain → activePaths x P.minPositive c = .ok required ∧ cb.evaluate c = .ok none) ∧
        (dia.Certain → activePaths x P.minPositive c = .ok 0 ∧ required = 1 ∧
          ∃ cut, cb.evaluate c = .ok (some (.unnamed cut)) ∧ cut.Holds point) := by
  obtain ⟨P, hP, -⟩ := h.probability
  refine ⟨P, _, _, _, _, _, _, hP, Diagram.assemble_eq h.tabulated h.counts_pos hrules hfixed hscale,
    Diagram.registerActivePathsCut_run h.accepted hP hzero rules fixed _ _, rfl, rfl,
    requiredPaths?_eq h.accepted fixed, ?_⟩
  intro point hpoint c hc
  have hsol := (Diagram.feasible_iff_solution hscale (Diagram.constraints_eager heager) point).1 hpoint
  have hevaluate := hsol.evaluate_default h hzero hfixed hP hc
  have hcount : activePaths (dia.pathBlock rules fixed) P.minPositive c =
      .ok (if dia.Certain then 0 else freeCount dia fixed.nodes) := by
    rw [activePaths_eq hc, ← hsol.countP_minPositive h hzero hfixed hP, Diagram.pathBlock, List.countP_map]
    rfl
  constructor
  · intro hchoice
    rw [if_neg hchoice] at hevaluate hcount
    exact ⟨hcount, hevaluate⟩
  · intro hcertain
    rw [if_pos hcertain] at hevaluate hcount
    exact ⟨hcount, hcertain.freeCount_eq _, _, hevaluate, (hsol.feasible_countConstraint h hzero hfixed).1⟩

/-- For a fair coin and a guess the callback does not object to a point that stands for a strategy, where it counts
two paths. -/
theorem activePathsCut_silent_fairCoin : ∃ P z x w cb v point c,
    fairCoin.P = .tables P ∧
    (assemble fairCoin .default [] .empty).runOn (.empty ModelOptions.defaultName) = (.ok (z, x), w) ∧
    (registerActivePathsCut fairCoin x defaultPathTolerance).runOn w = (.ok (), v) ∧
    v.model.callbacks = w.model.callbacks ++ [cb] ∧ w.model.problem.Feasible point ∧ Candidate.Gives c x point ∧
    activePaths x P.minPositive c = .ok 2 ∧ cb.evaluate c = .ok none := by
  have hwell := fairCoin_wellFormed
  have hrules := rulesWithin_nil fairCoin.S
  have hfixed := FixedStates.within_empty fairCoin.S
  have hscale : 0 < (ModelOptions.default : ModelOptions Rat).scale := by decide
  obtain ⟨P, z, x, w, cb, v, required, hP, hbuilt, hregister, hcallbacks, -, hrequired, hsilent⟩ :=
    activePathsCut_silent_iff hwell fairCoin_zeroFree hrules hfixed rfl hscale
  obtain ⟨-, -, rfl, rfl⟩ := Diagram.eq_assembled hwell.tabulated hwell.counts_pos hbuilt
  have htwo : requiredPaths? fairCoin FixedStates.empty = some 2 := by decide
  obtain rfl : required = 2 := Option.some.inj (hrequired.symm.trans htwo)
  obtain ⟨point, hencodes⟩ := Diagram.exists_encodes [] .empty hwell fairCoinStrategy_fits rfl
  have hpoint := (Diagram.feasible_iff_solution hscale (Diagram.constraints_eager rfl) point).2
    (Diagram.solution_of_encodes hwell hfixed (Diagram.admissible_unrestricted fairCoinStrategy_fits rfl) hencodes)
  have hgives := fairCoin.gives_ofPoint [] .empty point
  obtain ⟨hcount, hnone⟩ := (hsilent point hpoint _ hgives).1 (by decide)
  exact ⟨P, _, _, _, cb, v, point, _, hP, hbuilt, hregister, hcallbacks, hpoint, hgives, hcount, hnone⟩

/-- With a single chance state the callback objects to a feasible point, although its tables have no zeros and no
rule or fixed state is involved. -/
theorem activePathsCut_objects_foregone : foregone.WellFormed ∧ foregone.ZeroFree ∧
    ∃ z x w cb v point c cut,
      (assemble foregone .default [] .empty).runOn (.empty ModelOptions.defaultName) = (.ok (z, x), w) ∧
      (registerActivePathsCut foregone x defaultPathTolerance).runOn w = (.ok (), v) ∧
      v.model.callbacks = [cb] ∧ w.model.problem.Feasible point ∧ Candidate.Gives c x point ∧
      cb.evaluate c = .ok (some (.unnamed cut)) ∧ cut.Holds point := by
  have hwell := foregone_wellFormed
  have hfixed := FixedStates.within_empty foregone.S
  have hscale : 0 < (ModelOptions.default : ModelOptions Rat).scale := by decide
  have hZ : Strategy.Fits foregone ⟨[]⟩ := ⟨by decide, fun z hz => absurd hz List.not_mem_nil⟩
  obtain ⟨point, hencodes⟩ := Diagram.exists_encodes [] .empty hwell hZ rfl
  have hsol := Diagram.solution_of_encodes hwell hfixed (Diagram.admissible_unrestricted hZ rfl) hencodes
  have hgives := foregone.gives_ofPoint [] .empty point
  have hcut := hsol.evaluate_default hwell foregone_zeroFree hfixed rfl hgives
  exact ⟨hwell, foregone_zeroFree, _, _, _, _, _, point, _, _,
    Diagram.assemble_eq hwell.tabulated hwell.counts_pos (rulesWithin_nil _) hfixed hscale,
    Diagram.registerActivePathsCut_run hwell.accepted rfl foregone_zeroFree [] .empty _ _, rfl,
    (Diagram.feasible_iff_solution hscale (Diagram.constraints_eager rfl) point).2 hsol, hgives, hcut,
    (hsol.feasible_countConstraint hwell foregone_zeroFree hfixed).1⟩

end InfluenceDiagrams
