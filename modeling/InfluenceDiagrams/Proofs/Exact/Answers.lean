import InfluenceDiagrams.Proofs.Exact.Feasibility
import InfluenceDiagrams.Proofs.Model.Correspondence
import InfluenceDiagrams.Proofs.Model.Extraction
import InfluenceDiagrams.Proofs.Model.LazyCut
import InfluenceDiagrams.Proofs.Model.Membership

/-!
# `InfluenceDiagrams.Proofs.Exact.Answers` — the values that the exact solver gives to variables

A problem is solved by position, and the values that are found are given to the variables again. If no two variables
of a problem have the same key, and every constraint names a variable once, a point by position satisfies the program
exactly where the values satisfy the problem.

## Contents
- **`Problem.Tidy`** — variables with distinct keys, and constraints about them.
- **`BoxProgram.sumAt_rowOf`**, **`BoxProgram.ofProblem_regular`** — constraints by position.
- **`BoxProgram.FeasibleAt.feasible`** — from a point by position to values of variables.
- **`exactSolver_feasible`** — the values that an answer leaves the variables with; `exactSolver_feasible_shares` is a case.
- **`Diagram.question_tidy`**, **`Diagram.exactSolver_encodes`** — in the model of a diagram they are those of a strategy.
-/

namespace InfluenceDiagrams

/-- The variables of a problem have distinct keys, and bounds that are not the wrong way round. Its constraints are about
them, and no constraint names a variable twice, or the anchor of the objective. -/
structure Problem.Tidy (p : Problem Rat) : Prop where
  keys_nodup : (p.met.map Variable.key).Nodup
  low_le_high : ∀ v ∈ p.met, v.low ≤ v.high
  vars_met : ∀ c ∈ p.constraints, ∀ v ∈ c.2.vars, v ∈ p.met
  vars_nodup : ∀ c ∈ p.constraints, (c.2.vars.map Variable.key).Nodup
  unanchored : ∀ c ∈ p.constraints, ∀ v ∈ c.2.vars, v.key ≠ (Problem.anchor (α := Rat)).key

namespace Exact

namespace BoxProgram

variable {p : Problem Rat} {vs : List (Variable Rat)}

/-! ## Positions -/

/-- The position of a variable, if no other one has its key. -/
theorem findIdx?_of_nodup (hvs : (vs.map Variable.key).Nodup) {i : Nat} {v : Variable Rat} (hi : vs[i]? = some v) :
    vs.findIdx? (fun u => u.key == v.key) = some i := by
  obtain ⟨hlt, rfl⟩ := List.getElem?_eq_some_iff.1 hi
  rw [List.findIdx?_eq_some_iff_getElem]
  refine ⟨hlt, beq_self_eq_true _, fun j hj heq => ?_⟩
  have hj' : j < (vs.map Variable.key).length := by rw [List.length_map]; exact hj.trans hlt
  have hkeys : (vs.map Variable.key)[j]? = (vs.map Variable.key)[i]? := by
    rw [List.getElem?_map, List.getElem?_map, List.getElem?_eq_getElem (hj.trans hlt), hi]
    exact congrArg some (eq_of_beq heq)
  exact absurd ((List.getElem?_inj hj' hvs).1 hkeys) (Nat.ne_of_lt hj)

/-- A term has a place unless its coefficient is zero. -/
def place? (vs : List (Variable Rat)) (t : Variable Rat × Rat) : Option (Nat × Rat) :=
  if t.2 = 0 then none else (vs.findIdx? fun v => v.key == t.1.key).map (·, t.2)

theorem positions_eq (vs : List (Variable Rat)) (terms : List (Variable Rat × Rat)) :
    positions vs terms = terms.filterMap (place? vs) := by
  refine List.filterMap_congr fun t _ => ?_
  by_cases h : t.2 = 0
  · rw [place?, if_pos h, if_pos (beq_iff_eq.2 h)]
  · rw [place?, if_neg h, if_neg fun heq => h (eq_of_beq heq)]

theorem place?_eq_some {t : Variable Rat × Rat} {y : Nat × Rat} (h : place? vs t = some y) :
    t.2 = y.2 ∧ ∃ v, vs[y.1]? = some v ∧ v.key = t.1.key := by
  unfold place? at h
  split at h
  · cases h
  · obtain ⟨i, hi, rfl⟩ := Option.map_eq_some_iff.1 h
    obtain ⟨hlt, hkey, -⟩ := List.findIdx?_eq_some_iff_getElem.1 hi
    exact ⟨rfl, vs[i], List.getElem?_eq_getElem hlt, eq_of_beq hkey⟩

theorem positions_nodup {terms : List (Variable Rat × Rat)} (hterms : (terms.map fun t => t.1.key).Nodup) :
    ((positions vs terms).map Prod.fst).Nodup := by
  rw [positions_eq, List.Nodup, List.pairwise_map, List.pairwise_filterMap]
  refine (List.pairwise_map.1 hterms).imp fun hne y hy y' hy' heq => hne ?_
  obtain ⟨-, v, hv, hkey⟩ := place?_eq_some hy
  obtain ⟨-, v', hv', hkey'⟩ := place?_eq_some hy'
  rw [heq] at hv
  rw [← hkey, ← hkey', Option.some.inj (hv.symm.trans hv')]

/-- The sum of a row at a point is the value of its terms. -/
theorem sum_positions {point : VarKey → Rat} {x : Nat → Rat} (hvs : (vs.map Variable.key).Nodup)
    {terms : List (Variable Rat × Rat)}
    (h : ∀ t ∈ terms, ∃ i, vs[i]? = some t.1 ∧ x i = point t.1.key) :
    ((positions vs terms).map fun t => t.2 * x t.1).sum = LinearExpr.termSum point terms := by
  rw [positions_eq, LinearExpr.termSum]
  induction terms with
  | nil => rfl
  | cons t terms ih =>
      obtain ⟨⟨i, hi, hx⟩, hterms⟩ := List.forall_mem_cons.1 h
      rw [List.map_cons, List.sum_cons, ← ih hterms, List.filterMap_cons]
      by_cases hzero : t.2 = 0
      · rw [show place? vs t = none from if_pos hzero, hzero, mul_zero, zero_add]
      · rw [show place? vs t = some (i, t.2) from by rw [place?, if_neg hzero, findIdx?_of_nodup hvs hi]; rfl]
        show (List.map _ (_ :: _)).sum = _
        rw [List.map_cons, List.sum_cons, hx, mul_comm]

/-! ## Programs of problems -/

theorem terms_rowOf (vs : List (Variable Rat)) (c : Constraint Rat) : (rowOf vs c).terms = positions vs c.terms := by
  unfold rowOf
  split <;> rfl

theorem regular_rowOf {c : Constraint Rat} (hc : (c.vars.map Variable.key).Nodup) :
    (rowOf vs c).Regular vs.length := by
  rw [Constraint.vars, List.map_map] at hc
  refine ⟨?_, ?_, fun l u hl hu => ?_⟩
  · rw [terms_rowOf]
    exact positions_nodup hc
  · rw [terms_rowOf, positions_eq]
    intro y hy
    obtain ⟨t, -, ht⟩ := List.mem_filterMap.1 hy
    obtain ⟨-, v, hv, -⟩ := place?_eq_some ht
    exact (List.getElem?_eq_some_iff.1 hv).1
  · cases hrelation : c.relation with
    | le =>
        rw [rowOf, hrelation] at hl
        cases hl
    | eq =>
        rw [rowOf, hrelation] at hl hu
        exact le_of_eq ((Option.some.inj hl).symm.trans (Option.some.inj hu))
    | ge =>
        rw [rowOf, hrelation] at hu
        cases hu

/-- A sum between the bounds of its row satisfies the constraint. -/
theorem compares_of_between {c : Constraint Rat} {x : Rat} (h : Between (rowOf vs c).low (rowOf vs c).high x) :
    c.relation.Compares x c.rhs := by
  cases hrelation : c.relation with
  | le =>
      rw [rowOf, hrelation] at h
      exact h.le_high _ rfl
  | eq =>
      rw [rowOf, hrelation] at h
      exact le_antisymm (h.le_high _ rfl) (h.low_le _ rfl)
  | ge =>
      rw [rowOf, hrelation] at h
      exact h.low_le _ rfl

theorem size_ofProblem (p : Problem Rat) : (ofProblem p).box.lows.size = p.met.length := by simp [ofProblem]

theorem bounds_ofProblem {i : Nat} {v : Variable Rat} (hi : p.met[i]? = some v) :
    (ofProblem p).box.low i = v.low ∧ (ofProblem p).box.high i = v.high := by
  constructor
  · show (p.met.map Variable.low).toArray.getD i 0 = v.low
    simp [hi]
  · show (p.met.map Variable.high).toArray.getD i 0 = v.high
    simp [hi]

theorem ofProblem_regular (h : p.Tidy) : (ofProblem p).Regular where
  proper := by
    refine ⟨by simp [ofProblem], fun i => ?_⟩
    cases hi : p.met[i]? with
    | none =>
        show (p.met.map Variable.low).toArray.getD i 0 ≤ (p.met.map Variable.high).toArray.getD i 0
        simp [hi]
    | some v =>
        obtain ⟨hlow, hhigh⟩ := bounds_ofProblem hi
        rw [hlow, hhigh]
        exact h.low_le_high v (List.mem_of_getElem? hi)
  size_eq := by simp [ofProblem]
  rows := by
    intro r hr
    obtain ⟨c, hc, rfl⟩ := List.mem_map.1 hr
    rw [size_ofProblem]
    exact regular_rowOf (h.vars_nodup c hc)

theorem mem_integers {i : Nat} {v : Variable Rat} (hi : p.met[i]? = some v) (hv : v.category = .integer) :
    i ∈ (ofProblem p).integers := by
  obtain ⟨hlt, rfl⟩ := List.getElem?_eq_some_iff.1 hi
  rw [integers, List.mem_filter, List.mem_range]
  refine ⟨by simpa [ofProblem] using hlt, ?_⟩
  show (p.met.map fun v => v.category == .integer).toArray.getD i false = true
  simp [hlt, hv]

/-- Values of variables that are those of a point by position satisfy the problem if the point satisfies the program. -/
theorem FeasibleAt.feasible {x : Array Rat} (h : (ofProblem p).FeasibleAt x) (hp : p.Tidy) {point : VarKey → Rat}
    (hpoint : ∀ c ∈ p.constraints, ∀ v ∈ c.2.vars, ∀ i, p.met[i]? = some v → point v.key = x.getD i 0) :
    p.Feasible point := by
  intro c hc
  have hplace : ∀ t ∈ c.2.terms, ∃ i, p.met[i]? = some t.1 ∧ x.getD i 0 = point t.1.key := by
    intro t ht
    have hv : t.1 ∈ c.2.vars := List.mem_map_of_mem ht
    obtain ⟨i, hi⟩ := List.getElem?_of_mem (hp.vars_met c hc t.1 hv)
    exact ⟨i, hi, (hpoint c hc t.1 hv i hi).symm⟩
  constructor
  · have hrow := h.rows (rowOf p.met c.2) (List.mem_map_of_mem hc)
    rw [Row.sumAt, terms_rowOf, sum_positions hp.keys_nodup hplace] at hrow
    rw [Constraint.Holds, LinearExpr.eval_eq, zero_add]
    exact compares_of_between hrow
  · intro t ht
    obtain ⟨i, hi, hx⟩ := hplace t ht
    obtain ⟨hlow, hhigh⟩ := bounds_ofProblem hi
    have hlt : i < (ofProblem p).box.lows.size := by
      rw [size_ofProblem]
      exact (List.getElem?_eq_some_iff.1 hi).1
    obtain ⟨hle, hge⟩ := h.inside i hlt
    rw [hx] at hle hge
    exact ⟨hlow ▸ hle, hhigh ▸ hge, fun hinteger => hx ▸ h.integers i (mem_integers hi hinteger)⟩

end BoxProgram

/-! ## The main statement -/

variable {p : Problem Rat} {best : Incumbent Rat}

theorem keys_values_nodup (h : (p.met.map Variable.key).Nodup) : ((verdict p (some best)).values.map Prod.fst).Nodup := by
  have hplaces : (p.met.zipIdx.map fun x => x.1.key).Nodup := by
    rwa [← List.zipIdx_map_fst (l := p.met), List.map_map] at h
  rw [List.Nodup, List.pairwise_map, verdict, List.pairwise_filterMap]
  refine (List.pairwise_map.1 hplaces).imp fun {x y} hne a ha b hb heq => hne ?_
  dsimp only at ha hb
  split at ha
  · cases ha
  · split at hb
    · cases hb
    · obtain rfl := Option.some.inj ha
      obtain rfl := Option.some.inj hb
      exact heq

/-- A variable of a constraint gets the value at its position. -/
theorem value_mem_verdict (hp : p.Tidy) (hsize : best.point.size = p.met.length) {c : String × Constraint Rat}
    (hc : c ∈ p.constraints) {v : Variable Rat} (hv : v ∈ c.2.vars) {i : Nat} (hi : p.met[i]? = some v) :
    (v.key, some (.real (best.point.getD i 0))) ∈ (verdict p (some best)).values := by
  have hanchor : (v == Problem.anchor) = false := by
    rw [← Bool.not_eq_true, Variable.beq_iff]
    exact hp.unanchored c hc v hv
  have hoccurs : occurs p v = true := by
    obtain ⟨t, ht, rfl⟩ := List.mem_map.1 hv
    exact Bool.or_eq_true_iff.2 (Or.inr (List.any_eq_true.2 ⟨c, hc, List.any_eq_true.2 ⟨t, ht, beq_self_eq_true _⟩⟩))
  have hlt : i < best.point.size := hsize ▸ (List.getElem?_eq_some_iff.1 hi).1
  refine List.mem_filterMap.2 ⟨(v, i), List.mem_zipIdx_iff_getElem?.2 hi, ?_⟩
  dsimp only
  rw [hanchor, hoccurs, if_neg (by decide), Array.getD_eq_getD_getElem?, Array.getElem?_eq_getElem hlt]
  rfl

/-- **Answers of the exact solver.** Without tolerances for rows and integers, an answer of the exact solver that is
called optimal leaves the variables of a problem with values that satisfy all its constraints, within the bounds, and
integers where they have to be. -/
theorem exactSolver_feasible {tols : List (Tolerance Rat)} (htols : ∀ tol ∈ tols, tol.feasible = 0 ∧ tol.integral = 0)
    {w : Workspace Rat} (hp : w.question.Tidy) {call : Nat} {answer : Verdict Rat}
    (h : exactSolver tols call w.question = .ok answer) (hoptimal : answer.status = .optimal) :
    (w.answered answer).model.problem.Feasible (valueAt (w.answered answer).model.value?) := by
  show w.question.Feasible _
  unfold exactSolver at h
  split at h
  · cases hfound : tols.findSome? fun tol => optimum tol (.ofProblem w.question) with
    | none =>
        rw [hfound] at h
        obtain rfl := Except.ok.inj h
        cases hoptimal
    | some best =>
        rw [hfound] at h
        obtain rfl := Except.ok.inj h
        obtain ⟨tol, htol, hbest⟩ := List.exists_of_findSome?_eq_some hfound
        have hfeasible := optimum_feasible (htols tol htol).1 (htols tol htol).2 (BoxProgram.ofProblem_regular hp) hbest
        refine hfeasible.feasible hp fun c hc v hv i hi => ?_
        have hsize := hfeasible.size_eq.trans (BoxProgram.size_ofProblem _)
        have hfind := (Keyed.find?_eq_some_iff (keys_values_nodup hp.keys_nodup)).2
          (value_mem_verdict hp hsize hc hv hi)
        have hvalue : (w.answered (verdict w.question (some best))).model.value? v.key =
            some (.real (best.point.getD i 0)) :=
          congrArg Option.join (Keyed.find?_append_of_some hfind)
        rw [valueAt, hvalue]
        rfl
  · cases h

/-- Shares of two things, of which the first is worth twice as much. -/
def shares : Workspace Rat where
  model := { DecisionModel.empty "shares" with
    problem := { (Problem.empty "shares").extend [("whole", ⟨[(.real "x" 0 0 1, 1), (.real "y" 0 0 1, 1)], .le, 1⟩)] with
      objective := some ⟨[(.real "x" 0 0 1, 2), (.real "y" 0 0 1, 1)], 0⟩ } }
  notices := []

theorem tidy_shares : shares.question.Tidy where
  keys_nodup := by decide
  low_le_high := by decide +kernel
  vars_met := by
    intro c hc v hv
    obtain rfl := List.mem_singleton.1 hc
    exact hv
  vars_nodup := by decide
  unanchored := by decide

/-- The better bounds leave more than a whole, and after one repair all of it is the first thing. -/
theorem exactSolver_feasible_shares : ∃ answer, exactSolver [⟨0, 0, 0⟩] 0 shares.question = .ok answer ∧
    valueAt (shares.answered answer).model.value? ⟨"x", 0⟩ = 1 ∧
    valueAt (shares.answered answer).model.value? ⟨"y", 0⟩ = 0 ∧
    (shares.answered answer).model.problem.Feasible (valueAt (shares.answered answer).model.value?) := by
  have htols : ∀ tol ∈ [(⟨0, 0, 0⟩ : Tolerance Rat)], tol.feasible = 0 ∧ tol.integral = 0 :=
    List.forall_mem_singleton.2 ⟨rfl, rfl⟩
  have hanswer : exactSolver [⟨0, 0, 0⟩] 0 shares.question = .ok _ := rfl
  exact ⟨_, hanswer, by decide +kernel, by decide +kernel,
    exactSolver_feasible htols tidy_shares hanswer (by decide +kernel)⟩

end Exact

/-! ## The model of a diagram -/

namespace Diagram

variable {dia : Diagram Rat} {rules : List ForbiddenRule} {fixed : FixedStates} {options : ModelOptions Rat}
  {e : LinearExpr Rat} {sense : Sense}

theorem key_ne_anchor {v : Variable Rat} (hv : v ∈ dia.modelVariables rules fixed) :
    v.key ≠ (Problem.anchor (α := Rat)).key := by
  intro hkey
  rcases mem_modelVariables.1 hv with ⟨d, -, index, -, rfl⟩ | ⟨s, -, rfl⟩
  · have hname : "z_" ++ toString d.index ++ "_" ++ pathToken index = "__dummy" := congrArg VarKey.name hkey
    rw [String.append_assoc, String.append_assoc, ← String.append_empty (s := "__dummy")] at hname
    exact append_ne_append (by decide) (by decide) (by decide) _ _ hname
  · cases congrArg VarKey.family hkey

/-- The question about the model of a diagram has tidy variables and constraints. -/
theorem question_tidy (he : e.Within (dia.modelVariables rules fixed)) :
    ((dia.assembled rules fixed options).aimed e sense).question.Tidy := by
  have hconstraints : ((dia.assembled rules fixed options).aimed e sense).question.constraints =
      (dia.assembled rules fixed options).model.problem.constraints :=
    (Problem.constraints_observe _).trans (Problem.constraints_withAnchor _)
  have hmet : (dia.assembled rules fixed options).model.problem.met ⊆
      ((dia.assembled rules fixed options).aimed e sense).question.met := by
    refine List.Subset.trans ?_ (Problem.met_subset_observe _)
    rw [Problem.met_withAnchor]
    exact List.Subset.refl _
  refine ⟨?_, fun v hv => ?_, fun c hc v hv => ?_, ?_, fun c hc v hv => ?_⟩
  · refine Problem.observe_keys_nodup ?_
    rw [Problem.met_withAnchor]
    exact Problem.meet_keys_nodup (p := Problem.empty options.name) List.nodup_nil _
  · rcases List.mem_cons.1 (met_question he hv) with rfl | hv
    · exact le_refl _
    · rcases mem_modelVariables.1 hv with ⟨d, -, index, -, rfl⟩ | ⟨s, -, rfl⟩
      · exact zero_le_one
      · exact zero_le_one
  · rw [hconstraints] at hc
    have hmodel := vars_assembled c hc v hv
    have hall : v ∈ ((dia.linkedConstraints rules fixed ++
        dia.cutConstraints rules fixed (!options.lazyCuts) options.scale).flatMap fun c => c.2.vars) :=
      List.mem_flatMap.2 ⟨c, constraints_assembled dia rules fixed options ▸ hc, hv⟩
    obtain ⟨u, hu, hkey⟩ := Problem.exists_met_meet (p := Problem.empty options.name) hall
    have hu := hmet hu
    rcases List.mem_cons.1 (met_question he hu) with rfl | hknown
    · exact absurd hkey.symm (key_ne_anchor hmodel)
    · rwa [← modelVariables_eq_of_key hknown hmodel hkey]
  · rw [hconstraints, constraints_assembled, List.forall_mem_append]
    refine ⟨forall_linkedConstraints.2 ⟨fun d _ info _ => ?_, fun d _ index _ _ => ?_⟩, ?_⟩
    · exact LinearExpr.keys_nodup_sumVars _
    · exact LinearExpr.keys_nodup_sub (LinearExpr.keys_nodup_sumVars _) _
    · unfold cutConstraints
      split
      · exact List.forall_mem_singleton.2 (LinearExpr.keys_nodup_sum _)
      · exact fun c hc => absurd hc List.not_mem_nil
  · rw [hconstraints] at hc
    exact key_ne_anchor (vars_assembled c hc v hv)

/-- **Strategies of the exact solver.** Whatever is optimised in the model of a well-formed diagram, an answer of the
exact solver that is called optimal leaves the variables with the values of a strategy. -/
theorem exactSolver_encodes (h : dia.WellFormed) (hfixed : fixed.Within dia.S) (heager : options.lazyCuts = false)
    (hscale : 0 < options.scale) (he : e.Within (dia.modelVariables rules fixed))
    {tols : List (Exact.Tolerance Rat)} (htols : ∀ tol ∈ tols, tol.feasible = 0 ∧ tol.integral = 0)
    {w : Workspace Rat} (hw : w = (dia.assembled rules fixed options).aimed e sense) {call : Nat} {answer : Verdict Rat}
    (hanswer : Exact.exactSolver tols call w.question = .ok answer) (hoptimal : answer.status = .optimal) :
    ∃ Z : Strategy, Z.Admissible dia (dia.pathBlock rules fixed) ∧
      Encodes (dia.D.map dia.decisionBlock) (dia.pathBlock rules fixed)
        (valueAt (w.answered answer).model.value?) Z := by
  subst hw
  have hfeasible := Exact.exactSolver_feasible htols (question_tidy he) hanswer hoptimal
  refine (solution_iff_exists_encodes h hfixed).1 ((feasible_iff_solution hscale ?_ _).1 hfeasible)
  exact (constraints_answered _ _).trans (constraints_eager heager)

end Diagram
end InfluenceDiagrams
