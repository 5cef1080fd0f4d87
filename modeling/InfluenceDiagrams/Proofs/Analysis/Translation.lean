import InfluenceDiagrams.Proofs.Analysis.Tail
import InfluenceDiagrams.Proofs.Diagram.Shift

/-!
# `InfluenceDiagrams.Proofs.Analysis.Translation` — shifted utilities shift what a strategy yields

Shifts on top of each other add one constant to the utilities of all paths, the sum of what each of them adds. The
constant goes through everything that strategies are compared by. The distribution of the utility merges and
sorts the same paths as before, since equal utilities stay equal and the order of utilities stays as it is; so its
masses are the same, and its utilities are those before plus the constant. Expected utility, quantiles and
means of the tail follow, and no comparison of two strategies changes.

## Contents
- **`eval_foldl_shifted`** — the utility below several shifts.
- **`UtilityDistribution.translated`, `utilityDistribution_translated`** — a constant added to all utilities.
- **`valueAtRisk_translated`, `conditionalValueAtRisk_translated`** — the same for risk measures.
- **`Criterion`** — the numbers that strategies are compared by; **`Criterion.value_translated`**.
- **`shifts_translate`** — the main statement.
-/

namespace InfluenceDiagrams

/-! ## Utilities below shifts -/

/-- Wrapping a utility several times adds the sum of the offsets, for whatever path. -/
theorem eval_foldl_shifted (amounts : List Rat) (U : PathUtility Rat) (s : Path) :
    (amounts.foldl PathUtility.shifted U).eval s = (U.eval s).map (· + amounts.sum) := by
  induction amounts generalizing U with
  | nil => cases hu : U.eval s <;> simp [hu, Except.map]
  | cons t amounts ih =>
      rw [List.foldl_cons, ih, PathUtility.eval]
      cases U.eval s with
      | error f => rfl
      | ok u =>
          show Except.ok (u + t + amounts.sum) = Except.ok (u + (t :: amounts).sum)
          rw [List.sum_cons, add_assoc]

/-! ## Distributions -/

/-- A point with a constant added to its utility. -/
def raise (c : Rat) (x : Rat × Rat) : Rat × Rat := (x.1 + c, x.2)

/-- The distribution with a constant added to every utility. -/
def UtilityDistribution.translated (dist : UtilityDistribution Rat) (c : Rat) : UtilityDistribution Rat :=
  ⟨dist.points.map (raise c)⟩

@[simp] theorem UtilityDistribution.p_translated (dist : UtilityDistribution Rat) (c : Rat) :
    (dist.translated c).p = dist.p := by
  rw [p, translated, List.map_map]
  rfl

@[simp] theorem UtilityDistribution.u_translated (dist : UtilityDistribution Rat) (c : Rat) :
    (dist.translated c).u = dist.u.map (· + c) := by
  rw [u, u, translated, List.map_map, List.map_map]
  rfl

/-- Utilities that differ before differ after, so that the same points are merged. -/
theorem upsert_map_raise (c u p : Rat) (merge : Rat → Rat) (mass : List (Rat × Rat)) :
    Keyed.upsert (u + c) p merge (mass.map (raise c)) = (Keyed.upsert u p merge mass).map (raise c) := by
  induction mass with
  | nil => rfl
  | cons x mass ih =>
      obtain ⟨k, q⟩ := x
      rw [List.map_cons, raise, Keyed.upsert, Keyed.upsert, ih]
      by_cases hk : k = u
      · rw [if_pos (beq_iff_eq.2 hk), if_pos (beq_iff_eq.2 (congrArg (· + c) hk))]
        rfl
      · have hraised : ¬k + c = u + c := fun heq => hk (add_right_cancel heq)
        rw [if_neg (mt beq_iff_eq.1 hraised), if_neg (mt beq_iff_eq.1 hk)]
        rfl

theorem mergeSort_map_raise (c : Rat) {le : Rat × Rat → Rat × Rat → Bool}
    (hle : ∀ a b, le (raise c a) (raise c b) = le a b) (mass : List (Rat × Rat)) :
    (mass.map (raise c)).mergeSort le = (mass.mergeSort le).map (raise c) :=
  (List.map_mergeSort fun a _ b _ => (hle a b).symm).symm

theorem ascending_map_raise (c : Rat) (mass : List (Rat × Rat)) :
    ascending (fun a b => decide (a.1 < b.1)) (fun a => a.1 == a.1) (mass.map (raise c)) =
      (ascending (fun a b => decide (a.1 < b.1)) (fun a => a.1 == a.1) mass).map (raise c) := by
  have hall : ∀ xs : List (Rat × Rat), (xs.all fun a => a.1 == a.1) = true :=
    fun xs => List.all_eq_true.2 fun _ _ => beq_self_eq_true _
  rw [ascending, ascending, if_pos (hall _), if_pos (hall _)]
  refine mergeSort_map_raise c (fun a b => ?_) mass
  simp only [raise, add_lt_add_iff_right]

section Paths

variable {dia : Diagram Rat} {U : PathUtility Rat} {c : Rat} {Z : Strategy}
  (hU : ∀ s, InSpace dia.S s → (dia.withUtility U).utility s = dia.utility s + c)

include hU

theorem foldl_mergePath_raise {ss : List Path} (hss : ∀ s ∈ ss, InSpace dia.S s) (mass : List (Rat × Rat)) :
    ss.foldl (mergePath (dia.withUtility U)) (mass.map (raise c)) =
      (ss.foldl (mergePath dia) mass).map (raise c) := by
  induction ss generalizing mass with
  | nil => rfl
  | cons s ss ih =>
      obtain ⟨hs, hss⟩ := List.forall_mem_cons.1 hss
      have hstep : mergePath (dia.withUtility U) (mass.map (raise c)) s = (mergePath dia mass s).map (raise c) := by
        unfold mergePath
        rw [hU s hs, show (dia.withUtility U).prob s = dia.prob s from rfl, upsert_map_raise]
        split <;> rfl
      rw [List.foldl_cons, List.foldl_cons, hstep, ih hss]

variable (h : dia.Ordered) (h' : (dia.withUtility U).Ordered) (hZ : Z.Fits dia)

include h h' hZ

theorem utilityDistribution_translated :
    ∃ dist, utilityDistribution dia Z = .ok dist ∧
      utilityDistribution (dia.withUtility U) Z = .ok (dist.translated c) := by
  have hZ' : Z.Fits (dia.withUtility U) := ⟨hZ.nodes, hZ.parts⟩
  refine ⟨_, h.utilityDistribution_eq hZ, ?_⟩
  rw [h'.utilityDistribution_eq hZ', UtilityDistribution.translated, ← ascending_map_raise]
  congr 3
  exact foldl_mergePath_raise hU (fun s hs => Diagram.inSpace_of_allowed hs) []

/-- The allowed paths have probability one, which is how often the constant counts. -/
theorem expectedUtility_translated :
    ∃ e, expectedUtility dia Z = .ok e ∧ expectedUtility (dia.withUtility U) Z = .ok (e + c) := by
  have hZ' : Z.Fits (dia.withUtility U) := ⟨hZ.nodes, hZ.parts⟩
  refine ⟨_, h.expectedUtility_eq hZ, ?_⟩
  rw [h'.expectedUtility_eq hZ']
  congr 1
  calc ((dia.allowedPaths Z).map fun s => dia.prob s * (dia.withUtility U).utility s).sum
      = ((dia.allowedPaths Z).map fun s => dia.prob s * dia.utility s + dia.prob s * c).sum := by
        congr 1
        apply List.map_congr_left
        intro s hs
        rw [hU s (Diagram.inSpace_of_allowed hs), mul_add]
    _ = ((dia.allowedPaths Z).map fun s => dia.prob s * dia.utility s).sum + c := by
        rw [List.sum_map_add, List.sum_map_mul_right, h.sum_prob_allowed hZ, one_mul]

end Paths

/-! ## Risk measures -/

theorem byUtility_translated (dist : UtilityDistribution Rat) (c : Rat) :
    (dist.translated c).byUtility = dist.byUtility.map (raise c) := by
  refine mergeSort_map_raise c (fun a b => ?_) dist.points
  simp only [precedes, raise, bne_self_eq_false, Bool.false_or, add_le_add_iff_right]

/-- The search for the quantile looks at masses only. -/
theorem quantile?_map_raise (c level : Rat) (points : List (Rat × Rat)) :
    quantile? level (points.map (raise c)) = (quantile? level points).map (· + c) := by
  have hmasses : (points.map (raise c)).map Prod.snd = points.map Prod.snd := by
    rw [List.map_map]
    rfl
  have hreached : (fun x : (Rat × Rat) × Rat => decide (level ≤ x.2)) ∘ Prod.map (raise c) id =
      fun x => decide (level ≤ x.2) := rfl
  rw [quantile?, quantile?, hmasses, List.zip_map_left, List.find?_map, List.getLast?_map, hreached]
  cases (points.zip (Scalar.runningSums 0 (points.map Prod.snd))).find? fun x => decide (level ≤ x.2) with
  | some x => rfl
  | none => cases points.getLast? <;> rfl

theorem quantile?_ne_none (level : Rat) {points : List (Rat × Rat)} (hne : points ≠ []) :
    ∃ v, quantile? level points = some v := by
  rw [quantile?]
  cases (points.zip (Scalar.runningSums 0 (points.map Prod.snd))).find? fun x => decide (level ≤ x.2) with
  | some x => exact ⟨_, rfl⟩
  | none => exact ⟨_, by rw [List.getLast?_eq_some_getLast hne]; rfl⟩

section Risk

variable {dist : UtilityDistribution Rat} (hne : dist.points ≠ []) {level : Rat} (h0 : 0 ≤ level) (h1 : level ≤ 1)

include hne h0 h1

theorem valueAtRisk_translated (c : Rat) :
    ∃ v, valueAtRisk dist level = .ok v ∧ valueAtRisk (dist.translated c) level = .ok (v + c) := by
  obtain ⟨v, hv⟩ := quantile?_ne_none level (byUtility_ne_nil hne)
  refine ⟨v, ?_, ?_⟩
  · rw [valueAtRisk_eq h0 h1, hv]
    rfl
  · rw [valueAtRisk_eq h0 h1, byUtility_translated, quantile?_map_raise, hv]
    rfl

omit hne h0 h1 in
/-- Of the mass of the tail, as much as the level counts. -/
theorem tailMean_raise (points : List (Rat × Rat)) (c v : Rat) (hlevel : level ≠ 0) :
    tailMean (points.map (raise c)) Prod.fst Prod.snd level (v + c) =
      tailMean points Prod.fst Prod.snd level v + c := by
  have hmass : massUpTo (points.map (raise c)) Prod.fst Prod.snd (v + c) = massUpTo points Prod.fst Prod.snd v := by
    rw [massUpTo, massUpTo, List.map_map]
    simp only [Function.comp_def, raise, add_le_add_iff_right]
  have htail : ((points.map (raise c)).map fun x => if x.1 ≤ v + c then x.1 * x.2 else 0).sum =
      (points.map fun x => if x.1 ≤ v then x.1 * x.2 else 0).sum + massUpTo points Prod.fst Prod.snd v * c := by
    rw [massUpTo, ← List.sum_map_mul_right, ← List.sum_map_add, List.map_map]
    congr 1
    apply List.map_congr_left
    intro x _
    simp only [Function.comp_apply, raise, add_le_add_iff_right]
    split <;> ring
  rw [tailMean, tailMean, hmass, htail, div_add' _ _ _ hlevel]
  congr 1
  ring

theorem conditionalValueAtRisk_translated (c : Rat) :
    ∃ t, conditionalValueAtRisk dist level = .ok t ∧
      conditionalValueAtRisk (dist.translated c) level = .ok (t + c) := by
  obtain ⟨v, hv, hv'⟩ := valueAtRisk_translated hne h0 h1 c
  by_cases hlevel : level = 0
  · -- at level zero the value at risk is returned
    refine ⟨v, ?_, ?_⟩
    · rw [conditionalValueAtRisk, hv, hlevel]
      rfl
    · rw [conditionalValueAtRisk, hv', hlevel]
      rfl
  · refine ⟨_, conditionalValueAtRisk_eq_tailMean hlevel hv, ?_⟩
    rw [conditionalValueAtRisk_eq_tailMean hlevel hv', UtilityDistribution.translated, tailMean_raise _ _ _ hlevel]

end Risk

/-! ## Criteria -/

/-- The numbers that strategies are compared by. -/
inductive Criterion where
  | expectedUtility
  | valueAtRisk (level : Rat)
  | conditionalValueAtRisk (level : Rat)

namespace Criterion

/-- The level of a risk measure lies between zero and one. -/
def Admissible : Criterion → Prop
  | expectedUtility => True
  | valueAtRisk level | conditionalValueAtRisk level => 0 ≤ level ∧ level ≤ 1

/-- What a strategy yields by a criterion. -/
def value (dia : Diagram Rat) (Z : Strategy) : Criterion → Except (Fault Rat) Rat
  | expectedUtility => InfluenceDiagrams.expectedUtility dia Z
  | valueAtRisk level => (utilityDistribution dia Z).bind (InfluenceDiagrams.valueAtRisk · level)
  | conditionalValueAtRisk level =>
      (utilityDistribution dia Z).bind (InfluenceDiagrams.conditionalValueAtRisk · level)

end Criterion

theorem Diagram.Ordered.points_ne_nil {dia : Diagram Rat} (h : dia.Ordered) {Z : Strategy} (hZ : Z.Fits dia)
    {dist : UtilityDistribution Rat} (hdist : utilityDistribution dia Z = .ok dist) : dist.points ≠ [] := by
  obtain ⟨dist', hdist', -, hsum⟩ := h.utilityDistribution_spec hZ
  obtain rfl : dist = dist' := Except.ok.inj (hdist.symm.trans hdist')
  intro hnil
  have htotal := hsum fun _ => 1
  simp only [one_mul] at htotal
  rw [h.sum_prob_allowed hZ, hnil] at htotal
  exact absurd htotal (by decide)

/-- By every criterion a strategy yields what it did before, plus the constant. -/
theorem Criterion.value_translated {dia : Diagram Rat} {U : PathUtility Rat} {c : Rat} {Z : Strategy}
    (hU : ∀ s, InSpace dia.S s → (dia.withUtility U).utility s = dia.utility s + c) (h : dia.Ordered)
    (h' : (dia.withUtility U).Ordered) (hZ : Z.Fits dia) :
    ∀ criterion : Criterion, criterion.Admissible →
      ∃ x, criterion.value dia Z = .ok x ∧ criterion.value (dia.withUtility U) Z = .ok (x + c) := by
  obtain ⟨dist, hdist, hdist'⟩ := utilityDistribution_translated hU h h' hZ
  have hne := h.points_ne_nil hZ hdist
  intro criterion hadmissible
  cases criterion with
  | expectedUtility => exact expectedUtility_translated hU h h' hZ
  | valueAtRisk level =>
      rw [value, value, hdist, hdist']
      exact valueAtRisk_translated hne hadmissible.1 hadmissible.2 c
  | conditionalValueAtRisk level =>
      rw [value, value, hdist, hdist']
      exact conditionalValueAtRisk_translated hne hadmissible.1 hadmissible.2 c

/-! ## The main statement -/

/-- **Shifts translate.** In a diagram with stochastic tables whose nodes observe earlier nodes, any shifts on
top of each other succeed. They wrap the utility once each, and the sum of their offsets is added to the utility of
every path. The last one makes the least utility one, or the greatest minus one. Under every strategy the
distribution of the utility keeps its masses, and the expected utility, the value at risk and the conditional
value at risk at every level are those of the diagram without shifts plus the same sum, so that every comparison
of two strategies comes out as before. -/
theorem shifts_translate {dia : Diagram Rat} (h : dia.Ordered) {directions : List Shift} (hne : directions ≠ []) :
    ∃ (amounts : List Rat) (dia' : Diagram Rat), amounts.length = directions.length ∧
      dia' = dia.withUtility (amounts.foldl .shifted dia.U) ∧ dia.shifts directions = .ok dia' ∧
      (∀ s, dia'.U.eval s = (dia.U.eval s).map (· + amounts.sum)) ∧
      (∀ s, InSpace dia.S s → dia'.U.eval s = .ok (dia.utility s + amounts.sum)) ∧
      (directions.getLast hne).Reached dia' ∧
      (∀ Z : Strategy, Z.Fits dia →
        (∃ dist dist', utilityDistribution dia Z = .ok dist ∧ utilityDistribution dia' Z = .ok dist' ∧
          dist'.u = dist.u.map (· + amounts.sum) ∧ dist'.p = dist.p) ∧
        ∀ criterion : Criterion, criterion.Admissible →
          ∃ x, criterion.value dia Z = .ok x ∧ criterion.value dia' Z = .ok (x + amounts.sum)) ∧
      ∀ (criterion : Criterion) (Z Y : Strategy) (x y x' y' : Rat), criterion.Admissible → Z.Fits dia → Y.Fits dia →
        criterion.value dia Z = .ok x → criterion.value dia Y = .ok y →
        criterion.value dia' Z = .ok x' → criterion.value dia' Y = .ok y' → (x ≤ y ↔ x' ≤ y') := by
  obtain ⟨amounts, hlen, hrun, h', hreached⟩ := h.shifts_ok directions
  have heval := eval_foldl_shifted amounts dia.U
  have hU : ∀ s, InSpace dia.S s →
      (dia.withUtility (amounts.foldl .shifted dia.U)).utility s = dia.utility s + amounts.sum := by
    intro s hs
    show ((amounts.foldl PathUtility.shifted dia.U).eval s).toOption.getD 0 = _
    rw [heval, h.eval_utility hs]
    rfl
  have hvalue : ∀ {Z : Strategy}, Z.Fits dia → ∀ criterion : Criterion, criterion.Admissible → ∃ x,
      criterion.value dia Z = .ok x ∧
        criterion.value (dia.withUtility (amounts.foldl .shifted dia.U)) Z = .ok (x + amounts.sum) :=
    fun hZ => Criterion.value_translated hU h h' hZ
  refine ⟨amounts, _, hlen, rfl, hrun, heval, ?_, hreached _ (List.getLast?_eq_some_getLast hne), ?_, ?_⟩
  · intro s hs
    show (amounts.foldl PathUtility.shifted dia.U).eval s = _
    rw [heval, h.eval_utility hs]
    rfl
  · intro Z hZ
    obtain ⟨dist, hdist, hdist'⟩ := utilityDistribution_translated hU h h' hZ
    exact ⟨⟨dist, _, hdist, hdist', dist.u_translated _, dist.p_translated _⟩, hvalue hZ⟩
  · intro criterion Z Y x y x' y' hadmissible hZ hY hx hy hx' hy'
    obtain ⟨a, ha, ha'⟩ := hvalue hZ criterion hadmissible
    obtain ⟨b, hb, hb'⟩ := hvalue hY criterion hadmissible
    obtain rfl : x = a := Except.ok.inj (hx.symm.trans ha)
    obtain rfl : y = b := Except.ok.inj (hy.symm.trans hb)
    obtain rfl : x' = x + amounts.sum := Except.ok.inj (hx'.symm.trans ha')
    obtain rfl : y' = y + amounts.sum := Except.ok.inj (hy'.symm.trans hb')
    exact (add_le_add_iff_right _).symm

/-- A negative shift on top of a positive one, and the worst quarter of what the forecast is worth. -/
theorem shifts_translate_umbrella : ∃ (c : Rat) (dia' : Diagram Rat),
    umbrella.shifts [.positive, .negative] = .ok dia' ∧ Shift.negative.Reached dia' ∧
    ∃ x, (Criterion.conditionalValueAtRisk (1 / 4)).value umbrella umbrellaStrategy = .ok x ∧
      (Criterion.conditionalValueAtRisk (1 / 4)).value dia' umbrellaStrategy = .ok (x + c) := by
  obtain ⟨amounts, dia', -, -, hrun, -, -, hreached, hvalue, -⟩ :=
    shifts_translate umbrella_wellFormed.ordered (show [Shift.positive, Shift.negative] ≠ [] by decide)
  have hlevel : (Criterion.conditionalValueAtRisk (1 / 4)).Admissible := ⟨by decide +kernel, by decide +kernel⟩
  exact ⟨amounts.sum, dia', hrun, hreached, (hvalue umbrellaStrategy umbrellaStrategy_fits).2 _ hlevel⟩

end InfluenceDiagrams
