import Mathlib.Data.Set.Finite.Lemmas
import InfluenceDiagrams.Proofs.Diagram.Shift
import InfluenceDiagrams.Proofs.Model.ExpectedObjective
import InfluenceDiagrams.Proofs.Model.LazyCut

/-!
# `InfluenceDiagrams.Proofs.Model.PositiveShift` — with positive utilities the lazy constraint is not needed

Without the constraint on the probabilities a model lets paths go that a strategy allows. Where all utilities are
positive this does not pay. The competitor of a point is the point of the strategy that is read off it: the bounds
of the model are loose enough for it to take all allowed paths in full, so it is worth at least as much, and more
if the point lets a path go. A point of greatest value takes the paths of its strategy, whose probability is one.

## Contents
- **`Problem.Maximizes`** — a point of greatest value.
- **`Diagram.valueExpr`** — the expected value as a sum over the paths with variables.
- **`share_le_competitor`, `share_eq_competitor`** — a point and its competitor.
- **`exists_strategy`, `exists_maximizes`** — there is a point of greatest value.
- **`positive_shift_maximizes`** — the main statement.
-/

namespace InfluenceDiagrams

/-! ## Points of greatest value -/

/-- No point with admissible values of some variables where all constraints hold has a greater value. -/
structure Problem.Maximizes (p : Problem Rat) (vs : List (Variable Rat)) (e : LinearExpr Rat)
    (point : VarKey → Rat) : Prop where
  meets : p.Meets vs point
  le : ∀ q, p.Meets vs q → e.eval q ≤ e.eval point

namespace Diagram

variable {dia : Diagram Rat} {rules : List ForbiddenRule} {fixed : FixedStates} {point q : VarKey → Rat}
  {scale : Rat} {Z : Strategy}

/-! ## The value of a point -/

/-- What a path with a variable is worth. -/
def weight (dia : Diagram Rat) (scale : Rat) (s : Path) : Rat := dia.prob s * dia.utility s * scale

/-- The expected value of the paths taken. -/
def valueExpr (dia : Diagram Rat) (rules : List ForbiddenRule) (fixed : FixedStates) (scale : Rat) : LinearExpr Rat :=
  dia.pathSum rules fixed (dia.weight scale)

/-- A strategy is worth what the paths that it allows are worth. -/
theorem eval_valueExpr_of_encodes (hnodes : Z.nodes = dia.D)
    (hq : Encodes (dia.D.map dia.decisionBlock) (dia.pathBlock rules fixed) q Z) :
    (dia.valueExpr rules fixed scale).eval q =
      (((dia.memberPaths rules fixed).filter Z.allows).map (dia.weight scale)).sum := by
  rw [valueExpr, eval_pathSum, sum_map_filter]
  congr 1
  apply List.map_congr_left
  intro s hs
  rw [((encodes_iff hnodes).1 hq).2 s hs, mul_ite, mul_one, mul_zero]

theorem weight_pos (hutility : ∀ s, InSpace dia.S s → 0 < dia.utility s) (hfixed : fixed.Within dia.S)
    (hscale : 0 < scale) {s : Path} (hs : s ∈ dia.memberPaths rules fixed) : 0 < dia.weight scale s :=
  mul_pos (mul_pos (prob_pos_of_member hs) (hutility s (inSpace_of_member hfixed hs))) hscale

/-! ## A point and its competitor -/

section Competitor

variable (h : dia.WellFormed) (hfixed : fixed.Within dia.S) (hlinked : dia.Linked rules fixed point)
  (hq : Encodes (dia.D.map dia.decisionBlock) (dia.pathBlock rules fixed) q (readStrategy dia point))

include h hfixed hlinked hq

theorem share_le_competitor {s : Path} (hs : s ∈ dia.memberPaths rules fixed) : shareAt point s ≤ shareAt q s := by
  rw [((encodes_iff (nodes_readStrategy dia point)).1 hq).2 s hs]
  split
  · exact (hlinked.share s hs).2
  · rename_i hnot
    exact le_of_eq (hlinked.share_eq_zero h hfixed hs hnot)

variable (hutility : ∀ s, InSpace dia.S s → 0 < dia.utility s) (hscale : 0 < scale)

include hutility hscale

theorem value_le_competitor :
    (dia.valueExpr rules fixed scale).eval point ≤ (dia.valueExpr rules fixed scale).eval q := by
  rw [valueExpr, eval_pathSum, eval_pathSum]
  apply List.sum_le_sum
  intro s hs
  exact mul_le_mul_of_nonneg_left (share_le_competitor h hfixed hlinked hq hs)
    (weight_pos hutility hfixed hscale hs).le

/-- A point that is worth as much as its competitor takes the same paths. -/
theorem share_eq_competitor
    (hvalue : (dia.valueExpr rules fixed scale).eval q ≤ (dia.valueExpr rules fixed scale).eval point) :
    ∀ s ∈ dia.memberPaths rules fixed, shareAt point s = shareAt q s := by
  rw [valueExpr, eval_pathSum, eval_pathSum] at hvalue
  have hlost : ∀ s ∈ dia.memberPaths rules fixed,
      dia.weight scale s * shareAt q s - dia.weight scale s * shareAt point s = 0 := by
    apply eq_zero_of_sum_le
    · intro s hs
      exact sub_nonneg.2 (mul_le_mul_of_nonneg_left (share_le_competitor h hfixed hlinked hq hs)
        (weight_pos hutility hfixed hscale hs).le)
    · rw [sum_map_sub]
      exact sub_nonpos.2 hvalue
  intro s hs
  exact (mul_left_cancel₀ (weight_pos hutility hfixed hscale hs).ne' (sub_eq_zero.1 (hlost s hs))).symm

/-- Such a point stands for its strategy. -/
theorem encodes_of_value_le
    (hvalue : (dia.valueExpr rules fixed scale).eval q ≤ (dia.valueExpr rules fixed scale).eval point) :
    Encodes (dia.D.map dia.decisionBlock) (dia.pathBlock rules fixed) point (readStrategy dia point) := by
  apply hlinked.encodes_readStrategy h hfixed
  intro s hs hallows
  rw [share_eq_competitor h hfixed hlinked hq hutility hscale hvalue s hs,
    ((encodes_iff (nodes_readStrategy dia point)).1 hq).2 s hs, if_pos hallows]

end Competitor

/-! ## There is a point of greatest value -/

/-- The variables that select the first state in every information state. -/
def firstKeys (dia : Diagram Rat) : List VarKey :=
  dia.D.flatMap fun d => (paths (d.info.map (entry dia.S)) .empty).map fun info =>
    (decisionVariable (α := Rat) 0 d.index (info ++ [0])).key

/-- A point that selects the first state in every information state. -/
def firstPoint (dia : Diagram Rat) : VarKey → Rat := fun key => if key ∈ dia.firstKeys then 1 else 0

theorem choiceAt_firstPoint {d : InfoNode} (hd : d ∈ dia.D) {info : Path}
    (hinfo : info ∈ paths (d.info.map (entry dia.S)) .empty) (k : State) :
    choiceAt dia.firstPoint d (info ++ [k]) = if k = 0 then 1 else 0 := by
  have hmem : (decisionVariable (α := Rat) 0 d.index (info ++ [k])).key ∈ dia.firstKeys ↔ k = 0 := by
    constructor
    · intro hkey
      obtain ⟨d', -, hkey⟩ := List.mem_flatMap.1 hkey
      obtain ⟨info', -, hkey⟩ := List.mem_map.1 hkey
      obtain ⟨-, hindex⟩ := decisionVariable_key_inj (by simp) (by simp) hkey
      exact (List.singleton_inj.1 (List.append_inj' hindex rfl).2).symm
    · rintro rfl
      exact List.mem_flatMap.2 ⟨d, hd, List.mem_map_of_mem hinfo⟩
  exact if_congr hmem rfl rfl

/-- A well-formed diagram has a strategy. -/
theorem exists_strategy (h : dia.WellFormed) : ∃ Z : Strategy, Z.Fits dia ∧ Z.nodes = dia.D := by
  refine ⟨readStrategy dia dia.firstPoint, readStrategy_fits h ?_ ?_, nodes_readStrategy _ _⟩
  · intro d hd index hindex
    obtain ⟨info, k, rfl, hinfo, -⟩ := exists_append_of_mem_nodeShape hindex
    rw [choiceAt_firstPoint hd hinfo]
    split
    · exact Or.inr rfl
    · exact Or.inl rfl
  · intro d hd info hinfo
    have hfirst : (0 : State) ∈ statesBelow (entry dia.S d.index) := by
      rw [mem_statesBelow]
      exact ⟨le_rfl, entry_pos h.counts_pos (h.index_inRange (List.mem_append_right _ hd))⟩
    simp only [choiceAt_firstPoint hd hinfo]
    rw [List.sum_map_ite_eq, (statesBelow_nodup _).count, if_pos hfirst]
    simp

/-- Some strategy allows the paths that are worth most. -/
theorem exists_best_strategy (h : dia.WellFormed) (ss : List Path) (f : Path → Rat) :
    ∃ Z : Strategy, (Z.Fits dia ∧ Z.nodes = dia.D) ∧ ∀ Y : Strategy, Y.Fits dia ∧ Y.nodes = dia.D →
      ((ss.filter Y.allows).map f).sum ≤ ((ss.filter Z.allows).map f).sum := by
  let allowed : Set (List Path) := (fun Z : Strategy => ss.filter Z.allows) '' {Z | Z.Fits dia ∧ Z.nodes = dia.D}
  -- the paths that a strategy allows are a sublist of all paths
  have hfinite : allowed.Finite := by
    apply (List.finite_toSet ss.sublists).subset
    rintro _ ⟨Z, -, rfl⟩
    exact List.mem_sublists.2 List.filter_sublist
  obtain ⟨Z, hZ⟩ := exists_strategy h
  obtain ⟨_, ⟨Z, hZ, rfl⟩, hbest⟩ := Set.exists_max_image allowed (fun T => (T.map f).sum) hfinite
    ⟨_, Set.mem_image_of_mem _ hZ⟩
  exact ⟨Z, hZ, fun Y hY => hbest _ (Set.mem_image_of_mem _ hY)⟩

section Maximum

variable {options : ModelOptions Rat} (h : dia.WellFormed) (hutility : ∀ s, InSpace dia.S s → 0 < dia.utility s)
  (hscale : 0 < scale) (hlazy : options.lazyCuts = true)

include hlazy in
/-- In the model without the constraint on the probabilities. -/
theorem meets_assembled_iff :
    (dia.assembled rules fixed options).model.problem.Meets (dia.modelVariables rules fixed) point ↔
      dia.Linked rules fixed point := by
  rw [linked_iff, ← constraints_lazy hlazy]
  exact ⟨fun h => ⟨h.admits, h.holds⟩, fun h => ⟨h.1, h.2⟩⟩

include h hutility hscale hlazy in
/-- The point of the best strategy has the greatest value, since no point is worth more than its competitor. -/
theorem exists_maximizes (hfixed : fixed.Within dia.S) :
    ∃ point, (dia.assembled rules fixed options).model.problem.Maximizes (dia.modelVariables rules fixed)
      (dia.valueExpr rules fixed scale) point := by
  obtain ⟨Z, ⟨hfits, hnodes⟩, hbest⟩ :=
    exists_best_strategy h (dia.memberPaths rules fixed) (dia.weight scale)
  obtain ⟨point, hpoint⟩ := exists_encodes rules fixed h hfits hnodes
  refine ⟨point, (meets_assembled_iff hlazy).2 (linked_of_encodes h hfixed hfits hnodes hpoint), ?_⟩
  intro q hq
  have hlinked := (meets_assembled_iff hlazy).1 hq
  have hread := readStrategy_fits h hlinked.binary hlinked.one
  obtain ⟨q', hq'⟩ := exists_encodes rules fixed h hread (nodes_readStrategy dia q)
  refine (value_le_competitor h hfixed hlinked hq' hutility hscale).trans ?_
  rw [eval_valueExpr_of_encodes (nodes_readStrategy dia q) hq', eval_valueExpr_of_encodes hnodes hpoint]
  exact hbest _ ⟨hread, nodes_readStrategy dia q⟩

include h hutility hscale hlazy in
/-- A point of greatest value stands for the strategy that is read off it. -/
theorem encodes_of_maximizes (hfixed : fixed.Within dia.S)
    (hmax : (dia.assembled rules fixed options).model.problem.Maximizes (dia.modelVariables rules fixed)
      (dia.valueExpr rules fixed scale) point) :
    (readStrategy dia point).Fits dia ∧
      Encodes (dia.D.map dia.decisionBlock) (dia.pathBlock rules fixed) point (readStrategy dia point) := by
  have hlinked := (meets_assembled_iff hlazy).1 hmax.meets
  have hread := readStrategy_fits h hlinked.binary hlinked.one
  obtain ⟨q, hq⟩ := exists_encodes rules fixed h hread (nodes_readStrategy dia point)
  have hmeets := linked_of_encodes h hfixed hread (nodes_readStrategy dia point) hq
  exact ⟨hread, encodes_of_value_le h hfixed hlinked hq hutility hscale
    (hmax.le q ((meets_assembled_iff hlazy).2 hmeets))⟩

end Maximum

end Diagram

/-! ## The main statement -/

/-- **With positive utilities the lazy constraint is not needed.** Shift the utility of a well-formed diagram so
that the least one is one, and build the model with a callback for the constraint on the probabilities, without
rules and fixed states. Among the points where the variables have admissible values and all constraints hold there
is one of greatest expected value. Every such point stands for a strategy, and the paths taken have probability
one. A callback to which the values of the point are shown does not object, whatever the tolerance is. -/
theorem positive_shift_maximizes {dia : Diagram Rat} (h : dia.WellFormed) {options : ModelOptions Rat}
    (hlazy : options.lazyCuts = true) (hscale : 0 < options.scale) (htolerance : 0 ≤ options.tolerance)
    {k : Rat} (hk : 0 < k) :
    ∃ dia' z x w cb e, dia.shift .positive = .ok dia' ∧
      (assemble dia' options [] .empty).runOn (.empty options.name) = (.ok (z, x), w) ∧
      w.model.callbacks = [cb] ∧ expectedValue dia' x k = .ok e ∧
      (∃ point, w.model.problem.Maximizes (z.flatMap (fun d => d.z.map Prod.snd) ++ x.vars) e point) ∧
      ∀ point, w.model.problem.Maximizes (z.flatMap (fun d => d.z.map Prod.snd) ++ x.vars) e point →
        ∃ Z : Strategy, Z.Fits dia' ∧ Z.nodes = dia'.D ∧ Encodes z x point Z ∧
          (x.members.map fun m => point m.var.key * m.prob).sum = 1 ∧
          ∀ c : Candidate Rat, c.Gives x point →
            cb.evaluate c = .ok none ∧ (offer 0 c).runOn w = (.ok none, w) := by
  obtain ⟨t, hshift, hleast, -⟩ := h.shift_positive
  let dia' := dia.withUtility (.shifted dia.U t)
  have h' : dia'.WellFormed := h.withUtility h.utility
  have hutility : ∀ s, InSpace dia'.S s → 0 < dia'.utility s := by
    intro s hs
    rw [h.utility_shifted t hs]
    exact zero_lt_one.trans_le (hleast s hs)
  have hrules := rulesWithin_nil dia'.S
  have hfixed := FixedStates.within_empty dia'.S
  let cb := dia'.probabilityCallback [] .empty options
  have hcallbacks : (dia'.assembled [] .empty options).model.callbacks = [cb] := Diagram.callbacks_lazy hlazy
  refine ⟨dia', _, _, _, cb, dia'.valueExpr [] .empty k, hshift,
    Diagram.assemble_eq h'.tabulated h'.counts_pos hrules hfixed hscale, hcallbacks,
    expectedValue_eq h' hfixed hk, ?_, ?_⟩
  · rw [Diagram.modelVariables_eq]
    exact Diagram.exists_maximizes h' hutility hk hlazy hfixed
  · intro point hmax
    rw [Diagram.modelVariables_eq] at hmax
    obtain ⟨hfits, hencodes⟩ := Diagram.encodes_of_maximizes h' hutility hk hlazy hfixed hmax
    have hnodes := Diagram.nodes_readStrategy dia' point
    have hsol := Diagram.solution_of_encodes h' hfixed (Diagram.admissible_unrestricted hfits hnodes) hencodes
    refine ⟨_, hfits, hnodes, hencodes, (Diagram.sum_members_mass dia' [] .empty point).trans hsol.total, ?_⟩
    intro c hc
    have hanswer : cb.evaluate c = .ok none := Diagram.evaluate_eq_none htolerance hsol hc
    exact ⟨hanswer, offer_eq_none c (by rw [hcallbacks]; rfl) hanswer⟩

theorem positive_shift_maximizes_umbrella :
    ∃ dia' z x w cb e point Z, umbrella.shift .positive = .ok dia' ∧
      (assemble dia' { ModelOptions.default with lazyCuts := true } [] .empty).runOn
        (.empty ModelOptions.defaultName) = (.ok (z, x), w) ∧
      w.model.callbacks = [cb] ∧ expectedValue dia' x 1 = .ok e ∧
      w.model.problem.Maximizes (z.flatMap (fun d => d.z.map Prod.snd) ++ x.vars) e point ∧
      Strategy.Fits dia' Z ∧ Encodes z x point Z ∧ (x.members.map fun m => point m.var.key * m.prob).sum = 1 := by
  let options : ModelOptions Rat := { ModelOptions.default with lazyCuts := true }
  have hlazy : options.lazyCuts = true := rfl
  have hscale : 0 < options.scale := by decide
  have htolerance : 0 ≤ options.tolerance := by decide +kernel
  obtain ⟨dia', z, x, w, cb, e, hshift, hrun, hcallbacks, he, ⟨point, hmax⟩, hall⟩ :=
    positive_shift_maximizes umbrella_wellFormed hlazy hscale htolerance zero_lt_one
  obtain ⟨Z, hfits, -, hencodes, htotal, -⟩ := hall point hmax
  exact ⟨dia', z, x, w, cb, e, point, Z, hshift, hrun, hcallbacks, he, hmax, hfits, hencodes, htotal⟩

end InfluenceDiagrams
