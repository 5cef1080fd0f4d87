import Mathlib.Tactic.Linarith
import InfluenceDiagrams.Proofs.Analysis.Normalization
import InfluenceDiagrams.Proofs.Strategy.Improvement

/-!
# `InfluenceDiagrams.Proofs.Strategy.Optimality` — with a single decision, one sweep finds the best strategy

Let a diagram have a single decision, which observes chance nodes only. A path belongs to the information state that it
has at the decision, and is allowed if it has the state that is selected there. So the expected utility is a sum of
contributions, one for each information state, and selecting another state in one of them changes one contribution.
After a trial the state tried contributes no more than the tolerance above the one selected, and later trials only
raise what the selected state contributes. After a sweep this holds of all states in all information states, and no
strategy is better by more than the tolerance in each of them.

## Contents
- **`Valued.expectedUtility_eq`** — the expected utility as a sum over the allowed paths.
- **`Diagram.contribution`**, **`SingleDecision.expectedUtility_eq`** — the expected utility by information states.
- **`Settled`**, **`SingleDecision.course`** — what a trial settles, and no later one undoes.
- **`single_decision_optimal`** — the main statement.
-/

namespace InfluenceDiagrams

/-! ## The expected utility by paths -/

/-- If decisions observe chance nodes and earlier decisions, the expected utility is the sum of probability times
utility over the allowed paths. -/
theorem Diagram.Valued.expectedUtility_eq {dia : Diagram Rat} (h : dia.Valued) (hpos : ∀ n ∈ dia.S, 1 ≤ n) {Z : Strategy}
    (hZ : Z.Fits dia) (hobs : ∀ d ∈ dia.D, ∀ i ∈ d.info, i ∈ dia.indices .chance ∨ i < d.index) :
    expectedUtility dia Z = .ok ((dia.allowedPaths Z).map fun s => dia.prob s * dia.utility s).sum := by
  obtain ⟨cp, ss, hcp, -, hlist, hmap, hmem, -⟩ :=
    CompatiblePaths.ofDiagram_toList (α := Rat) h.accepted hpos hZ (FixedStates.onChance_empty dia) hobs
  have hnodup : ss.Nodup := by
    have := (CompatiblePaths.Fillable.chances_sorted cp).nodup
    rw [← hmap] at this
    exact this.of_map _
  -- the order of the paths does not show in the sum
  have hperm : ss.Perm (dia.allowedPaths Z) := by
    refine (List.perm_ext_iff_of_nodup hnodup ((paths_nodup _ _).filter _)).2 fun s => ?_
    exact (hmem s).trans List.mem_filter.symm
  have hss : ∀ s ∈ ss, InSpace dia.S s := fun s hs => mem_paths_empty.1 ((hmem s).1 hs).1
  rw [CompatiblePaths.checkFree_unbounded] at hlist
  rw [h.expectedUtility_eq_sum hcp hlist hss,
    (hperm.map fun s => dia.prob s * dia.utility s).sum_eq]

/-! ## The expected utility by information states -/

/-- The place of the information state that a path has at a decision. -/
def infoPlace? (S : StateCounts) (d : InfoNode) (s : Path) : Option Nat :=
  Table.place? (d.info.map (Table.extent S)) (d.info.map (entry s))

/-- What the paths that have an information state at a decision, and then a state of it, contribute to the expected
utility. -/
def Diagram.contribution (dia : Diagram Rat) (d : InfoNode) (row : Nat) (k : State) : Rat :=
  ((paths dia.S .empty).map fun s =>
    if infoPlace? dia.S d s = some row ∧ entry s d.index = k then dia.prob s * dia.utility s else 0).sum

/-- A diagram with a state for every node and a single decision, which observes chance nodes only. Every path has a
probability and a utility. -/
structure Diagram.SingleDecision (dia : Diagram Rat) (d : InfoNode) : Prop where
  valued : dia.Valued
  counts_pos : ∀ n ∈ dia.S, 1 ≤ n
  decision : dia.D = [d]
  observes : ∀ i ∈ d.info, i ∈ dia.indices .chance

namespace Diagram.SingleDecision

variable {dia : Diagram Rat} {d : InfoNode} {Z : Strategy} {z : LocalStrategy}

theorem mem_decision (h : dia.SingleDecision d) : d ∈ dia.D := by
  rw [h.decision]
  exact List.mem_cons_self

theorem nodes_eq (h : dia.SingleDecision d) (hZ : Z.Fits dia) : Z.nodes = [d] := by
  have := hZ.nodes
  rwa [h.decision, List.perm_singleton] at this

/-- A strategy that fits is a single local strategy. -/
theorem exists_part (h : dia.SingleDecision d) (hZ : Z.Fits dia) :
    ∃ z, Z.parts = [z] ∧ z.node = d ∧ z.Fits dia.S := by
  obtain ⟨z, hz, hnode⟩ := List.map_eq_singleton_iff.1 (h.nodes_eq hZ)
  exact ⟨z, hz, hnode, hZ.parts z (hz ▸ List.mem_cons_self)⟩

/-- A path in space belongs to one information state, and is allowed if it goes on with the state selected there. -/
theorem sum_selected (h : dia.SingleDecision d) (hz : Z.parts = [z]) (hnode : z.node = d) (hfits : z.Fits dia.S)
    {s : Path} (hs : InSpace dia.S s) (w : Rat) :
    ((List.range (numInfoStates dia.S d)).map fun row =>
      if infoPlace? dia.S d s = some row ∧ entry s d.index = selectedState (z.table.rowAt row) then w else 0).sum =
      if Z.allows s = true then w else 0 := by
  subst hnode
  have hn : z.node ∈ dia.C ++ dia.D := List.mem_append_right _ h.mem_decision
  have hinfo := h.valued.accepted.info_inRange_of_mem hn
  obtain ⟨i, hi, hlt⟩ := Table.place?_of_inRange (Table.indexOf_map hs hinfo)
  have hlt : i < numInfoStates dia.S z.node := hlt
  have hallows : Z.allows s = true ↔ entry s z.node.index = selectedState (z.table.rowAt i) := by
    rw [Strategy.allows, hz, List.all_cons, List.all_nil, Bool.and_true,
      LocalStrategy.agrees_iff hs hinfo (h.valued.accepted.index_inRange hn), hfits.choose?_eq hi, Option.some_inj]
    exact eq_comm
  have hrow : ∀ row, (if infoPlace? dia.S z.node s = some row ∧
      entry s z.node.index = selectedState (z.table.rowAt row) then w else 0) =
      if row = i then (if Z.allows s = true then w else 0) else 0 := by
    intro row
    by_cases hrow : row = i
    · subst hrow
      rw [if_pos rfl]
      exact if_congr ((and_iff_right hi).trans hallows.symm) rfl rfl
    · rw [if_neg hrow, if_neg]
      rintro ⟨hplace, -⟩
      exact hrow (Option.some.inj (hplace.symm.trans hi))
  simp only [hrow]
  rw [sum_range_replace (fun _ => 0) _ hlt]
  simp

/-- **The expected utility is a sum of contributions**, one for each information state. -/
theorem expectedUtility_eq (h : dia.SingleDecision d) (hZ : Z.Fits dia) (hz : Z.parts = [z]) (hnode : z.node = d) :
    expectedUtility dia Z = .ok ((List.range (numInfoStates dia.S d)).map fun row =>
      dia.contribution d row (selectedState (z.table.rowAt row))).sum := by
  have hfits := hZ.parts z (hz ▸ List.mem_cons_self)
  have hobs : ∀ e ∈ dia.D, ∀ i ∈ e.info, i ∈ dia.indices .chance ∨ i < e.index := by
    intro e he i hi
    rw [h.decision, List.mem_singleton] at he
    exact Or.inl (h.observes i (he ▸ hi))
  rw [h.valued.expectedUtility_eq h.counts_pos hZ hobs, Diagram.allowedPaths, sum_map_filter]
  congr 1
  simp only [Diagram.contribution]
  rw [sum_map_sum_comm]
  congr 1
  apply List.map_congr_left
  intro s hs
  exact (h.sum_selected hz hnode hfits (mem_paths_empty.1 hs) _).symm

/-- Selecting another state in one information state changes one contribution. -/
theorem expectedUtility_select (h : dia.SingleDecision d) (hZ : Z.Fits dia) (hz : Z.parts = [z]) (hnode : z.node = d)
    {row state : Nat} (hrow : row < numInfoStates dia.S d) (hstate : state < Table.extent dia.S d.index) {v : Rat}
    (hv : expectedUtility dia Z = .ok v) :
    expectedUtility dia (Z.select 0 row state) = .ok (v + (dia.contribution d row (state : Int) -
      dia.contribution d row (selectedState (z.table.rowAt row)))) := by
  subst hnode
  have hfits := hZ.parts z (hz ▸ List.mem_cons_self)
  have hparts : (Z.select 0 row state).parts = [z.select row state] := by
    rw [Strategy.select, hz]
    rfl
  have hZ' : (Z.select 0 row state).Fits dia := hZ.select (by rw [hz]; rfl) hrow hstate
  rw [h.expectedUtility_eq hZ hz rfl] at hv
  rw [h.expectedUtility_eq hZ' hparts rfl, ← Except.ok.inj hv, ← sum_range_replace _ _ hrow]
  congr 2
  apply List.map_congr_left
  intro i _
  rw [hfits.selectedState_select hrow hstate]
  split
  · rename_i heq
    rw [heq]
  · rfl

end Diagram.SingleDecision

/-! ## What a trial settles -/

namespace Search

/-- The state tried contributes no more than the tolerance above the one that is selected. -/
def Settled (dia : Diagram Rat) (d : InfoNode) (tol : Rat) (trial : Trial) (search : Search Rat) : Prop :=
  ∀ k, selectedAt? search.strategy trial.part trial.row = some k →
    dia.contribution d trial.row (trial.state : Int) ≤ dia.contribution d trial.row k + tol

variable {dia : Diagram Rat} {d : InfoNode} {tol : Rat} {Z : Strategy} {search next : Search Rat} {trial : Trial}

/-- What is settled stays settled where another state is selected in one information state and contributes no less. -/
theorem keeps_settled {row : Nat} {k state : State} (hsel : selectedAt? search.strategy 0 row = some k)
    (hselect : ∀ j i, selectedAt? next.strategy j i =
      if 0 = j ∧ i = row then some state else selectedAt? search.strategy j i)
    (hraised : dia.contribution d row k ≤ dia.contribution d row state) :
    Keeps (Settled dia d tol) search next := by
  rintro ⟨part, i, tried⟩ hdone l hl
  dsimp only at hl
  rw [hselect] at hl
  split at hl
  · rename_i hplace
    obtain ⟨rfl, rfl⟩ := hplace
    obtain rfl := Option.some.inj hl
    have hbefore := hdone k hsel
    dsimp only at hbefore ⊢
    linarith
  · exact hdone l hl

/-- **One trial** settles the state tried. What was settled before stays so, because a change that is kept raises the
contribution of the selected state. -/
theorem Sound.settles (hsound : search.Sound dia tol Z) (h : dia.SingleDecision d) (hZ : Z.Fits dia) (htol : 0 ≤ tol)
    (hwithin : trial.Within dia.S Z.nodes) (htried : Tried dia tol trial search next) :
    Keeps (Settled dia d tol) search next ∧ Settled dia d tol trial next := by
  obtain ⟨hfits, hnodes, hvalue⟩ := hsound.current
  obtain ⟨z, hz, hnode, hzfits⟩ := h.exists_part hfits
  obtain ⟨part, row, state⟩ := trial
  obtain ⟨e, he, hrow, hstate⟩ := hwithin
  rw [h.nodes_eq hZ] at he
  obtain ⟨rfl, rfl⟩ : part = 0 ∧ d = e := by
    cases part with
    | zero => exact ⟨rfl, Option.some.inj he⟩
    | succ n => cases he
  have hsel : selectedAt? search.strategy 0 row = some (selectedState (z.table.rowAt row)) := by
    rw [selectedAt?, hz]
    rfl
  have hchange := h.expectedUtility_select hfits hz hnode hrow hstate hvalue
  cases htried with
  | selected hsame =>
      refine ⟨Keeps.refl search, fun k hk => ?_⟩
      obtain rfl := Option.some.inj (hk.symm.trans hsame)
      linarith
  | rejected hnew hle =>
      refine ⟨Keeps.refl search, fun k hk => ?_⟩
      obtain rfl := Option.some.inj (hk.symm.trans hsel)
      have := Except.ok.inj (hnew.symm.trans hchange)
      linarith
  | kept hne hnew hlt =>
      have hraised : dia.contribution d row (selectedState (z.table.rowAt row)) + tol <
          dia.contribution d row (state : Int) := by
        have := Except.ok.inj (hnew.symm.trans hchange)
        linarith
      have hselect := selectedAt?_select hfits (k := 0) (by rw [hz]; rfl) (hnode ▸ hrow) (hnode ▸ hstate)
      refine ⟨keeps_settled hsel hselect (by linarith), fun k hk => ?_⟩
      rw [hselect, if_pos ⟨rfl, rfl⟩] at hk
      obtain rfl := Option.some.inj hk
      exact le_add_of_nonneg_right htol

end Search

namespace Diagram.SingleDecision

variable {dia : Diagram Rat} {d : InfoNode} {Z : Strategy}

/-- A search stays sound and settles one state after the other, and nothing makes it fail. -/
theorem course (h : dia.SingleDecision d) (hZ : Z.Fits dia) {tol : Rat} (htol : 0 ≤ tol) :
    Search.Course dia tol Z.nodes (Search.Sound dia tol Z) (Search.Settled dia d tol) fun _ => False where
  same_nodes _ hsound := hsound.current.2.1
  fits _ hsound := hsound.current.1
  restart _ hsound := ⟨⟨hsound.reached, hsound.start, hsound.entries, hsound.steps⟩, fun _ hdone => hdone⟩
  step search hsound trial hwithin := by
    have hdecision : ∀ e ∈ dia.D, 1 ≤ entry dia.S e.index := fun e he =>
      entry_pos h.counts_pos (h.valued.accepted.index_inRange (List.mem_append_right _ he))
    have hkept := (Search.Sound.course h.valued.accepted hdecision tol Z).step search hsound trial hwithin
    refine (hkept.and (Search.tryState_yields dia tol trial search)).mono ?_ fun _ hf => hf.1 h.valued
    rintro next - ⟨⟨hnext, -⟩, htried⟩
    exact ⟨hnext, hsound.settles h hZ htol hwithin htried⟩

/-- Where everything is settled, no strategy is better by more than the tolerance in each information state. -/
theorem le_of_settled (h : dia.SingleDecision d) (hZ : Z.Fits dia) {tol : Rat} {search : Search Rat}
    (hsound : search.Sound dia tol Z)
    (hsettled : ∀ trial : Search.Trial, trial.Within dia.S Z.nodes → search.Settled dia d tol trial)
    {Y : Strategy} (hY : Y.Fits dia) :
    ∃ v, expectedUtility dia Y = .ok v ∧ v - tol * numInfoStates dia.S d ≤ search.value := by
  obtain ⟨hfits, -, hvalue⟩ := hsound.current
  obtain ⟨z, hz, rfl, -⟩ := h.exists_part hfits
  obtain ⟨y, hy, hnode, hyfits⟩ := h.exists_part hY
  refine ⟨_, h.expectedUtility_eq hY hy hnode, ?_⟩
  -- information state by information state
  have hrow : ∀ row ∈ List.range (numInfoStates dia.S z.node),
      dia.contribution z.node row (selectedState (y.table.rowAt row)) ≤
        dia.contribution z.node row (selectedState (z.table.rowAt row)) + tol := by
    intro row hrow
    have hlt := List.mem_range.1 hrow
    have hstate : InRange (Table.extent dia.S z.node.index) (selectedState (y.table.rowAt row)) := by
      rw [← hnode]
      exact hyfits.selectedState_inRange (hnode ▸ hlt)
    have hwithin : Search.Trial.Within ⟨0, row, (selectedState (y.table.rowAt row)).toNat⟩ dia.S Z.nodes := by
      rw [h.nodes_eq hZ]
      exact ⟨z.node, rfl, hlt, hstate.toNat_lt⟩
    have hle := hsettled _ hwithin (selectedState (z.table.rowAt row)) (by rw [Search.selectedAt?, hz]; rfl)
    rwa [Int.toNat_of_nonneg hstate.1] at hle
  have hsum := List.sum_le_sum hrow
  rw [List.sum_map_add, List.map_const', List.sum_replicate, List.length_range, nsmul_eq_mul] at hsum
  rw [h.expectedUtility_eq hfits hz rfl] at hvalue
  rw [← Except.ok.inj hvalue]
  linarith

end Diagram.SingleDecision

/-! ## The main statement -/

/-- A search ends with a strategy whose expected utility no strategy exceeds by more than a margin. -/
def Strategy.EndsWithin (dia : Diagram Rat) (Z : Strategy) (maxSweeps : Nat) (tol margin : Rat) : Prop :=
  ∃ history last, Z.improve dia maxSweeps tol = .ok history ∧ history.getLast? = some last ∧
    last.1.Fits dia ∧ expectedUtility dia last.1 = .ok last.2 ∧
    ∀ Y : Strategy, Y.Fits dia → ∃ v, expectedUtility dia Y = .ok v ∧ v - margin ≤ last.2

theorem Diagram.SingleDecision.endsWithin {dia : Diagram Rat} {d : InfoNode} (h : dia.SingleDecision d) {Z : Strategy}
    (hZ : Z.Fits dia) {tol : Rat} (htol : 0 ≤ tol) {maxSweeps : Nat} (hsweeps : 1 ≤ maxSweeps) :
    Z.EndsWithin dia maxSweeps tol (tol * numInfoStates dia.S d) := by
  obtain ⟨z, hz, hnode, -⟩ := h.exists_part hZ
  have hvalue := h.expectedUtility_eq hZ hz hnode
  obtain ⟨search, hsearch, hsound, -, hsettled⟩ :=
    ((h.course hZ htol).sweeps maxSweeps (Search.Sound.initial hZ hvalue)).exists_ok
  refine ⟨search.trail.reverse, (search.strategy, search.value), ?_, ?_, hsound.current.1, hsound.current.2.2,
    fun Y hY => h.le_of_settled hZ hsound (hsettled hsweeps) hY⟩
  · rw [Strategy.improve, hvalue]
    change (Search.sweeps dia tol maxSweeps _).bind _ = _
    rw [hsearch]
    rfl
  · rw [List.getLast?_reverse]
    exact hsound.reached

/-- **A single decision that observes chance nodes only.** From every strategy, with one sweep or more, a search ends
with a strategy that no other exceeds by more than the tolerance for each information state. Without a tolerance, one
sweep ends with a strategy of the greatest expected utility. -/
theorem single_decision_optimal {dia : Diagram Rat} {d : InfoNode} (h : dia.SingleDecision d) {Z : Strategy}
    (hZ : Z.Fits dia) :
    (∀ (maxSweeps : Nat) (tol : Rat), 1 ≤ maxSweeps → 0 ≤ tol →
      Z.EndsWithin dia maxSweeps tol (tol * numInfoStates dia.S d)) ∧
    Z.EndsWithin dia 1 0 0 := by
  refine ⟨fun maxSweeps tol hsweeps htol => h.endsWithin hZ htol hsweeps, ?_⟩
  have hexact := h.endsWithin hZ (le_refl 0) (le_refl 1)
  rwa [zero_mul] at hexact

/-- With the umbrella, one sweep from the contrary strategy finds a best one. -/
theorem single_decision_optimal_umbrella :
    umbrella.SingleDecision ⟨2, [1]⟩ ∧ contraryStrategy.EndsWithin umbrella 1 0 0 ∧
      contraryStrategy.EndsWithin umbrella 2 (1 / 2) 1 := by
  have hsingle : umbrella.SingleDecision ⟨2, [1]⟩ := {
    valued := umbrella_wellFormed.ordered.dimensioned.valued
    counts_pos := umbrella_wellFormed.counts_pos
    decision := rfl
    observes := by decide }
  obtain ⟨hall, hexact⟩ := single_decision_optimal hsingle contraryStrategy_made.fits
  have hcount : numInfoStates umbrella.S ⟨2, [1]⟩ = 2 := by decide
  have hnear := hall 2 (1 / 2) (by norm_num) (by norm_num)
  rw [hcount] at hnear
  norm_num at hnear
  exact ⟨hsingle, hexact, hnear⟩

end InfluenceDiagrams
