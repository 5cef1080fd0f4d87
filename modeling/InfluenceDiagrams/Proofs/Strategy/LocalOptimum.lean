import InfluenceDiagrams.Proofs.Analysis.Causality
import InfluenceDiagrams.Proofs.Analysis.Rearrangement
import InfluenceDiagrams.Proofs.Strategy.Improvement

/-!
# `InfluenceDiagrams.Proofs.Strategy.LocalOptimum` — where a search comes to rest

A sweep that changes nothing has tried every state in every information state against one and the same strategy and
value, and none was better by more than the tolerance. A sweep that changes something makes the history longer. The
history is never longer than there are strategies, so that with as many sweeps as that, the last one changes nothing.

A strategy that differs from the last one in a single choice is one of those tried, up to the order of its parts, and
the order does not show in the expected utility.

## Contents
- **`Search.Exhausted`**, **`Search.Sound.trials`** — a state that need not be tried again.
- **`Search.Sound.sweep`, `Search.Sound.sweeps`** — one sweep, and as many as there are strategies.
- **`Strategy.LocallyOptimal`**, **`Search.Sound.locallyOptimal`** — nothing is better within one choice.
- **`local_optimum_reached`** — the main statement.
-/

namespace InfluenceDiagrams

namespace Search

variable {dia : Diagram Rat} {tol : Rat} {Z : Strategy} {search : Search Rat}

/-! ## Sweeps that change nothing -/

/-- Trying a state would change nothing: it is selected already, or the value that it leads to is not higher by more
than the tolerance. -/
def Exhausted (dia : Diagram Rat) (tol : Rat) (trial : Trial) (search : Search Rat) : Prop :=
  selectedAt? search.strategy trial.part trial.row = some (trial.state : Int) ∨
    ∃ v, expectedUtility dia (search.strategy.select trial.part trial.row trial.state) = .ok v ∧ v ≤ search.value + tol

/-- A sweep that started with so many entries in the trail: if it has changed something, there are more by now. -/
structure Sweeping (dia : Diagram Rat) (tol : Rat) (Z : Strategy) (entries : Nat) (search : Search Rat) : Prop where
  sound : search.Sound dia tol Z
  entries_le : entries ≤ search.trail.length
  longer : search.changed = true → entries < search.trail.length

namespace Sound

/-- As long as nothing is changed, every trial leaves a state that need not be tried again. -/
theorem trials (hacc : dia.Accepted) (hdecision : ∀ d ∈ dia.D, 1 ≤ entry dia.S d.index) (tol : Rat) (Z : Strategy)
    (entries : Nat) :
    Trials dia tol Z.nodes (Sweeping dia tol Z entries)
      (fun trial search => search.changed = false → search.Exhausted dia tol trial) fun _ => ¬dia.Valued where
  same_nodes _ h := h.sound.current.2.1
  fits _ h := h.sound.current.1
  step search h trial hwithin := by
    have hstep := (Sound.course hacc hdecision tol Z).step search h.sound trial hwithin
    refine (hstep.and (tryState_yields dia tol trial search)).mono ?_ fun _ hf => hf.1
    rintro next - ⟨⟨hnext, -⟩, htried⟩
    cases htried with
    | selected hsel => exact ⟨h, Keeps.refl search, fun _ => Or.inl hsel⟩
    | rejected hvalue hle => exact ⟨h, Keeps.refl search, fun _ => Or.inr ⟨_, hvalue, hle⟩⟩
    | kept hne hvalue hlt =>
        -- now that something is changed, nothing is claimed of this sweep any more
        have hlonger : entries < search.trail.length + 1 := Nat.lt_succ_of_le h.entries_le
        exact ⟨⟨hnext, le_of_lt hlonger, fun _ => hlonger⟩, fun _ _ hchanged => Bool.noConfusion hchanged,
          fun hchanged => Bool.noConfusion hchanged⟩

/-- **One sweep** makes the trail longer, or leaves nothing to be tried. -/
theorem sweep (h : search.Sound dia tol Z) (hacc : dia.Accepted) (hdecision : ∀ d ∈ dia.D, 1 ≤ entry dia.S d.index) :
    Yields (Search.sweep dia tol search)
      (fun next => next.Sound dia tol Z ∧ (next.changed = true → search.trail.length < next.trail.length) ∧
        (next.changed = false → ∀ trial : Trial, trial.Within dia.S Z.nodes → next.Exhausted dia tol trial))
      fun _ => ¬dia.Valued := by
  have hstart : Sweeping dia tol Z search.trail.length { search with changed := false } :=
    ⟨⟨h.reached, h.start, h.entries, h.steps⟩, le_rfl, fun hchanged => Bool.noConfusion hchanged⟩
  refine ((trials hacc hdecision tol Z search.trail.length).sweep hstart).mono ?_ fun _ hf => hf
  rintro next - ⟨hnext, -, hexhausted⟩
  exact ⟨hnext.sound, hnext.longer, fun hchanged trial hwithin => hexhausted trial hwithin hchanged⟩

/-- A trail is no longer than there are strategies. -/
theorem length_le (h : search.Sound dia tol Z) (hnodes : Z.nodes.Perm dia.D) (htol : 0 ≤ tol) :
    search.trail.length ≤ dia.numStrategies := by
  have hentries : ∀ e ∈ search.trail.reverse,
      e.1.Fits dia ∧ e.1.nodes = Z.nodes ∧ expectedUtility dia e.1 = .ok e.2 :=
    fun e he => h.entries e (List.mem_reverse.1 he)
  have hnodup := choices_nodup hentries (h.rises htol)
  rw [← List.length_reverse, ← List.length_map (f := Prod.fst)]
  refine Diagram.length_le_numStrategies hnodes (fun Y hY => ?_) (by rwa [List.map_map])
  obtain ⟨e, he, rfl⟩ := List.mem_map.1 hY
  exact ⟨(hentries e he).2.1, (hentries e he).1⟩

/-- **Enough sweeps** leave nothing to be tried, by induction on their number: each one but the last makes the trail
longer, which it can be made only so often. -/
theorem sweeps (hacc : dia.Accepted) (hdecision : ∀ d ∈ dia.D, 1 ≤ entry dia.S d.index) (hnodes : Z.nodes.Perm dia.D)
    (htol : 0 ≤ tol) {maxSweeps : Nat} (h : search.Sound dia tol Z)
    (henough : dia.numStrategies < maxSweeps + search.trail.length) :
    Yields (Search.sweeps dia tol maxSweeps search)
      (fun last => last.Sound dia tol Z ∧
        ∀ trial : Trial, trial.Within dia.S Z.nodes → last.Exhausted dia tol trial)
      fun _ => ¬dia.Valued := by
  induction maxSweeps generalizing search with
  | zero =>
      have hlen := h.length_le hnodes htol
      omega
  | succ n ih =>
      refine (h.sweep hacc hdecision).bind fun next ⟨hnext, hlonger, hexhausted⟩ => ?_
      split
      · rename_i hchanged
        have hlt := hlonger hchanged
        exact ih hnext (by omega)
      · rename_i hunchanged
        exact ⟨hnext, hexhausted (Bool.eq_false_iff.2 hunchanged)⟩

end Sound
end Search

/-! ## Local optima -/

/-- No strategy that differs in one choice has an expected utility above the value by more than the tolerance, and each
of them has one. -/
def Strategy.LocallyOptimal (dia : Diagram Rat) (Z : Strategy) (value tol : Rat) : Prop :=
  ∀ Y : Strategy, Y.Fits dia → ∀ d ∈ dia.D, ∀ info, Table.IndexOf (d.info.map (Table.extent dia.S)) info →
    Z.DiffersAt dia Y d info → ∃ v, expectedUtility dia Y = .ok v ∧ v ≤ value + tol

/-- Where nothing is left to be tried, a local optimum is reached. -/
theorem Search.Sound.locallyOptimal {dia : Diagram Rat} {tol : Rat} {Z : Strategy} {search : Search Rat}
    (h : search.Sound dia tol Z) (hacc : dia.Accepted)
    (hexhausted : ∀ trial : Trial, trial.Within dia.S Z.nodes → search.Exhausted dia tol trial) :
    search.strategy.LocallyOptimal dia search.value tol := by
  obtain ⟨hfits, hnodes, -⟩ := h.current
  intro Y hY d hd info hinfo hdiffers
  obtain ⟨k, z, row, state, hk, rfl, hrow, hstate, hchange, hperm⟩ :=
    Strategy.Fits.exists_select_perm hacc hY hfits hd hinfo hdiffers
  have hselect := hfits.select hk hrow hstate
  rw [expectedUtility_rearranged hperm (hselect.indices_perm.nodup_iff.2 hacc.decision_nodup) dia]
  have hwithin : Trial.Within ⟨k, row, state⟩ dia.S Z.nodes := by
    refine ⟨z.node, ?_, hrow, hstate⟩
    rw [← hnodes, Strategy.nodes, List.getElem?_map, hk]
    rfl
  rcases hexhausted _ hwithin with hselected | htried
  · -- the two choose differently there, so the state is not the one selected
    rw [Search.selectedAt?, hk, Option.map_some] at hselected
    exact absurd (Option.some.inj hselected) hchange
  · exact htried

/-! ## The main statement -/

/-- **Local optima.** Let a search from a strategy made of accepted tables make as many sweeps as there are strategies,
or more. It comes to an end if every path has a probability and a utility. The last strategy of its history fits the
diagram, the last value is its expected utility, and every strategy that differs from it in the choice of one
information state of one decision has an expected utility, which does not exceed that value by more than the
tolerance. -/
theorem local_optimum_reached {dia : Diagram Rat} (hacc : dia.Accepted) {Z : Strategy} (hZ : Z.Made dia) {tol : Rat}
    (htol : 0 ≤ tol) {maxSweeps : Nat} (hsweeps : dia.numStrategies ≤ maxSweeps) :
    (dia.Valued → ∃ history, Z.improve dia maxSweeps tol = .ok history) ∧
      ∀ history, Z.improve dia maxSweeps tol = .ok history →
        ∃ last, history.getLast? = some last ∧ last.1.Fits dia ∧ expectedUtility dia last.1 = .ok last.2 ∧
          last.1.LocallyOptimal dia last.2 tol := by
  have hdecision : ∀ d ∈ dia.D, 1 ≤ entry dia.S d.index := fun d hd => hZ.count_pos hd
  have hrun : Yields (Z.improve dia maxSweeps tol)
      (fun history => ∃ last, history.getLast? = some last ∧ last.1.Fits dia ∧
        expectedUtility dia last.1 = .ok last.2 ∧ last.1.LocallyOptimal dia last.2 tol)
      fun _ => ¬dia.Valued := by
    unfold Strategy.improve
    cases hvalue : expectedUtility dia Z with
    | error f => exact (expectedUtility_yields hacc hZ.fits hdecision).of_error hvalue
    | ok value =>
        have hstart : Search.Sound dia tol Z ⟨Z, value, [(Z, value)], false⟩ := Search.Sound.initial hZ.fits hvalue
        have hends := Search.Sound.sweeps hacc hdecision hZ.nodes htol hstart (Nat.lt_succ_of_le hsweeps)
        refine hends.bind fun search ⟨hsound, hexhausted⟩ => ?_
        refine ⟨(search.strategy, search.value), ?_, hsound.current.1, hsound.current.2.2,
          hsound.locallyOptimal hacc hexhausted⟩
        rw [List.getLast?_reverse]
        exact hsound.reached
  refine ⟨fun hvalued => ?_, fun history hhistory => hrun.of_ok hhistory⟩
  cases hhistory : Z.improve dia maxSweeps tol with
  | ok history => exact ⟨history, rfl⟩
  | error f => exact absurd hvalued (hrun.of_error hhistory)

/-- Never drill, whatever the test says. -/
def neverDrill : Table Bool := ⟨[2, 2, 2], [true, false, true, false, true, false, true, false], rfl⟩

theorem neverDrill_made : (testAndDrill neverDrill).Made oilField where
  nodes := List.Perm.refl _
  parts := by
    intro z hz
    rcases List.mem_pair.1 hz with rfl | rfl
    · exact ⟨⟨[2], [.int 0, .int 1], rfl⟩, by decide, rfl⟩
    · exact ⟨⟨[2, 2, 2], [.int 1, .int 0, .int 1, .int 0, .int 1, .int 0, .int 1, .int 0], rfl⟩, by decide, rfl⟩

/-- There are 32 strategies for the oil field. From the one that tests and never drills, as many sweeps end where no
single choice is worth changing. -/
theorem local_optimum_reached_oilField :
    oilField.Valued ∧ oilField.numStrategies = 32 ∧
      ∃ history last, (testAndDrill neverDrill).improve oilField 32 0 = .ok history ∧ history.getLast? = some last ∧
        expectedUtility oilField last.1 = .ok last.2 ∧ last.1.LocallyOptimal oilField last.2 0 := by
  have hvalued : oilField.Valued := oilField_ordered.dimensioned.valued
  have hcount : oilField.numStrategies = 32 := by decide
  obtain ⟨hends, hreached⟩ :=
    local_optimum_reached oilField_ordered.accepted neverDrill_made (le_refl 0) (le_of_eq hcount)
  obtain ⟨history, hrun⟩ := hends hvalued
  obtain ⟨last, hlast, -, hvalue, hoptimal⟩ := hreached history hrun
  exact ⟨hvalued, hcount, history, last, hrun, hlast, hvalue, hoptimal⟩

end InfluenceDiagrams
