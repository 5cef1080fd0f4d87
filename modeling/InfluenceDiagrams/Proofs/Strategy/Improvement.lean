import Mathlib.Data.List.Chain
import InfluenceDiagrams.Proofs.Analysis.Normalization
import InfluenceDiagrams.Proofs.Strategy.Choices

/-!
# `InfluenceDiagrams.Proofs.Strategy.Improvement` — the history of a local search

A search tries one state after the other. A trial leaves the search as it is, or changes one line of one table and puts
the new strategy with its value at the end of the history. What every trial keeps is kept by every number of sweeps,
and what every trial brings about, and no later one undoes, holds after a sweep of everything that was tried.

So the history goes up by more than the tolerance from one strategy to the next, and the two choose the same states
except in one information state. A strategy has one value only, so that none comes twice, and there are no more of them
than strategies.

## Contents
- **`expectedUtility_yields`** — a strategy that fits has a value if all paths have one.
- **`Search.Tried`, `Search.tryState_yields`** — what one trial comes to.
- **`Search.Trials`, `Search.Course`** — what all trials keep and bring about; **`Trials.sweep`, `Course.sweeps`**: so do
  sweeps.
- **`Search.Sound`**, **`Search.Sound.step`** — the invariant, and one trial; **`Strategy.improve_yields`** — a whole run.
- **`choices_nodup`** — no choices come twice.
- **`improvement_history`** — the main statement.
-/

namespace InfluenceDiagrams

/-! ## The value of a strategy -/

/-- A strategy that fits has an expected utility if all paths have a probability and a utility. Chance nodes may be
without states. -/
theorem expectedUtility_yields {dia : Diagram Rat} (hacc : dia.Accepted) {Z : Strategy} (hZ : Z.Fits dia)
    (hdecision : ∀ d ∈ dia.D, 1 ≤ entry dia.S d.index) :
    Yields (expectedUtility dia Z) (fun _ => True) fun _ => ¬dia.Valued := by
  by_cases hvalued : dia.Valued
  · obtain ⟨cp, ss, hcp, hlist, hss⟩ := hZ.exists_toList hacc hdecision
    exact Yields.of_eq_ok (hvalued.expectedUtility_eq_sum hcp hlist hss) trivial
  · cases expectedUtility dia Z with
    | ok u => trivial
    | error f => exact hvalued

namespace Search

/-! ## One trial -/

/-- A state to be tried in an information state of a part. -/
structure Trial where
  part : Nat
  row : Nat
  state : Nat

/-- There is a part with these nodes that has the information state and the state. -/
def Trial.Within (trial : Trial) (S : StateCounts) (nodes : List InfoNode) : Prop :=
  ∃ d, nodes[trial.part]? = some d ∧ trial.row < numInfoStates S d ∧ trial.state < Table.extent S d.index

/-- The state that a strategy selects in an information state of a part. -/
def selectedAt? (Z : Strategy) (k row : Nat) : Option State :=
  Z.parts[k]?.map fun z => selectedState (z.table.rowAt row)

/-- A trial that is kept changes what is selected in one information state. -/
theorem selectedAt?_select {dia : Diagram Rat} {Z : Strategy} (hZ : Z.Fits dia) {z : LocalStrategy} {k row state : Nat}
    (hz : Z.parts[k]? = some z) (hrow : row < numInfoStates dia.S z.node)
    (hstate : state < Table.extent dia.S z.node.index) (j i : Nat) :
    selectedAt? (Z.select k row state) j i = if k = j ∧ i = row then some (state : Int) else selectedAt? Z j i := by
  cases hy : Z.parts[j]? with
  | none =>
      have hkj : k ≠ j := by
        rintro rfl
        cases hy.symm.trans hz
      rw [if_neg fun h => hkj h.1, selectedAt?, selectedAt?, Strategy.getElem?_select, hy]
      rfl
  | some y =>
      obtain ⟨y', hy', -, hselected⟩ := hZ.exists_part_select hz hrow hstate hy
      rw [selectedAt?, selectedAt?, hy, hy', Option.map_some, Option.map_some, hselected]
      split <;> rfl

/-- What a trial comes to: the state is selected already, or selecting it does not raise the value by more than the
tolerance, or it does, and is kept. -/
inductive Tried (dia : Diagram Rat) (tol : Rat) (trial : Trial) (search : Search Rat) : Search Rat → Prop
  | selected (hsel : selectedAt? search.strategy trial.part trial.row = some (trial.state : Int)) :
      Tried dia tol trial search search
  | rejected {value : Rat}
      (hvalue : expectedUtility dia (search.strategy.select trial.part trial.row trial.state) = .ok value)
      (hle : value ≤ search.value + tol) : Tried dia tol trial search search
  | kept {value : Rat} (hne : selectedAt? search.strategy trial.part trial.row ≠ some (trial.state : Int))
      (hvalue : expectedUtility dia (search.strategy.select trial.part trial.row trial.state) = .ok value)
      (hlt : search.value + tol < value) :
      Tried dia tol trial search
        ⟨search.strategy.select trial.part trial.row trial.state, value,
          (search.strategy.select trial.part trial.row trial.state, value) :: search.trail, true⟩

/-- A trial fails only where the changed strategy has no value. -/
theorem tryState_yields (dia : Diagram Rat) (tol : Rat) (trial : Trial) (search : Search Rat) :
    Yields (tryState dia tol trial.part trial.row search trial.state) (Tried dia tol trial search)
      (fun f => expectedUtility dia (search.strategy.select trial.part trial.row trial.state) = .error f) := by
  show Yields (if selectedAt? search.strategy trial.part trial.row = some (trial.state : Int) then .ok search else
    (expectedUtility dia (search.strategy.select trial.part trial.row trial.state)).bind _) _ _
  split
  · exact Tried.selected ‹_›
  · cases hvalue : expectedUtility dia (search.strategy.select trial.part trial.row trial.state) with
    | error f => exact rfl
    | ok value =>
        show Yields (if search.value + tol < value then _ else _) _ _
        split
        · exact Tried.kept ‹_› hvalue ‹_›
        · exact Tried.rejected hvalue (not_lt.1 ‹_›)

/-! ## Sweeps -/

/-- What is done in one search is still done in another. -/
def Keeps (done : Trial → Search Rat → Prop) (search next : Search Rat) : Prop :=
  ∀ trial, done trial search → done trial next

theorem Keeps.refl {done : Trial → Search Rat → Prop} (search : Search Rat) : Keeps done search search :=
  fun _ h => h

theorem Keeps.trans {done : Trial → Search Rat → Prop} {a b c : Search Rat} (hab : Keeps done a b)
    (hbc : Keeps done b c) : Keeps done a c :=
  fun trial h => hbc trial (hab trial h)

/-- An invariant of searches among the strategies that fit a diagram and have the given nodes, with what every trial
brings about and no later one of the same sweep undoes. -/
structure Trials (dia : Diagram Rat) (tol : Rat) (nodes : List InfoNode) (inv : Search Rat → Prop)
    (done : Trial → Search Rat → Prop) (E : Fault Rat → Prop) : Prop where
  same_nodes : ∀ search, inv search → search.strategy.nodes = nodes
  fits : ∀ search, inv search → search.strategy.Fits dia
  step : ∀ search, inv search → ∀ trial : Trial, trial.Within dia.S nodes →
    Yields (tryState dia tol trial.part trial.row search trial.state)
      (fun next => inv next ∧ Keeps done search next ∧ done trial next) E

/-- The same where the next sweep undoes nothing either. -/
structure Course (dia : Diagram Rat) (tol : Rat) (nodes : List InfoNode) (inv : Search Rat → Prop)
    (done : Trial → Search Rat → Prop) (E : Fault Rat → Prop) : Prop extends Trials dia tol nodes inv done E where
  restart : ∀ search, inv search → inv { search with changed := false } ∧
    Keeps done search { search with changed := false }

namespace Trials

variable {dia : Diagram Rat} {tol : Rat} {nodes : List InfoNode} {inv : Search Rat → Prop}
  {done : Trial → Search Rat → Prop} {E : Fault Rat → Prop} {search : Search Rat}

/-- One information state: its states are tried. -/
theorem tryRow (h : Trials dia tol nodes inv done E) (hinv : inv search) {k row : Nat} {d : InfoNode}
    (hd : nodes[k]? = some d) (hrow : row < numInfoStates dia.S d) :
    Yields (tryRow dia tol k (Table.extent dia.S d.index) search row)
      (fun next => inv next ∧ Keeps done search next ∧
        ∀ state < Table.extent dia.S d.index, done ⟨k, row, state⟩ next) E := by
  have hrun : Yields (Search.tryRow dia tol k (Table.extent dia.S d.index) search row)
      (fun next => inv next ∧ Keeps done search next ∧
        ∀ state ∈ List.range (Table.extent dia.S d.index), done ⟨k, row, state⟩ next) E :=
    Yields.foldlM_each Keeps.refl (fun _ _ _ => Keeps.trans) (fun state _ _ hab hdone => hab ⟨k, row, state⟩ hdone)
      (fun acc hacc state hstate => h.step acc hacc ⟨k, row, state⟩ ⟨d, hd, hrow, List.mem_range.1 hstate⟩) hinv
  exact hrun.mono (fun next _ ⟨hnext, hkeeps, hdone⟩ =>
    ⟨hnext, hkeeps, fun state hstate => hdone state (List.mem_range.2 hstate)⟩) fun _ hf => hf

/-- One part: its information states are gone through. The table is looked at before the first trial, but the
dimensions stay. -/
theorem tryPart (h : Trials dia tol nodes inv done E) (hinv : inv search) {k : Nat} (hk : k < nodes.length) :
    Yields (tryPart dia tol search k)
      (fun next => inv next ∧ Keeps done search next ∧
        ∀ trial : Trial, trial.part = k → trial.Within dia.S nodes → done trial next) E := by
  have hnodes := h.same_nodes search hinv
  have hsome : search.strategy.nodes[k]? = some nodes[k] := by rw [hnodes, List.getElem?_eq_getElem hk]
  obtain ⟨z, hz, hnode⟩ := Strategy.exists_part_of_nodes hsome
  have hd : nodes[k]? = some z.node := by rw [hnode, List.getElem?_eq_getElem hk]
  have hfits := (h.fits search hinv).parts z (List.mem_of_getElem? hz)
  have hrun : Yields (Search.tryPart dia tol search k)
      (fun next => inv next ∧ Keeps done search next ∧ ∀ row ∈ List.range (numInfoStates dia.S z.node),
        ∀ state < Table.extent dia.S z.node.index, done ⟨k, row, state⟩ next) E := by
    unfold Search.tryPart
    rw [hz]
    dsimp only
    rw [hfits.rowShape_eq, hfits.width_eq]
    refine Yields.foldlM_each Keeps.refl (fun _ _ _ => Keeps.trans) ?_ ?_ hinv
    · exact fun row a b hab hdone state hstate => hab _ (hdone state hstate)
    · exact fun acc hacc row hrow => h.tryRow hacc hd (List.mem_range.1 hrow)
  refine hrun.mono ?_ fun _ hf => hf
  rintro next - ⟨hnext, hkeeps, hdone⟩
  refine ⟨hnext, hkeeps, ?_⟩
  rintro ⟨_, row, state⟩ rfl ⟨d, hd', hrow, hstate⟩
  obtain rfl := Option.some.inj (hd.symm.trans hd')
  exact hdone row (List.mem_range.2 hrow) state hstate

/-- **One sweep**, once it has started: it brings about everything that is tried. -/
theorem sweep (h : Trials dia tol nodes inv done E) (hstart : inv { search with changed := false }) :
    Yields (sweep dia tol search)
      (fun next => inv next ∧ Keeps done { search with changed := false } next ∧
        ∀ trial : Trial, trial.Within dia.S nodes → done trial next) E := by
  have hlen : search.strategy.parts.length = nodes.length := by
    rw [← h.same_nodes _ hstart, Strategy.nodes, List.length_map]
  have hrun : Yields (Search.sweep dia tol search)
      (fun next => inv next ∧ Keeps done { search with changed := false } next ∧ ∀ k ∈ List.range nodes.length,
        ∀ trial : Trial, trial.part = k → trial.Within dia.S nodes → done trial next) E := by
    unfold Search.sweep
    rw [hlen]
    refine Yields.foldlM_each Keeps.refl (fun _ _ _ => Keeps.trans) ?_ ?_ hstart
    · exact fun k a b hab hdone trial hk hwithin => hab _ (hdone trial hk hwithin)
    · exact fun acc hacc k hk => h.tryPart hacc (List.mem_range.1 hk)
  refine hrun.mono ?_ fun _ hf => hf
  rintro next - ⟨hnext, hkeeps, hdone⟩
  refine ⟨hnext, hkeeps, ?_⟩
  intro trial hwithin
  obtain ⟨d, hd, -⟩ := id hwithin
  exact hdone trial.part (List.mem_range.2 (List.getElem?_eq_some_iff.1 hd).1) trial rfl hwithin

end Trials

namespace Course

variable {dia : Diagram Rat} {tol : Rat} {nodes : List InfoNode} {inv : Search Rat → Prop}
  {done : Trial → Search Rat → Prop} {E : Fault Rat → Prop} {search : Search Rat}

/-- **One sweep.** Nothing is undone at its start. -/
theorem sweep (h : Course dia tol nodes inv done E) (hinv : inv search) :
    Yields (sweep dia tol search)
      (fun next => inv next ∧ Keeps done search next ∧
        ∀ trial : Trial, trial.Within dia.S nodes → done trial next) E := by
  obtain ⟨hstart, hkeeps⟩ := h.restart search hinv
  refine (h.toTrials.sweep hstart).mono ?_ fun _ hf => hf
  rintro next - ⟨hnext, hkeeps', hdone⟩
  exact ⟨hnext, hkeeps.trans hkeeps', hdone⟩

/-- **All sweeps**, by induction on their number. -/
theorem sweeps (h : Course dia tol nodes inv done E) (maxSweeps : Nat) (hinv : inv search) :
    Yields (sweeps dia tol maxSweeps search) (fun next => inv next ∧ Keeps done search next ∧
      (1 ≤ maxSweeps → ∀ trial : Trial, trial.Within dia.S nodes → done trial next)) E := by
  induction maxSweeps generalizing search with
  | zero => exact ⟨hinv, Keeps.refl search, fun hone => absurd hone (by omega)⟩
  | succ n ih =>
      refine (h.sweep hinv).bind fun next ⟨hnext, hkeeps, hdone⟩ => ?_
      split
      · refine (ih hnext).mono ?_ fun _ hf => hf
        rintro last - ⟨hlast, hkeeps', -⟩
        exact ⟨hlast, hkeeps.trans hkeeps', fun _ trial hwithin => hkeeps' trial (hdone trial hwithin)⟩
      · exact ⟨hnext, hkeeps, fun _ => hdone⟩

end Course
end Search

/-! ## The history -/

/-- One step of a history: the value rises by more than the tolerance, the nodes stay with their order, and the
strategies choose the same states except in one information state of one decision node. -/
structure Improves (dia : Diagram Rat) (tol : Rat) (before after : Strategy × Rat) : Prop where
  rises : before.2 + tol < after.2
  nodes : after.1.nodes = before.1.nodes
  change : ∃ d ∈ dia.D, ∃ info, Table.IndexOf (d.info.map (Table.extent dia.S)) info ∧
    before.1.DiffersAt dia after.1 d info

namespace Search

/-- The trail of a search leads from a strategy to the one reached, in steps that improve it, and goes through
strategies that fit, each with its expected utility. -/
structure Sound (dia : Diagram Rat) (tol : Rat) (Z : Strategy) (search : Search Rat) : Prop where
  reached : search.trail.head? = some (search.strategy, search.value)
  start : search.trail.getLast?.map Prod.fst = some Z
  entries : ∀ e ∈ search.trail, e.1.Fits dia ∧ e.1.nodes = Z.nodes ∧ expectedUtility dia e.1 = .ok e.2
  steps : search.trail.IsChain fun after before => Improves dia tol before after

namespace Sound

variable {dia : Diagram Rat} {tol : Rat} {Z : Strategy} {search next : Search Rat}

theorem current (h : search.Sound dia tol Z) : search.strategy.Fits dia ∧ search.strategy.nodes = Z.nodes ∧
    expectedUtility dia search.strategy = .ok search.value :=
  h.entries (search.strategy, search.value) (List.mem_of_head? h.reached)

/-- A search begins at a strategy with its value. -/
theorem initial (hZ : Z.Fits dia) {value : Rat} (hvalue : expectedUtility dia Z = .ok value) :
    Sound dia tol Z ⟨Z, value, [(Z, value)], false⟩ where
  reached := rfl
  start := rfl
  entries := List.forall_mem_singleton.2 ⟨hZ, rfl, hvalue⟩
  steps := List.isChain_singleton _

/-- **One trial.** A change that is kept is a step of the trail. -/
theorem step (h : search.Sound dia tol Z) (hacc : dia.Accepted) {trial : Trial} (hwithin : trial.Within dia.S Z.nodes)
    (htried : Tried dia tol trial search next) : next.Sound dia tol Z := by
  cases htried with
  | selected => exact h
  | rejected => exact h
  | @kept value hne hvalue hlt =>
      obtain ⟨hfits, hnodes, -⟩ := h.current
      obtain ⟨d, hd, hrow, hstate⟩ := hwithin
      obtain ⟨z, hz, rfl⟩ := Strategy.exists_part_of_nodes (hnodes ▸ hd)
      have hsel : selectedState (z.table.rowAt trial.row) ≠ (trial.state : Int) := by
        intro hsame
        apply hne
        rw [selectedAt?, hz, Option.map_some, hsame]
      obtain ⟨info, hinfo, hplace⟩ := Table.exists_place?_eq hrow
      have hstep : Improves dia tol (search.strategy, search.value)
          (search.strategy.select trial.part trial.row trial.state, value) := {
        rises := hlt
        nodes := Strategy.select_nodes _ _ _ _
        change := ⟨z.node, hfits.mem_decision (List.mem_of_getElem? hz), info, hinfo,
          hfits.select_differsAt hacc hz hstate hsel hinfo hplace⟩ }
      obtain ⟨trail, htrail⟩ := List.head?_eq_some_iff.1 h.reached
      exact {
        reached := rfl
        start := by
          have := h.start
          rw [htrail] at this ⊢
          rwa [List.getLast?_cons_cons]
        entries := by
          refine List.forall_mem_cons.2 ⟨⟨hfits.select hz hrow hstate, ?_, hvalue⟩, h.entries⟩
          exact (Strategy.select_nodes _ _ _ _).trans hnodes
        steps := by
          have := h.steps
          rw [htrail] at this ⊢
          exact List.isChain_cons_cons.2 ⟨hstep, this⟩ }

/-- A search stays sound, and goes on unless a path has no probability or no utility. -/
theorem course (hacc : dia.Accepted) (hdecision : ∀ d ∈ dia.D, 1 ≤ entry dia.S d.index) (tol : Rat) (Z : Strategy) :
    Course dia tol Z.nodes (Sound dia tol Z) (fun _ _ => True) fun _ => ¬dia.Valued where
  same_nodes _ h := h.current.2.1
  fits _ h := h.current.1
  restart _ h := ⟨⟨h.reached, h.start, h.entries, h.steps⟩, fun _ _ => trivial⟩
  step search h trial hwithin := by
    obtain ⟨hfits, hnodes, -⟩ := h.current
    obtain ⟨d, hd, hrow, hstate⟩ := id hwithin
    obtain ⟨z, hz, rfl⟩ := Strategy.exists_part_of_nodes (hnodes ▸ hd)
    have hvalue := expectedUtility_yields hacc (hfits.select hz hrow hstate) hdecision
    refine (tryState_yields dia tol trial search).mono (fun next _ htried => ?_) fun _ hf => hvalue.of_error hf
    exact ⟨h.step hacc hwithin htried, fun _ _ => trivial, trivial⟩

/-- Along the history the values go up. -/
theorem rises (h : search.Sound dia tol Z) (htol : 0 ≤ tol) :
    search.trail.reverse.Pairwise fun e e' => e.2 < e'.2 := by
  have htrans : IsTrans (Strategy × Rat) fun e e' => e.2 < e'.2 := ⟨fun _ _ _ => lt_trans⟩
  have hsteps : search.trail.reverse.IsChain (Improves dia tol) := List.isChain_reverse.2 h.steps
  refine (hsteps.imp fun e e' hstep => ?_).pairwise
  have := hstep.rises
  linarith

end Sound
end Search

/-- A search that comes to an end is sound, and it does unless a path has no probability or no utility. -/
theorem Strategy.improve_yields {dia : Diagram Rat} (hacc : dia.Accepted) {Z : Strategy} (hZ : Z.Made dia) (tol : Rat)
    (maxSweeps : Nat) :
    Yields (Z.improve dia maxSweeps tol)
      (fun history => ∃ search : Search Rat, search.Sound dia tol Z ∧ history = search.trail.reverse)
      fun _ => ¬dia.Valued := by
  have hdecision : ∀ d ∈ dia.D, 1 ≤ entry dia.S d.index := fun d hd => hZ.count_pos hd
  unfold Strategy.improve
  cases hvalue : expectedUtility dia Z with
  | error f => exact (expectedUtility_yields hacc hZ.fits hdecision).of_error hvalue
  | ok value =>
      have hsweeps := (Search.Sound.course hacc hdecision tol Z).sweeps maxSweeps (.initial hZ.fits hvalue)
      exact (hsweeps.mono (fun _ _ h => h.1) fun _ hf => hf).bind fun search hsearch => ⟨search, hsearch, rfl⟩

/-- Strategies with the same nodes and ever higher values all choose differently. -/
theorem choices_nodup {dia : Diagram Rat} {nodes : List InfoNode} {history : List (Strategy × Rat)}
    (hentries : ∀ e ∈ history, e.1.Fits dia ∧ e.1.nodes = nodes ∧ expectedUtility dia e.1 = .ok e.2)
    (hrises : history.Pairwise fun e e' => e.2 < e'.2) :
    (history.map fun e => e.1.parts.map LocalStrategy.choices).Nodup := by
  rw [List.Nodup, List.pairwise_map]
  refine hrises.imp_of_mem fun {e e'} he he' hlt hsame => ?_
  obtain ⟨hfits, hnodes, hvalue⟩ := hentries e he
  obtain ⟨hfits', hnodes', hvalue'⟩ := hentries e' he'
  have hZ : e.1 = e'.1 := hfits.eq_of_choices hfits' (hnodes.trans hnodes'.symm) hsame
  rw [hZ, hvalue'] at hvalue
  exact absurd (Except.ok.inj hvalue).symm (ne_of_lt hlt)

/-! ## The main statement -/

/-- **The history of a search.** A search from a strategy made of accepted tables comes to an end if every path has a
probability and a utility. Its history starts with that strategy and records every strategy with its expected utility.
All of them are well formed, the value goes up by more than the tolerance each time, while the nodes stay in their
order and the choices in all information states but one. No choices occur twice, and so the history is no longer than
there are strategies, however many sweeps are made. -/
theorem improvement_history {dia : Diagram Rat} (hacc : dia.Accepted) {Z : Strategy} (hZ : Z.Made dia) {tol : Rat}
    (htol : 0 ≤ tol) (maxSweeps : Nat) :
    (dia.Valued → ∃ history, Z.improve dia maxSweeps tol = .ok history) ∧
      ∀ history, Z.improve dia maxSweeps tol = .ok history →
        history.head?.map Prod.fst = some Z ∧
        (∀ e ∈ history, expectedUtility dia e.1 = .ok e.2 ∧ e.1.Fits dia) ∧
        history.IsChain (Improves dia tol) ∧
        (history.map fun e => e.1.parts.map LocalStrategy.choices).Nodup ∧
        history.length ≤ dia.numStrategies := by
  have hrun := Strategy.improve_yields hacc hZ tol maxSweeps
  refine ⟨fun hvalued => ?_, fun history hhistory => ?_⟩
  · cases hhistory : Z.improve dia maxSweeps tol with
    | ok history => exact ⟨history, rfl⟩
    | error f => exact absurd hvalued (hrun.of_error hhistory)
  · obtain ⟨search, hsound, rfl⟩ := hrun.of_ok hhistory
    have hentries : ∀ e ∈ search.trail.reverse,
        e.1.Fits dia ∧ e.1.nodes = Z.nodes ∧ expectedUtility dia e.1 = .ok e.2 :=
      fun e he => hsound.entries e (List.mem_reverse.1 he)
    have hnodup := choices_nodup hentries (hsound.rises htol)
    refine ⟨?_, fun e he => ⟨(hentries e he).2.2, (hentries e he).1⟩, List.isChain_reverse.2 hsound.steps, hnodup, ?_⟩
    · rw [List.head?_reverse]
      exact hsound.start
    · rw [← List.length_map (f := Prod.fst)]
      refine Diagram.length_le_numStrategies hZ.nodes (fun Y hY => ?_) (by rwa [List.map_map])
      obtain ⟨e, he, rfl⟩ := List.mem_map.1 hY
      exact ⟨(hentries e he).2.1, (hentries e he).1⟩

/-- Take the umbrella unless rain is forecast. -/
def contraryStrategy : Strategy := ⟨[⟨⟨2, [1]⟩, ⟨[2, 2], [false, true, true, false], rfl⟩⟩]⟩

theorem contraryStrategy_made : contraryStrategy.Made umbrella where
  nodes := by decide
  parts := by
    intro z hz
    rw [List.mem_singleton.1 hz]
    exact ⟨⟨[2, 2], [.int 0, .int 1, .int 1, .int 0], rfl⟩, by decide, rfl⟩

/-- From the contrary strategy, a search goes through four strategies at most. -/
theorem improvement_history_umbrella :
    umbrella.Valued ∧ ∃ history, contraryStrategy.improve umbrella 3 (1 / 2) = .ok history ∧
      history.head?.map Prod.fst = some contraryStrategy ∧ history.IsChain (Improves umbrella (1 / 2)) ∧
      history.length ≤ 4 := by
  have hvalued : umbrella.Valued := umbrella_wellFormed.ordered.dimensioned.valued
  have htol : (0 : Rat) ≤ 1 / 2 := by norm_num
  obtain ⟨hends, hhistory⟩ := improvement_history umbrella_wellFormed.accepted contraryStrategy_made htol 3
  obtain ⟨history, hrun⟩ := hends hvalued
  obtain ⟨hfirst, -, hsteps, -, hlen⟩ := hhistory history hrun
  have hcount : umbrella.numStrategies = 4 := by decide
  exact ⟨hvalued, history, hrun, hfirst, hsteps, hcount ▸ hlen⟩

end InfluenceDiagrams
