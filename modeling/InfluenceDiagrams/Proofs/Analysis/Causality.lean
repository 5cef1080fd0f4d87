import InfluenceDiagrams.Proofs.Analysis.Conditioning

/-!
# `InfluenceDiagrams.Proofs.Analysis.Causality` — later decisions leave earlier states alone

Two strategies that agree at all decision nodes before some node allow different paths, and yet the nodes before it
cannot tell them apart. What is added up for an earlier state is a sum over all allowed paths through it; the
factors of the nodes from the given one on are summed out of it, and with them everything in which the two
strategies differ. The same holds of the probability of an event made up of earlier states, so that chains of
conditioning succeed or fail together.

## Contents
- **`Strategy.AgreeBefore`** — the same choices at all decision nodes before a node.
- **`Ordered.eventMass_eq`** — the probability of an event of earlier nodes, without the later nodes.
- **`AgreeBefore.eventMass_eq`** — the two strategies give it the same probability.
- **`StateProbabilities.SameBefore`** — results with the same probabilities for the states of earlier nodes.
- **`Carries.given_agree`, `conditioned_agree`** — one step of conditioning, and all steps.
- **`earlier_states_unaffected`** — the main statement.
-/

namespace InfluenceDiagrams

/-! ## Strategies that agree before a node -/

/-- At the decision nodes before `m` the strategies select the same states in every information state. -/
def Strategy.AgreeBefore (S : StateCounts) (m : Node) (Z Z' : Strategy) : Prop :=
  ∀ z ∈ Z.parts, ∀ z' ∈ Z'.parts, z.node = z'.node → z.node.index < m →
    ∀ info, Table.IndexOf (z.node.info.map (Table.extent S)) info → z.choose? info = z'.choose? info

theorem Strategy.AgreeBefore.symm {S : StateCounts} {m : Node} {Z Z' : Strategy} (h : Z.AgreeBefore S m Z') :
    Z'.AgreeBefore S m Z := by
  intro z' hz' z hz hnode hlt info hinfo
  rw [hnode] at hlt hinfo
  exact (h z hz z' hz' hnode.symm hlt info hinfo).symm

/-! ## Summing out later nodes -/

theorem statesBelow_filter_ge (n m : Int) :
    ((statesBelow n).filter fun i => !decide (i < m)) = (statesBelow n).drop m.toNat := by
  have hentry : ∀ j (hj : j < (statesBelow n).length), (statesBelow n)[j] = (j : Int) := by
    intro j hj
    simp [statesBelow]
  conv_lhs => rw [← List.take_append_drop m.toNat (statesBelow n)]
  rw [List.filter_append, List.filter_eq_nil_iff.2, List.filter_eq_self.2, List.nil_append]
  · intro i hi
    obtain ⟨j, hj, rfl⟩ := List.getElem_of_mem hi
    rw [List.getElem_drop, hentry]
    simp only [Bool.not_eq_true', decide_eq_false_iff_not]
    omega
  · intro i hi
    obtain ⟨j, hj, rfl⟩ := List.getElem_of_mem hi
    rw [List.length_take] at hj
    rw [List.getElem_take, hentry]
    simp only [Bool.not_eq_true', decide_eq_false_iff_not]
    omega

theorem Factor.product_congr {factors : List Factor} {s t : Path}
    (h : ∀ φ ∈ factors, φ.value s = φ.value t) : product factors s = product factors t := by
  unfold product
  congr 1
  exact List.map_congr_left h

/-- The indicator of the paths through some states. -/
def through (pairs : List (Node × State)) (s : Path) : Rat :=
  if pairs.all (fun p => entry s p.1 == p.2) then 1 else 0

theorem through_congr {pairs : List (Node × State)} {s t : Path}
    (h : ∀ p ∈ pairs, entry s p.1 = entry t p.1) : through pairs s = through pairs t := by
  unfold through
  have hall : (pairs.all fun p => entry s p.1 == p.2) = pairs.all fun p => entry t p.1 == p.2 := by
    rw [Bool.eq_iff_iff, List.all_eq_true, List.all_eq_true]
    exact forall₂_congr fun p hp => by rw [h p hp]
  rw [hall]

namespace Diagram.Ordered

variable {dia : Diagram Rat} {Z : Strategy} {m : Node} {pairs : List (Node × State)}

/-- The probability of an event as a sum over all paths. -/
theorem eventMass_eq_sum (h : dia.Ordered) (hZ : Z.Fits dia) {P : ProbabilityTables Rat}
    (hP : dia.P = .tables P) (hfits : P.Fits dia.S dia.C) :
    dia.eventMass Z pairs = ((paths dia.S .empty).map fun s => through pairs s *
      Factor.product (P.parts.map ProbabilityTables.chanceFactor ++ Z.parts.map LocalStrategy.decisionFactor)
        s).sum := by
  rw [Diagram.eventMass, Diagram.eventPaths, Diagram.allowedPaths, sum_map_filter, sum_map_filter]
  congr 1
  apply List.map_congr_left
  intro s hs
  have hin := mem_paths_empty.1 hs
  have hprob : dia.prob s = Factor.product (P.parts.map ProbabilityTables.chanceFactor) s := by
    rw [Diagram.prob, h.eval_product hP hfits hin]
    rfl
  rw [Factor.product_append, h.staged.product_decisionFactor hZ hin, through, hprob]
  split <;> split <;> simp

/-- The probability of an event of nodes before `m`. The sum goes over the paths up to `m`, with the factors of
the nodes before `m`. -/
theorem eventMass_eq (h : dia.Ordered) (hZ : Z.Fits dia) {P : ProbabilityTables Rat}
    (hP : dia.P = .tables P) (hfits : P.Fits dia.S dia.C)
    (hpairs : ∀ p ∈ pairs, InRange dia.S.length p.1 ∧ p.1 < m) :
    dia.eventMass Z pairs = ((paths (dia.S.take m.toNat) .empty).map fun s => through pairs s *
      (Factor.product ((P.parts.map ProbabilityTables.chanceFactor).filter fun φ => decide (φ.node < m)) s *
        Factor.product ((Z.parts.filter fun z => decide (z.node.index < m)).map LocalStrategy.decisionFactor)
          s)).sum := by
  let factors := P.parts.map ProbabilityTables.chanceFactor ++ Z.parts.map LocalStrategy.decisionFactor
  have hsum : ∀ φ ∈ factors, φ.SumsTo dia.S 1 :=
    List.forall_mem_append.2 ⟨h.chanceFactors_sumsTo hfits, h.staged.decisionFactors_sumsTo hZ⟩
  have hperm := h.staged.map_node_factors_perm hZ (map_node_chanceFactor hfits)
  have hnode : ∀ φ ∈ factors, InRange dia.S.length φ.node :=
    fun φ hφ => mem_statesBelow.1 (hperm.mem_iff.1 (List.mem_map_of_mem hφ))
  -- everything that is not summed out reads nodes before `m` only
  let g : Path → Rat := fun s => through pairs s * Factor.product (factors.filter fun φ => decide (φ.node < m)) s
  have hg : ∀ s t : Path, (∀ i : Int, 0 ≤ i → i < m.toNat → entry s i = entry t i) → g s = g t := by
    intro s t hst
    have hthrough : through pairs s = through pairs t := by
      apply through_congr
      intro p hp
      obtain ⟨⟨h0, -⟩, hlt⟩ := hpairs p hp
      exact hst p.1 h0 (by lia)
    show through pairs s * _ = through pairs t * _
    rw [hthrough, Factor.product_congr]
    intro φ hφ
    obtain ⟨hmem, hlt⟩ := List.mem_filter.1 hφ
    have hlt := of_decide_eq_true hlt
    refine (hsum φ hmem).reads s t fun i h0 hi => hst i h0 ?_
    lia
  have hlater : ((factors.filter fun φ => !decide (φ.node < m)).map Factor.node).Perm
      ((statesBelow dia.S.length).drop m.toNat) := by
    rw [← statesBelow_filter_ge]
    have := hperm.filter fun i => !decide (i < m)
    rwa [List.filter_map] at this
  have hcut := sum_mul_product_later (S := dia.S) (fun _ => 1) hg hlater
    fun φ hφ => hsum φ (List.mem_of_mem_filter hφ)
  rw [List.map_const', List.prod_replicate, one_pow, mul_one] at hcut
  rw [h.eventMass_eq_sum hZ hP hfits]
  refine Eq.trans ?_ (hcut.trans ?_)
  · congr 1
    apply List.map_congr_left
    intro s _
    rw [← Factor.product_perm (List.filter_append_perm (fun φ : Factor => decide (φ.node < m)) factors),
      Factor.product_append, ← mul_assoc]
  · congr 1
    apply List.map_congr_left
    intro s _
    show through pairs s * Factor.product (factors.filter _) s = _
    rw [List.filter_append, Factor.product_append, List.filter_map (l := Z.parts)]
    rfl

end Diagram.Ordered

section TwoStrategies

variable {dia : Diagram Rat} {Z Z' : Strategy} {m : Node} {pairs : List (Node × State)} (h : dia.Ordered)
  (hZ : Z.Fits dia) (hZ' : Z'.Fits dia) (hagree : Z.AgreeBefore dia.S m Z')

include h hZ hZ' hagree

/-- Before `m`, a path that has the states that one strategy selects has those that the other selects. -/
theorem Strategy.AgreeBefore.selected {s : Path} (hs : InSpace (dia.S.take m.toNat) s)
    (hselected : ∀ z ∈ Z.parts, z.node.index < m →
      z.choose? (z.node.info.map (entry s)) = some (entry s z.node.index)) :
    ∀ z' ∈ Z'.parts, z'.node.index < m →
      z'.choose? (z'.node.info.map (entry s)) = some (entry s z'.node.index) := by
  intro z' hz' hlt
  obtain ⟨z, hz, hnode⟩ := hZ.exists_part (hZ'.mem_decision hz')
  rw [← hnode] at hlt ⊢
  have hn : z.node ∈ dia.C ++ dia.D := List.mem_append_right _ (hZ.mem_decision hz)
  have hinfo : Table.IndexOf (z.node.info.map (Table.extent dia.S)) (z.node.info.map (entry s)) := by
    refine indexOf_take (fun i hi => ?_) hs
    obtain ⟨hrange, hbefore⟩ := h.info_before hn i hi
    have h0 := hrange.1
    exact ⟨hrange, by lia⟩
  rw [← hagree z hz z' hz' hnode hlt _ hinfo]
  exact hselected z hz hlt

/-- Strategies that agree before `m` give an event of nodes before `m` the same probability. -/
theorem Strategy.AgreeBefore.eventMass_eq (hpairs : ∀ p ∈ pairs, InRange dia.S.length p.1 ∧ p.1 < m) :
    dia.eventMass Z pairs = dia.eventMass Z' pairs := by
  obtain ⟨P, hP, hfits⟩ := h.probability
  rw [h.eventMass_eq hZ hP hfits hpairs, h.eventMass_eq hZ' hP hfits hpairs]
  congr 1
  apply List.map_congr_left
  intro s hs
  have hin := mem_paths_empty.1 hs
  have hforward := AgreeBefore.selected h hZ hZ' hagree hin
  have hbackward := AgreeBefore.selected h hZ' hZ hagree.symm hin
  rw [LocalStrategy.product_decisionFactor, LocalStrategy.product_decisionFactor]
  congr 2
  apply if_congr _ rfl rfl
  simp only [List.mem_filter, decide_eq_true_eq, and_imp]
  exact ⟨hforward, hbackward⟩

end TwoStrategies

/-! ## Results -/

/-- The results say the same about the states of all nodes before `m`, and carry the same probability of their
event. -/
structure StateProbabilities.SameBefore (S : StateCounts) (m : Node) (r r' : StateProbabilities Rat) : Prop where
  probs : ∀ i, InRange S.length i → i < m → ∃ row, nth? r.probs i = some row ∧ nth? r'.probs i = some row
  event : r.event = r'.event

/-- The line of a node has the probability of the event with each of its states, divided by that of the event. -/
theorem Carries.nth?_probs {dia : Diagram Rat} {Z : Strategy} {pairs : List (Node × State)}
    {r : StateProbabilities Rat} (hr : Carries dia Z pairs r) {i : Node} (hi : InRange dia.S.length i) :
    nth? r.probs i =
      some ((statesBelow (entry dia.S i)).map fun k => dia.eventMass Z (pairs ++ [(i, k)]) / r.event) := by
  rw [hr.probs_eq, marginals, nth?_map_statesBelow hi]
  congr 1
  apply List.map_congr_left
  intro k _
  rw [massThrough_div, Diagram.eventMass_append_singleton]

section Chain

variable {dia : Diagram Rat} {Z Z' : Strategy} {m : Node} {pairs : List (Node × State)} (h : dia.Ordered)
  (hZ : Z.Fits dia) (hZ' : Z'.Fits dia) (hagree : Z.AgreeBefore dia.S m Z')

include h hZ hZ' hagree

/-- With one more state of a node before `m`, the event has the same probability under both strategies. -/
theorem Carries.eventMass_eq {r : StateProbabilities Rat} (hr : Carries dia Z pairs r)
    (hpairs : ∀ p ∈ pairs, p.1 < m) {k : Node} (hk : InRange dia.S.length k ∧ k < m) (v : State) :
    dia.eventMass Z (pairs ++ [(k, v)]) = dia.eventMass Z' (pairs ++ [(k, v)]) := by
  refine Strategy.AgreeBefore.eventMass_eq h hZ hZ' hagree (List.forall_mem_append.2 ⟨fun p hp => ?_, ?_⟩)
  · exact ⟨h.accepted.chance_inRange (hr.mem_chance p hp).1, hpairs p hp⟩
  · exact List.forall_mem_singleton.2 hk

/-- Results for the same states of nodes before `m`. -/
theorem Carries.sameBefore {r r' : StateProbabilities Rat} (hr : Carries dia Z pairs r)
    (hr' : Carries dia Z' pairs r') (hevent : r.event = r'.event) (hpairs : ∀ p ∈ pairs, p.1 < m) :
    r.SameBefore dia.S m r' := by
  refine ⟨fun i hi hlt => ⟨_, hr.nth?_probs hi, ?_⟩, hevent⟩
  rw [hr'.nth?_probs hi, hevent]
  congr 1
  apply List.map_congr_left
  intro k _
  rw [hr.eventMass_eq h hZ hZ' hagree hpairs ⟨hi, hlt⟩ k]

/-- **One step.** A state of a node before `m` is refused under both strategies, for the same reason, or carries
both results on. -/
theorem Carries.given_agree {r r' : StateProbabilities Rat} (hr : Carries dia Z pairs r)
    (hr' : Carries dia Z' pairs r') (hpairs : ∀ p ∈ pairs, p.1 < m) {k : Node} (hk : k < m) (v : State) :
    (∃ f, r.given dia Z k v = .error f ∧ r'.given dia Z' k v = .error f) ∨
      ∃ q q', r.given dia Z k v = .ok q ∧ r'.given dia Z' k v = .ok q' ∧ Carries dia Z (pairs ++ [(k, v)]) q ∧
        Carries dia Z' (pairs ++ [(k, v)]) q' ∧ q.event = q'.event := by
  have hearlier : ∀ d ∈ dia.D, ∀ i ∈ d.info, i < d.index :=
    fun d hd => h.info_lt d (List.mem_append_right _ hd)
  by_cases hgood : k ∈ dia.indices .chance ∧ InRange (entry dia.S k) v
  · obtain ⟨hchance, hv⟩ := hgood
    have hmass := hr.eventMass_eq h hZ hZ' hagree hpairs ⟨h.accepted.chance_inRange hchance, hk⟩ v
    by_cases hpos : 0 < dia.eventMass Z (pairs ++ [(k, v)])
    · obtain ⟨q, hq, hcarries, hevent⟩ := hr.given_ok h.tabulated hZ hearlier hchance hv hpos
      obtain ⟨q', hq', hcarries', hevent'⟩ :=
        hr'.given_ok h.tabulated hZ' hearlier hchance hv (hmass ▸ hpos)
      exact Or.inr ⟨q, q', hq, hq', hcarries, hcarries', by rw [hevent, hevent', hmass]⟩
    · obtain ⟨_, -, hgiven⟩ := hr.given_eq h.tabulated hZ hearlier hchance hv
      obtain ⟨_, -, hgiven'⟩ := hr'.given_eq h.tabulated hZ' hearlier hchance hv
      rw [if_pos (not_lt.1 hpos)] at hgiven
      rw [if_pos (not_lt.1 (hmass ▸ hpos))] at hgiven'
      exact Or.inl ⟨_, hgiven, hgiven'⟩
  · obtain ⟨reason, hfail⟩ := Carries.given_refused (k := k) (v := v) h.tabulated (not_and_or.1 hgood)
    exact Or.inl ⟨_, hfail hr, hfail hr'⟩

/-- **All steps.** A chain of states of nodes before `m` fails under both strategies with the same fault, or gives
results that agree before `m`. -/
theorem conditioned_agree (hpairs : ∀ p ∈ pairs, p.1 < m) :
    (∃ f, dia.conditioned Z pairs = .error f ∧ dia.conditioned Z' pairs = .error f) ∨
      ∃ prior prior', dia.conditioned Z pairs = .ok prior ∧ dia.conditioned Z' pairs = .ok prior' ∧
        (pairs ≠ [] → ∃ r r', prior = some r ∧ prior' = some r' ∧ r.SameBefore dia.S m r') := by
  have hearlier : ∀ d ∈ dia.D, ∀ i ∈ d.info, i < d.index :=
    fun d hd => h.info_lt d (List.mem_append_right _ hd)
  induction pairs using List.reverseRecOn with
  | nil => exact Or.inr ⟨none, none, rfl, rfl, fun hne => absurd rfl hne⟩
  | append_singleton pairs p ih =>
      obtain ⟨k, v⟩ := p
      rw [List.forall_mem_append, List.forall_mem_singleton] at hpairs
      rw [conditioned_append_singleton, conditioned_append_singleton]
      rcases ih hpairs.1 with ⟨f, hf, hf'⟩ | ⟨prior, prior', hrun, hrun', -⟩
      · rw [hf, hf']
        exact Or.inl ⟨f, rfl, rfl⟩
      · obtain ⟨r, hnext, hr, -⟩ := conditioned_carries h.tabulated h.nonnegTables hZ hearlier hrun
        obtain ⟨r', hnext', hr', -⟩ := conditioned_carries h.tabulated h.nonnegTables hZ' hearlier hrun'
        rw [hrun, hrun', Except.bind, Except.bind, hnext, hnext']
        rcases Carries.given_agree h hZ hZ' hagree hr hr' hpairs.1 hpairs.2 v with
          ⟨f, hf, hf'⟩ | ⟨q, q', hq, hq', hcarries, hcarries', hevent⟩
        · rw [hf, hf']
          exact Or.inl ⟨f, rfl, rfl⟩
        · have hall : ∀ p ∈ pairs ++ [(k, v)], p.1 < m :=
            List.forall_mem_append.2 ⟨hpairs.1, List.forall_mem_singleton.2 hpairs.2⟩
          rw [hq, hq']
          exact Or.inr ⟨some q, some q', rfl, rfl,
            fun _ => ⟨q, q', rfl, rfl, hcarries.sameBefore h hZ hZ' hagree hcarries' hevent hall⟩⟩

end Chain

/-! ## The main statement -/

/-- **Later decisions leave earlier states alone.** In a diagram with stochastic tables whose nodes observe
earlier nodes, let two strategies agree at all decision nodes before `m`. Then the states of the nodes before
`m` have the same probabilities under both, and so they have after any chain of fixed states of nodes before
`m`, where the event has the same probability, too, unless the chain fails under both with the same fault. -/
theorem earlier_states_unaffected {dia : Diagram Rat} (h : dia.Ordered) {m : Node} {Z Z' : Strategy}
    (hZ : Z.Fits dia) (hZ' : Z'.Fits dia) (hagree : Z.AgreeBefore dia.S m Z') :
    (∃ r r', stateProbabilities dia Z none none none = .ok r ∧
      stateProbabilities dia Z' none none none = .ok r' ∧ r.SameBefore dia.S m r') ∧
    ∀ pairs, pairs ≠ [] → (∀ p ∈ pairs, p.1 < m) →
      (∃ f, dia.conditioned Z pairs = .error f ∧ dia.conditioned Z' pairs = .error f) ∨
      ∃ r r', dia.conditioned Z pairs = .ok (some r) ∧ dia.conditioned Z' pairs = .ok (some r') ∧
        r.SameBefore dia.S m r' := by
  constructor
  · have hearlier : ∀ d ∈ dia.D, ∀ i ∈ d.info, i < d.index :=
      fun d hd => h.info_lt d (List.mem_append_right _ hd)
    obtain ⟨r, hrun, hr, hevent⟩ := Carries.unconditional h.tabulated hZ hearlier
    obtain ⟨r', hrun', hr', hevent'⟩ := Carries.unconditional h.tabulated hZ' hearlier
    exact ⟨r, r', hrun, hrun', hr.sameBefore h hZ hZ' hagree hr' (hevent.trans hevent'.symm)
      fun p hp => absurd hp List.not_mem_nil⟩
  · intro pairs hne hpairs
    rcases conditioned_agree h hZ hZ' hagree hpairs with hfail | ⟨prior, prior', hrun, hrun', hsame⟩
    · exact Or.inl hfail
    · obtain ⟨r, r', rfl, rfl, hbefore⟩ := hsame hne
      exact Or.inr ⟨r, r', hrun, hrun', hbefore⟩

/-- A field may hold oil; one may test it before deciding to drill. Without a test nothing is found. -/
def oilField : Diagram Rat where
  S := [2, 2, 2, 2]
  C := [⟨0, []⟩, ⟨2, [0, 1]⟩]
  D := [⟨1, []⟩, ⟨3, [1, 2]⟩]
  V := [⟨4, [0, 1, 3]⟩]
  P := .tables ⟨[(⟨0, []⟩, ⟨[2], [4/5, 1/5], rfl⟩),
    (⟨2, [0, 1]⟩, ⟨[2, 2, 2], [1, 0, 9/10, 1/10, 1, 0, 1/4, 3/4], rfl⟩)]⟩
  U := .tables [(⟨4, [0, 1, 3]⟩, ⟨[2, 2, 2], [0, -50, -5, -55, 0, 200, -5, 195], rfl⟩)] 0

theorem oilField_ordered : oilField.Ordered where
  accepted := Diagram.accepted_iff.2 (by decide)
  counts_pos := by decide
  info_lt := by decide
  probability := ⟨_, rfl, by decide, by decide, by decide +kernel⟩
  utility := ⟨rfl, by decide⟩

/-- Test the field, and drill as the second table says. -/
def testAndDrill (drill : Table Bool) : Strategy := ⟨[⟨⟨1, []⟩, ⟨[2], [false, true], rfl⟩⟩, ⟨⟨3, [1, 2]⟩, drill⟩]⟩

theorem testAndDrill_fits {drill : Table Bool} (hover : drill.Over [2, 2, 2, 2] [1, 2, 3])
    (hselects : ∀ row ∈ drill.rows, row.count true = 1) : (testAndDrill drill).Fits oilField where
  nodes := List.Perm.refl _
  parts := by
    intro z hz
    rcases List.mem_pair.1 hz with rfl | rfl
    · exact ⟨by decide, by decide⟩
    · exact ⟨hover, hselects⟩

/-- Whether one drills on a find only or always, the test finds oil as often. -/
theorem earlier_states_unaffected_oilField :
    ∃ r r', oilField.conditioned (testAndDrill ⟨[2, 2, 2], [true, false, true, false, true, false, false, true], rfl⟩)
        [(2, 1)] = .ok (some r) ∧
      oilField.conditioned (testAndDrill ⟨[2, 2, 2], [false, true, false, true, false, true, false, true], rfl⟩)
        [(2, 1)] = .ok (some r') ∧ r.SameBefore [2, 2, 2, 2] 3 r' := by
  let Z := testAndDrill ⟨[2, 2, 2], [true, false, true, false, true, false, false, true], rfl⟩
  let Z' := testAndDrill ⟨[2, 2, 2], [false, true, false, true, false, true, false, true], rfl⟩
  have hZ : Z.Fits oilField := testAndDrill_fits (by decide) (by decide)
  have hZ' : Z'.Fits oilField := testAndDrill_fits (by decide) (by decide)
  have hagree : Z.AgreeBefore oilField.S 3 Z' := by
    intro z hz z' hz' hnode hlt info _
    rcases List.mem_pair.1 hz with rfl | rfl
    · rcases List.mem_pair.1 hz' with rfl | rfl
      · rfl
      · exact absurd hnode (by decide)
    · exact absurd hlt (by decide)
  have hchain := (earlier_states_unaffected oilField_ordered hZ hZ' hagree).2 [(2, 1)] (by simp) (by decide)
  rcases hchain with ⟨f, hfail, -⟩ | hboth
  · -- the find has positive probability
    have hpairs : ∀ p ∈ [((2 : Node), (1 : State))], p.1 ∈ oilField.indices .chance ∧
        InRange (entry oilField.S p.1) p.2 := by decide
    obtain ⟨prior, hrun, -⟩ := conditioned_ok oilField_ordered.tabulated oilField_ordered.nonnegTables hZ (by decide)
      hpairs fun _ => by decide +kernel
    rw [hrun] at hfail
    cases hfail
  · exact hboth

end InfluenceDiagrams
