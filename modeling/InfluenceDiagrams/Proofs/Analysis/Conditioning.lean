import InfluenceDiagrams.Proofs.Analysis.Marginals
import InfluenceDiagrams.Proofs.Path.Grouping
import InfluenceDiagrams.Proofs.Strategy.CompatibleListing

/-!
# `InfluenceDiagrams.Proofs.Analysis.Conditioning` — one chance state fixed after the other

The probabilities of states may be asked for given a state of a chance node, on top of everything that an
earlier result was given. The probability of the new event is not added up from paths. It is the probability
of the earlier event times that of the state in the earlier result, while the paths are enumerated anew with
all fixed states. The two stay in step along every chain: the event has the probability of the compatible
paths through all states fixed so far, and the state probabilities are those of these paths divided by it.

## Contents
- **`Diagram.eventPaths`, `Diagram.eventMass`** — the compatible paths through some states, and their probability.
- **`Diagram.conditioned`** — the result of fixing states one after the other.
- **`CompatiblePaths.checkFixed_insert`** — of the fixed states only the last one can be refused.
- **`Carries`** — what a result carries along; **`Carries.given_ok`**: one step.
- **`conditioned_carries`, `conditioned_ok`** — all steps.
- **`conditioning_chained`** — the main statement.
-/

namespace InfluenceDiagrams

/-! ## Events -/

namespace Diagram

/-- The compatible paths through some states. -/
def eventPaths (dia : Diagram Rat) (Z : Strategy) (pairs : List (Node × State)) : List Path :=
  (dia.allowedPaths Z).filter fun s => pairs.all fun p => entry s p.1 == p.2

/-- The probability of the compatible paths through some states. -/
def eventMass (dia : Diagram Rat) (Z : Strategy) (pairs : List (Node × State)) : Rat :=
  ((dia.eventPaths Z pairs).map dia.prob).sum

/-- The result of fixing states one after the other, each on top of the result before; none before the
first. -/
def conditioned (dia : Diagram Rat) (Z : Strategy) (pairs : List (Node × State)) :
    Except (Fault Rat) (Option (StateProbabilities Rat)) :=
  pairs.foldlM (fun prior p => (stateProbabilities dia Z (some p.1) (some p.2) prior).map some) none

variable {dia : Diagram Rat} {Z : Strategy}

theorem mem_eventPaths {pairs : List (Node × State)} {s : Path} :
    s ∈ dia.eventPaths Z pairs ↔
      (InSpace dia.S s ∧ Z.allows s = true) ∧ ∀ p ∈ pairs, entry s p.1 = p.2 := by
  rw [eventPaths, List.mem_filter, allowedPaths, List.mem_filter, mem_paths_empty]
  simp

theorem eventPaths_append_singleton (pairs : List (Node × State)) (k : Node) (v : State) :
    dia.eventPaths Z (pairs ++ [(k, v)]) = (dia.eventPaths Z pairs).filter fun s => entry s k == v := by
  rw [eventPaths, eventPaths, List.filter_filter]
  apply List.filter_congr
  intro s _
  simp [Bool.and_comm]

theorem eventMass_append_singleton (pairs : List (Node × State)) (k : Node) (v : State) :
    dia.eventMass Z (pairs ++ [(k, v)]) = massThrough dia.prob (dia.eventPaths Z pairs) k v := by
  rw [eventMass, eventPaths_append_singleton, massThrough]

/-- An event depends on its states, not on their order or number. -/
theorem eventPaths_congr {pairs pairs' : List (Node × State)} (h : ∀ p, p ∈ pairs ↔ p ∈ pairs') :
    dia.eventPaths Z pairs = dia.eventPaths Z pairs' := by
  apply List.filter_congr
  intro s _
  rw [Bool.eq_iff_iff, List.all_eq_true, List.all_eq_true]
  exact forall_congr' fun p => by rw [h p]

/-- The paths that agree with fixed states are those of the event that they make up. -/
theorem filter_allows_eq_eventPaths {fixed : FixedStates} (hwithin : fixed.Within dia.S)
    {pairs : List (Node × State)} (hfixed : ∀ k v, fixed.state? k = some v ↔ (k, v) ∈ pairs) :
    (paths dia.S fixed).filter Z.allows = dia.eventPaths Z pairs := by
  have hsorted : (dia.eventPaths Z pairs).Pairwise (· < ·) := ((paths_sorted _ _).filter _).filter _
  refine (CompatiblePaths.eq_filter_of_sorted hsorted fun s => ?_).symm
  rw [mem_eventPaths, mem_paths_iff hwithin, and_right_comm]
  refine and_congr_left fun _ => and_congr_right fun _ => ?_
  simp only [FixedStates.Agrees, hfixed, Prod.forall]

section Nonneg

variable (h : dia.Tabulated) (hnonneg : dia.NonnegTables)

include h hnonneg

theorem eventMass_nonneg (pairs : List (Node × State)) : 0 ≤ dia.eventMass Z pairs := by
  apply List.sum_nonneg
  intro x hx
  obtain ⟨s, -, rfl⟩ := List.mem_map.1 hx
  exact h.prob_nonneg hnonneg s

/-- One more state makes an event no more probable. -/
theorem eventMass_append_le (pairs : List (Node × State)) (p : Node × State) :
    dia.eventMass Z (pairs ++ [p]) ≤ dia.eventMass Z pairs := by
  rw [eventMass, eventPaths_append_singleton]
  refine (List.filter_sublist.map dia.prob).sum_le_sum ?_
  intro x hx
  obtain ⟨s, -, rfl⟩ := List.mem_map.1 hx
  exact h.prob_nonneg hnonneg s

end Nonneg

end Diagram

/-! ## Fixing one more state -/

namespace FixedStates

theorem state?_insert_self (fixed : FixedStates) (k : Node) (v : State) :
    (fixed.insert k v).state? k = some v := by
  rw [state?, insert, Keyed.find?_upsert_self]
  cases Keyed.find? k fixed.pairs <;> rfl

theorem state?_insert_ne (fixed : FixedStates) {i k : Node} (h : i ≠ k) (v : State) :
    (fixed.insert k v).state? i = fixed.state? i :=
  Keyed.find?_upsert_ne h.symm v _ _

theorem mem_pairs_insert {fixed : FixedStates} {k : Node} {v : State} {p : Node × State}
    (hp : p ∈ (fixed.insert k v).pairs) : p = (k, v) ∨ p ∈ fixed.pairs := by
  unfold insert at hp
  generalize fixed.pairs = pairs at hp ⊢
  induction pairs with
  | nil => exact Or.inl (List.mem_singleton.1 hp)
  | cons q pairs ih =>
      obtain ⟨i, w⟩ := q
      rw [Keyed.upsert] at hp
      split at hp
      · rename_i hik
        cases eq_of_beq hik
        exact (List.mem_cons.1 hp).imp id (List.mem_cons_of_mem _)
      · rcases List.mem_cons.1 hp with rfl | hp
        · exact Or.inr List.mem_cons_self
        · exact (ih hp).imp id (List.mem_cons_of_mem _)

end FixedStates

namespace CompatiblePaths

/-- Of a chance node and one of its states no fault arises. -/
theorem checkFixed_singleton {S : StateCounts} {C : List Node} (hC : ∀ c ∈ C, InRange S.length c) (k : Node)
    (v : State) :
    checkFixed (α := Rat) S C [(k, v)] =
      if k ∈ C then
        if InRange (entry S k) v then .ok () else .error (.invalidFixedState k (.outside v (entry S k)))
      else .error (.invalidFixedState k .notChance) := by
  by_cases hk : k ∈ C
  · rw [checkFixed, if_pos (List.contains_iff_mem.2 hk), nth?_eq_entry (hC k hk), if_pos hk]
    rfl
  · rw [checkFixed, if_neg (by rwa [List.contains_iff_mem]), if_neg hk]

/-- Where the states fixed so far are in order, only the last one can be refused. -/
theorem checkFixed_insert {S : StateCounts} {C : List Node} (hC : ∀ c ∈ C, InRange S.length c)
    {fixed : FixedStates} (hfixed : ∀ p ∈ fixed.pairs, p.1 ∈ C ∧ InRange (entry S p.1) p.2) (k : Node)
    (v : State) :
    checkFixed (α := Rat) S C (fixed.insert k v).pairs = checkFixed S C [(k, v)] := by
  unfold FixedStates.insert
  generalize fixed.pairs = pairs at hfixed ⊢
  show checkFixed S C (Keyed.upsert k v _ pairs) = _
  induction pairs with
  | nil => rfl
  | cons p pairs ih =>
      obtain ⟨j, w⟩ := p
      obtain ⟨⟨hj, hw⟩, hpairs⟩ := List.forall_mem_cons.1 hfixed
      rw [Keyed.upsert]
      by_cases hjk : j = k
      · -- the node was fixed before: its new state stands where the old one did
        subst hjk
        rw [if_pos (beq_self_eq_true j), checkFixed, checkFixed, checkFixed_eq_ok hC hpairs, checkFixed]
      · rw [if_neg (by rwa [beq_iff_eq]), checkFixed, if_pos (List.contains_iff_mem.2 hj), nth?_eq_entry (hC j hj)]
        dsimp only
        rw [if_pos (show 0 ≤ w ∧ w < entry S j from hw)]
        exact ih hpairs

end CompatiblePaths

/-! ## One step -/

/-- What a result carries along when some states have been fixed: these states, a positive number for the
event, and the probabilities of the paths through them, divided by that number. -/
structure Carries (dia : Diagram Rat) (Z : Strategy) (pairs : List (Node × State))
    (r : StateProbabilities Rat) : Prop where
  fixed_iff : ∀ k v, r.fixed.state? k = some v ↔ (k, v) ∈ pairs
  onChance : r.fixed.OnChance dia
  event_pos : 0 < r.event
  probs_eq : r.probs = marginals dia.S (fun s => dia.prob s / r.event) (dia.eventPaths Z pairs)

theorem FixedStates.OnChance.insert {dia : Diagram Rat} {fixed : FixedStates} (hfixed : fixed.OnChance dia)
    {k : Node} {v : State} (hk : k ∈ dia.indices .chance) (hv : InRange (entry dia.S k) v) :
    (fixed.insert k v).OnChance dia := by
  intro p hp
  rcases FixedStates.mem_pairs_insert hp with rfl | hp
  · exact ⟨hk, hv⟩
  · exact hfixed p hp

section Chain

variable {dia : Diagram Rat} {Z : Strategy} (h : dia.Tabulated) (hnonneg : dia.NonnegTables)
  (hZ : Z.Fits dia) (hearlier : ∀ d ∈ dia.D, ∀ i ∈ d.info, i < d.index)

include h hZ hearlier in
/-- The state totals of an event are the marginals over its paths. -/
theorem stateTotals_event {fixed : FixedStates} (hfixed : fixed.OnChance dia) {pairs : List (Node × State)}
    (hiff : ∀ k v, fixed.state? k = some v ↔ (k, v) ∈ pairs) (norm : Rat) :
    ∃ cp, CompatiblePaths.ofDiagram dia Z fixed = .ok cp ∧ stateTotals dia cp norm =
      .ok (marginals dia.S (fun s => dia.prob s / norm) (dia.eventPaths Z pairs)) := by
  have hwithin : fixed.Within dia.S := fun p hp => ⟨h.accepted.chance_inRange (hfixed p hp).1, (hfixed p hp).2⟩
  obtain ⟨cp, hcp, hlist⟩ := CompatiblePaths.ofDiagram_toList_exact h.accepted hZ hfixed hearlier
  rw [Diagram.filter_allows_eq_eventPaths hwithin hiff] at hlist
  exact ⟨cp, hcp, stateTotals_eq h hlist (fun s hs => (Diagram.mem_eventPaths.1 hs).1.1) norm⟩

include h hZ hearlier in
theorem Carries.unconditional :
    ∃ r, StateProbabilities.unconditional dia Z = .ok r ∧ Carries dia Z [] r ∧ r.event = 1 := by
  have hfixed : FixedStates.empty.OnChance dia := fun p hp => absurd hp List.not_mem_nil
  have hiff : ∀ k v, FixedStates.empty.state? k = some v ↔ (k, v) ∈ [] :=
    fun k v => iff_of_false (fun hk => by cases hk) List.not_mem_nil
  obtain ⟨cp, hcp, htotals⟩ := stateTotals_event h hZ hearlier hfixed hiff 1
  refine ⟨⟨marginals dia.S (fun s => dia.prob s / 1) (dia.eventPaths Z []), .empty, 1⟩, ?_,
    ⟨hiff, hfixed, one_pos, rfl⟩, rfl⟩
  rw [StateProbabilities.unconditional, hcp]
  show (stateTotals dia cp 1).bind _ = _
  rw [htotals]
  rfl

namespace Carries

variable {pairs : List (Node × State)} {r : StateProbabilities Rat} {k : Node} {v : State}

/-- The states of a result are those of chance nodes. -/
theorem mem_chance (hr : Carries dia Z pairs r) :
    ∀ p ∈ pairs, p.1 ∈ dia.indices .chance ∧ InRange (entry dia.S p.1) p.2 :=
  fun p hp => hr.onChance p (FixedStates.mem_of_state? ((hr.fixed_iff p.1 p.2).2 hp))

include h in
/-- A node that is no chance node, or a state that the node does not have, is refused before anything is
computed, for the same reason whatever the strategy is. -/
theorem given_refused (hbad : k ∉ dia.indices .chance ∨ ¬InRange (entry dia.S k) v) :
    ∃ reason, ∀ {Z : Strategy} {pairs : List (Node × State)} {r : StateProbabilities Rat},
      Carries dia Z pairs r → r.given dia Z k v = .error (.invalidFixedState k reason) := by
  have hrange : ∀ c ∈ dia.indices .chance, InRange dia.S.length c := fun _ hc => h.accepted.chance_inRange hc
  have hcheck := CompatiblePaths.checkFixed_singleton hrange k v
  have hgiven : ∀ f, CompatiblePaths.checkFixed dia.S (dia.indices .chance) [(k, v)] = .error f →
      ∀ {Z : Strategy} {pairs : List (Node × State)} {r : StateProbabilities Rat}, Carries dia Z pairs r →
        r.given dia Z k v = .error f := by
    intro f hf Z pairs r hr
    rw [StateProbabilities.given, CompatiblePaths.ofDiagram, CompatiblePaths.make,
      CompatiblePaths.checkFixed_insert hrange hr.onChance, hf]
    rfl
  by_cases hk : k ∈ dia.indices .chance
  · rw [if_pos hk, if_neg (hbad.resolve_left fun hno => hno hk)] at hcheck
    exact ⟨_, hgiven _ hcheck⟩
  · rw [if_neg hk] at hcheck
    exact ⟨_, hgiven _ hcheck⟩

include h in
/-- The probability of the new event: the number carried along cancels. -/
theorem event_mul (hr : Carries dia Z pairs r) (hk : k ∈ dia.indices .chance) (hv : InRange (entry dia.S k) v) :
    ∃ p, r.prob? k v = some p ∧ r.event * p = dia.eventMass Z (pairs ++ [(k, v)]) := by
  refine ⟨massThrough (fun s => dia.prob s / r.event) (dia.eventPaths Z pairs) k v, ?_, ?_⟩
  · rw [StateProbabilities.prob?, hr.probs_eq]
    exact nth?_marginals _ _ (h.accepted.chance_inRange hk) hv
  · rw [massThrough_div, mul_div_cancel₀ _ (ne_of_gt hr.event_pos), Diagram.eventMass_append_singleton]

include h hZ hearlier in
/-- What is left of a step for a chance node and one of its states. -/
theorem given_eq (hr : Carries dia Z pairs r) (hk : k ∈ dia.indices .chance) (hv : InRange (entry dia.S k) v) :
    ∃ cp, CompatiblePaths.ofDiagram dia Z (r.fixed.insert k v) = .ok cp ∧
      r.given dia Z k v =
        if dia.eventMass Z (pairs ++ [(k, v)]) ≤ 0 then .error (.invalidFixedState k (.impossible v))
        else (stateTotals dia cp (dia.eventMass Z (pairs ++ [(k, v)]))).map fun probs =>
          ⟨probs, r.fixed.insert k v, dia.eventMass Z (pairs ++ [(k, v)])⟩ := by
  obtain ⟨cp, hcp, -⟩ :=
    CompatiblePaths.ofDiagram_toList_exact h.accepted hZ (hr.onChance.insert hk hv) hearlier
  obtain ⟨p, hp, hmul⟩ := hr.event_mul h hk hv
  refine ⟨cp, hcp, ?_⟩
  rw [StateProbabilities.given, hcp, hp, ← hmul]
  rfl

/-- The states fixed so far and one more, if some compatible path goes through all of them. A node that was
fixed before can only be fixed to the same state again. -/
theorem state?_insert_iff (hr : Carries dia Z pairs r) {s : Path} (hs : s ∈ dia.eventPaths Z (pairs ++ [(k, v)]))
    (i : Node) (w : State) : (r.fixed.insert k v).state? i = some w ↔ (i, w) ∈ pairs ++ [(k, v)] := by
  have hthrough := (Diagram.mem_eventPaths.1 hs).2
  by_cases hi : i = k
  · subst hi
    rw [FixedStates.state?_insert_self, Option.some_inj]
    constructor
    · rintro rfl
      exact List.mem_append_right _ (List.mem_singleton_self _)
    · intro hw
      exact (hthrough (i, v) (List.mem_append_right _ (List.mem_singleton_self _))).symm.trans (hthrough (i, w) hw)
  · rw [FixedStates.state?_insert_ne _ hi, hr.fixed_iff, List.mem_append, List.mem_singleton]
    exact (or_iff_left fun heq => hi (congrArg Prod.fst heq)).symm

include h hZ hearlier in
/-- **One step.** Fixing a further state of positive probability. -/
theorem given_ok (hr : Carries dia Z pairs r) (hk : k ∈ dia.indices .chance) (hv : InRange (entry dia.S k) v)
    (hpos : 0 < dia.eventMass Z (pairs ++ [(k, v)])) :
    ∃ r', r.given dia Z k v = .ok r' ∧ Carries dia Z (pairs ++ [(k, v)]) r' ∧
      r'.event = dia.eventMass Z (pairs ++ [(k, v)]) := by
  -- an event of positive probability has a path
  obtain ⟨s, hs⟩ : ∃ s, s ∈ dia.eventPaths Z (pairs ++ [(k, v)]) := by
    apply List.exists_mem_of_ne_nil
    intro hnone
    rw [Diagram.eventMass, hnone] at hpos
    exact lt_irrefl _ hpos
  have hiff := hr.state?_insert_iff hs
  have hfixed := hr.onChance.insert hk hv
  obtain ⟨cp, hcp, hgiven⟩ := hr.given_eq h hZ hearlier hk hv
  obtain ⟨cp', hcp', htotals⟩ :=
    stateTotals_event h hZ hearlier hfixed hiff (dia.eventMass Z (pairs ++ [(k, v)]))
  obtain rfl : cp = cp' := Except.ok.inj (hcp.symm.trans hcp')
  rw [if_neg (not_le_of_gt hpos), htotals] at hgiven
  exact ⟨_, hgiven, ⟨hiff, hfixed, hpos, rfl⟩, rfl⟩

include h hnonneg hZ hearlier in
/-- A step fails for the three reasons only, and otherwise carries on. -/
theorem given_spec (hr : Carries dia Z pairs r) (k : Node) (v : State) :
    ((k ∉ dia.indices .chance ∨ ¬InRange (entry dia.S k) v ∨ dia.eventMass Z (pairs ++ [(k, v)]) = 0) ∧
        ∃ reason, r.given dia Z k v = .error (.invalidFixedState k reason)) ∨
      (k ∈ dia.indices .chance ∧ InRange (entry dia.S k) v ∧ 0 < dia.eventMass Z (pairs ++ [(k, v)])) ∧
        ∃ r', r.given dia Z k v = .ok r' ∧ Carries dia Z (pairs ++ [(k, v)]) r' ∧
          r'.event = dia.eventMass Z (pairs ++ [(k, v)]) := by
  by_cases hk : k ∈ dia.indices .chance
  · by_cases hv : InRange (entry dia.S k) v
    · rcases (Diagram.eventMass_nonneg (Z := Z) h hnonneg (pairs ++ [(k, v)])).eq_or_lt with hzero | hpos
      · obtain ⟨cp, -, hgiven⟩ := hr.given_eq h hZ hearlier hk hv
        rw [if_pos (le_of_eq hzero.symm)] at hgiven
        exact Or.inl ⟨Or.inr (Or.inr hzero.symm), _, hgiven⟩
      · exact Or.inr ⟨⟨hk, hv, hpos⟩, hr.given_ok h hZ hearlier hk hv hpos⟩
    · obtain ⟨reason, hfail⟩ := given_refused (k := k) (v := v) h (Or.inr hv)
      exact Or.inl ⟨Or.inr (Or.inl hv), reason, hfail hr⟩
  · obtain ⟨reason, hfail⟩ := given_refused (k := k) (v := v) h (Or.inl hk)
    exact Or.inl ⟨Or.inl hk, reason, hfail hr⟩

end Carries

/-! ## All steps -/

theorem conditioned_append_singleton (pairs : List (Node × State)) (k : Node) (v : State) :
    dia.conditioned Z (pairs ++ [(k, v)]) = (dia.conditioned Z pairs).bind fun prior =>
      (stateProbabilities dia Z (some k) (some v) prior).map some := by
  rw [Diagram.conditioned, List.foldlM_append]
  simp only [List.foldlM_cons, List.foldlM_nil, bind_pure]
  rfl

include h hnonneg hZ hearlier

/-- **All steps.** The result of a chain carries along the states of the chain. Before the first step, the
unconditional result does. -/
theorem conditioned_carries {pairs : List (Node × State)} :
    ∀ {prior : Option (StateProbabilities Rat)}, dia.conditioned Z pairs = .ok prior →
      ∃ r, (∀ k v, stateProbabilities dia Z (some k) (some v) prior = r.given dia Z k v) ∧
        Carries dia Z pairs r ∧
        ∀ r', prior = some r' → r' = r ∧ pairs ≠ [] ∧ r.event = dia.eventMass Z pairs := by
  induction pairs using List.reverseRecOn with
  | nil =>
      intro prior hrun
      obtain rfl : none = prior := Except.ok.inj hrun
      obtain ⟨r, hstart, hr, -⟩ := Carries.unconditional h hZ hearlier
      refine ⟨r, ?_, hr, fun r' hr' => by cases hr'⟩
      intro k v
      rw [stateProbabilities, hstart]
      rfl
  | append_singleton pairs p ih =>
      obtain ⟨k, v⟩ := p
      intro prior hrun
      rw [conditioned_append_singleton] at hrun
      cases hbefore : dia.conditioned Z pairs with
      | error f =>
          rw [hbefore] at hrun
          cases hrun
      | ok before =>
          obtain ⟨r, hnext, hr, -⟩ := ih hbefore
          rw [hbefore] at hrun
          change (stateProbabilities dia Z (some k) (some v) before).map some = .ok prior at hrun
          rw [hnext] at hrun
          rcases hr.given_spec h hnonneg hZ hearlier k v with ⟨-, reason, hgiven⟩ | ⟨-, r', hgiven, hr', hevent⟩
          · rw [hgiven] at hrun
            cases hrun
          · rw [hgiven] at hrun
            obtain rfl : some r' = prior := Except.ok.inj hrun
            refine ⟨r', fun _ _ => rfl, hr', ?_⟩
            intro r'' hr''
            exact ⟨(Option.some.inj hr'').symm, by simp, hevent⟩

/-- A chain over states of chance nodes goes through if the event that they make up is possible. -/
theorem conditioned_ok {pairs : List (Node × State)}
    (hpairs : ∀ p ∈ pairs, p.1 ∈ dia.indices .chance ∧ InRange (entry dia.S p.1) p.2)
    (hpos : pairs ≠ [] → 0 < dia.eventMass Z pairs) :
    ∃ prior, dia.conditioned Z pairs = .ok prior ∧ (pairs ≠ [] → ∃ r, prior = some r) := by
  induction pairs using List.reverseRecOn with
  | nil => exact ⟨none, rfl, fun hne => absurd rfl hne⟩
  | append_singleton pairs p ih =>
      obtain ⟨k, v⟩ := p
      rw [List.forall_mem_append, List.forall_mem_singleton] at hpairs
      have hlast := hpos (by simp)
      -- what comes before is no less probable
      obtain ⟨prior, hbefore, -⟩ := ih hpairs.1
        fun _ => lt_of_lt_of_le hlast (Diagram.eventMass_append_le h hnonneg pairs (k, v))
      obtain ⟨r, hnext, hr, -⟩ := conditioned_carries h hnonneg hZ hearlier hbefore
      obtain ⟨r', hgiven, -, -⟩ := hr.given_ok h hZ hearlier hpairs.2.1 hpairs.2.2 hlast
      refine ⟨some r', ?_, fun _ => ⟨r', rfl⟩⟩
      rw [conditioned_append_singleton, hbefore]
      show (stateProbabilities dia Z (some k) (some v) prior).map some = _
      rw [hnext, hgiven]
      rfl

omit hearlier hZ h hnonneg in
/-- What a result says, read off what it carries. -/
theorem Carries.spec {pairs : List (Node × State)} {r : StateProbabilities Rat} (hr : Carries dia Z pairs r)
    (hevent : r.event = dia.eventMass Z pairs) :
    r.probs.map List.length = dia.S.map Int.toNat ∧
      (∀ i j, InRange dia.S.length i → InRange (entry dia.S i) j →
        r.prob? i j = some (massThrough dia.prob (dia.eventPaths Z pairs) i j / r.event)) ∧
      ∀ row ∈ r.probs, row.sum = 1 := by
  refine ⟨?_, ?_, ?_⟩
  · rw [hr.probs_eq]
    exact lengths_marginals _ _
  · intro i j hi hj
    rw [StateProbabilities.prob?, hr.probs_eq, nth?_marginals _ _ hi hj, massThrough_div]
  · intro row hrow
    rw [hr.probs_eq] at hrow
    rw [sum_marginals _ (fun s hs => (Diagram.mem_eventPaths.1 hs).1.1) row hrow]
    simp only [div_eq_mul_inv]
    rw [List.sum_map_mul_right, ← Diagram.eventMass, ← hevent, mul_inv_cancel₀ (ne_of_gt hr.event_pos)]

/-- Chains through the same states give the same probabilities. -/
theorem conditioned_congr {pairs pairs' : List (Node × State)} (hsame : ∀ p, p ∈ pairs ↔ p ∈ pairs')
    {r : StateProbabilities Rat} (hrun : dia.conditioned Z pairs = .ok (some r)) :
    ∃ r', dia.conditioned Z pairs' = .ok (some r') ∧ r'.probs = r.probs ∧ r'.event = r.event := by
  obtain ⟨r₁, -, hr, hsome⟩ := conditioned_carries h hnonneg hZ hearlier hrun
  obtain ⟨rfl, hne, hevent⟩ := hsome r rfl
  have hpaths : dia.eventPaths Z pairs = dia.eventPaths Z pairs' := Diagram.eventPaths_congr hsame
  have hmass : dia.eventMass Z pairs' = dia.eventMass Z pairs := by
    rw [Diagram.eventMass, Diagram.eventMass, hpaths]
  have hpairs : ∀ p ∈ pairs', p.1 ∈ dia.indices .chance ∧ InRange (entry dia.S p.1) p.2 := by
    intro p hp
    exact hr.mem_chance p ((hsame p).2 hp)
  have hpos : 0 < dia.eventMass Z pairs' := by
    rw [hmass, ← hevent]
    exact hr.event_pos
  have hne' : pairs' ≠ [] := by
    rintro rfl
    obtain ⟨p, hp⟩ := List.exists_mem_of_ne_nil pairs hne
    exact List.not_mem_nil ((hsame p).1 hp)
  obtain ⟨prior, hrun', hlast⟩ := conditioned_ok h hnonneg hZ hearlier hpairs fun _ => hpos
  obtain ⟨r', rfl⟩ := hlast hne'
  obtain ⟨r₂, -, hr', hsome'⟩ := conditioned_carries h hnonneg hZ hearlier hrun'
  obtain ⟨rfl, -, hevent'⟩ := hsome' r' rfl
  have hsameEvent : r'.event = r.event := by rw [hevent', hmass, hevent]
  refine ⟨r', hrun', ?_, hsameEvent⟩
  rw [hr'.probs_eq, hr.probs_eq, hsameEvent, hpaths]

end Chain

/-! ## The main statement -/

/-- **Chained conditioning.** Let the probability tables of an accepted diagram match its state counts and
have no negative entry, and let decisions observe earlier nodes only. After any chain of fixed states, a
further step fails exactly if its node is no chance node, its state is none of the node's, or the compatible
paths through all states fixed so far, this one included, have probability zero. Otherwise the event has the
probability of these paths, each state that of the paths through it divided by the event, and the
probabilities of the states of a node sum up to one. Hence neither the order nor the repetition of the
states shows in the result. -/
theorem conditioning_chained {dia : Diagram Rat} (h : dia.Tabulated) (hnonneg : dia.NonnegTables)
    {Z : Strategy} (hZ : Z.Fits dia) (hearlier : ∀ d ∈ dia.D, ∀ i ∈ d.info, i < d.index) :
    (∀ pairs prior, dia.conditioned Z pairs = .ok prior → ∀ k v,
      ((∃ reason, stateProbabilities dia Z (some k) (some v) prior = .error (.invalidFixedState k reason)) ↔
        k ∉ dia.indices .chance ∨ ¬InRange (entry dia.S k) v ∨ dia.eventMass Z (pairs ++ [(k, v)]) = 0) ∧
      (k ∈ dia.indices .chance → InRange (entry dia.S k) v → dia.eventMass Z (pairs ++ [(k, v)]) ≠ 0 →
        ∃ r, stateProbabilities dia Z (some k) (some v) prior = .ok r ∧
          r.event = dia.eventMass Z (pairs ++ [(k, v)]) ∧
          r.probs.map List.length = dia.S.map Int.toNat ∧
          (∀ i j, InRange dia.S.length i → InRange (entry dia.S i) j → r.prob? i j =
            some (massThrough dia.prob (dia.eventPaths Z (pairs ++ [(k, v)])) i j / r.event)) ∧
          ∀ row ∈ r.probs, row.sum = 1)) ∧
    ∀ pairs pairs' r, (∀ p, p ∈ pairs ↔ p ∈ pairs') → dia.conditioned Z pairs = .ok (some r) →
      ∃ r', dia.conditioned Z pairs' = .ok (some r') ∧ r'.probs = r.probs ∧ r'.event = r.event := by
  constructor
  · intro pairs prior hrun k v
    obtain ⟨r, hnext, hr, -⟩ := conditioned_carries h hnonneg hZ hearlier hrun
    rw [hnext]
    rcases hr.given_spec h hnonneg hZ hearlier k v with
      ⟨hbad, hgiven⟩ | ⟨⟨hk, hv, hpos⟩, r', hgiven, hr', hevent⟩
    · refine ⟨iff_of_true hgiven hbad, ?_⟩
      intro hk hv hne
      rcases hbad with hno | hno | hzero
      · exact absurd hk hno
      · exact absurd hv hno
      · exact absurd hzero hne
    · refine ⟨iff_of_false ?_ ?_, fun _ _ _ => ⟨r', hgiven, hevent, hr'.spec hevent⟩⟩
      · rintro ⟨reason, hfail⟩
        rw [hgiven] at hfail
        cases hfail
      · rintro (hno | hno | hzero)
        · exact hno hk
        · exact hno hv
        · exact ne_of_gt hpos hzero
  · intro pairs pairs' r hsame hrun
    exact conditioned_congr h hnonneg hZ hearlier hsame hrun

/-- Rain is forecast, and then it rains: the two orders agree. Once rain is forecast, no other forecast can be
fixed. -/
theorem conditioning_chained_umbrella :
    ∃ r r', umbrella.conditioned umbrellaStrategy [(1, 1)] = .ok (some r) ∧
      stateProbabilities umbrella umbrellaStrategy (some 0) (some 1) (some r) = .ok r' ∧ r'.event = 3 / 16 ∧
      (∀ row ∈ r'.probs, row.sum = 1) ∧
      (∃ reason, stateProbabilities umbrella umbrellaStrategy (some 1) (some 0) (some r) =
        .error (.invalidFixedState 1 reason)) ∧
      ∃ r'', umbrella.conditioned umbrellaStrategy [(0, 1), (1, 1)] = .ok (some r'') ∧ r''.probs = r'.probs := by
  have hnonneg : umbrella.NonnegTables := by
    rintro P ⟨⟩
    decide +kernel
  obtain ⟨hstep, hsame⟩ :=
    conditioning_chained umbrella_wellFormed.tabulated hnonneg umbrellaStrategy_fits (by decide)
  obtain ⟨r, hr, -⟩ := (hstep [] none rfl 1 1).2 (by decide) (by decide) (by decide +kernel)
  have hrun : umbrella.conditioned umbrellaStrategy [(1, 1)] = .ok (some r) := by
    rw [Diagram.conditioned, List.foldlM_cons, hr]
    rfl
  obtain ⟨r', hr', hevent, -, -, hsums⟩ :=
    (hstep [(1, 1)] (some r) hrun 0 1).2 (by decide) (by decide) (by decide +kernel)
  have hrun' : umbrella.conditioned umbrellaStrategy [(1, 1), (0, 1)] = .ok (some r') := by
    rw [← List.singleton_append, conditioned_append_singleton, hrun]
    show (stateProbabilities umbrella umbrellaStrategy (some 0) (some 1) (some r)).map some = _
    rw [hr']
    rfl
  obtain ⟨r'', hrun'', hprobs, -⟩ := hsame [(1, 1), (0, 1)] [(0, 1), (1, 1)] r' (by simp [or_comm]) hrun'
  exact ⟨r, r', hrun, hr', hevent.trans (by decide +kernel), hsums,
    (hstep [(1, 1)] (some r) hrun 1 0).1.2 (Or.inr (Or.inr (by decide +kernel))), r'', hrun'', hprobs⟩

end InfluenceDiagrams
