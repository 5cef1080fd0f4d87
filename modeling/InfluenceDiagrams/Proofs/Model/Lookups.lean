import InfluenceDiagrams.Proofs.Analysis.Lookups
import InfluenceDiagrams.Proofs.Model.Extraction
import InfluenceDiagrams.Proofs.Model.Faults

/-!
# `InfluenceDiagrams.Proofs.Model.Lookups` — building a model never looks beside a table

All paths of a model are paths of the state space: they are listed, and neither the rules nor the probabilities add any.
So rules and tables are looked up in range, the paths that lead through a decision have variables, and the constraint of
an information state finds the variables of all its decisions. A step can still have a fault, but it is that of a number
or a name, or of a request that is refused.

Together with the paths of a strategy this says that nothing is ever looked up in vain, whatever the decisions observe,
and whatever the numbers are.

## Contents
- **`Fault.OfLookup`** — something was looked up in vain.
- **`KeysPresent`** — what the constraints of a model look up is there.
- **`Dimensioned.pathVariables_gives`, `Dimensioned.assemble_gives`** — building.
- **`Dimensioned.expectedValue_yields`, `Dimensioned.tailValue_gives`** — objectives.
- **`lookups_succeed`** — the main statement.
-/

namespace InfluenceDiagrams

variable {α : Type}

/-! ## Looking up in vain -/

/-- A position is out of range, a key is missing, or an index does not select one entry. -/
def Fault.OfLookup : Fault α → Prop
  | .outOfRange | .missingKey | .emptyExtremum | .dimensionsLeft | .shapeMismatch | .unknownNode _
  | .noLocalStrategy _ | .notInCandidate _ | .unnamedVariable => True
  | _ => False

theorem Fault.OfNumber.not_ofLookup {f : Fault α} (h : f.OfNumber) : ¬f.OfLookup := by
  cases f <;> first | exact not_false | exact h.elim

theorem Fault.OfLength.not_ofLookup {f : Fault α} (h : f.OfLength) : ¬f.OfLookup := by
  cases f <;> first | exact not_false | exact h.elim

theorem Fault.OfProgram.not_ofLookup {f : Fault α} (h : f.OfProgram) : ¬f.OfLookup := by
  rcases h with h | ⟨name, rfl⟩
  · exact h.not_ofLookup
  · exact not_false

/-- What the constraints of a model look up is there: members have paths in space, the decisions of an information
state have variables, and so have the paths that lead through a decision. -/
structure KeysPresent (dia : Diagram α) (z : List (DecisionVariables α)) (x : PathVariables α) : Prop where
  inSpace : ∀ m ∈ x.members, InSpace dia.S m.path
  decisions : ∀ b ∈ z, ∀ info ∈ paths b.shape.dropLast .empty, ∀ k ∈ statesBelow (b.shape.getLast?.getD 0),
    info ++ [k] ∈ b.z.map Prod.fst
  groups : ∀ b ∈ z, ∃ groups, groupBy? x.paths (b.node.info ++ [b.node.index]) = some groups ∧
    ∀ index group, Keyed.find? index groups = some group → ∀ s ∈ group, ∃ m, x.find? s = some m

namespace Diagram.Dimensioned

variable [Scalar α] {dia : Diagram α} {rules : List ForbiddenRule} {fixed : FixedStates}

/-! ## Building -/

/-- The paths with variables are found unless there are too many to list. -/
theorem members_yields [Lengths] (h : dia.Dimensioned) (hrules : RulesWithin rules dia.S) (hfixed : fixed.Within dia.S) :
    Yields (members dia rules fixed) (fun ms => ∀ m ∈ ms, InSpace dia.S m.1) Fault.OfLength := by
  obtain ⟨P, hP, -⟩ := h.probability
  have hin : ∀ s ∈ paths dia.S fixed, InSpace dia.S s := fun s hs => ((mem_paths_iff hfixed).1 hs).1
  have hfound : Yields (members dia rules fixed) (fun _ => True) Fault.OfLength := by
    unfold members
    refine (listPaths_yields dia.S fixed).bind fun ss hss => ?_
    subst hss
    refine Yields.bind (p := fun _ => True) ?_ fun _ _ => trivial
    refine (Yields.mapM (p := fun _ _ => True) fun s hs => ?_).mono (fun _ _ _ => trivial) fun _ hf => hf
    obtain ⟨hit, hhit⟩ := rulesDecide_of_within hrules hfixed s hs
    obtain ⟨p, hp⟩ := h.valued.probability s (hin s hs)
    unfold memberProb
    rw [hhit, hp]
    cases hit <;> trivial
  refine (hfound.and (InfluenceDiagrams.members_yields hP rules fixed)).mono (fun ms _ hms m hm => ?_)
    fun _ hf => hf.1
  exact hin _ (hms.2.subset (List.mem_map_of_mem hm))

omit [Scalar α] in
/-- States are looked up for the strategy constraints of a decision node, and found. -/
theorem scope_inRange (h : dia.Dimensioned) {s : Path} (hs : InSpace dia.S s) {d : InfoNode} (hd : d ∈ dia.D) :
    ∀ k ∈ d.scope, InRange s.length k := by
  intro k hk
  rw [hs.length_eq]
  exact h.accepted.scope_inRange (List.mem_append_right _ hd) k hk

theorem pathVariables_gives [Lengths] (h : dia.Dimensioned) {z : List (DecisionVariables α)}
    (hz : ∀ b ∈ z, b.node ∈ dia.D) (hrules : RulesWithin rules dia.S) (hfixed : fixed.Within dia.S) (eager : Bool) (scale : α) :
    (pathVariables dia z rules fixed eager scale).Gives (fun x => ∀ m ∈ x.members, InSpace dia.S m.path)
      (¬·.OfLookup) := by
  have hindices : ∀ d ∈ dia.D, InRange dia.S.length d.index :=
    fun d hd => h.accepted.index_inRange (List.mem_append_right _ hd)
  rw [pathVariables_eq]
  refine Build.Gives.lift_bind ((checkScale_yields scale).mono (fun _ _ _ => trivial) fun f hf => ?_) fun _ _ => ?_
  · rw [hf]
    exact not_false
  extract_lets afterNotice
  have hafter : ∀ u, (afterNotice u).Gives (fun x => ∀ m ∈ x.members, InSpace dia.S m.path) (¬·.OfLookup) := by
    intro u
    have hcheck : Yields (checkFixedStates (α := α) dia.S fixed.pairs) (fun _ => True) (¬·.OfLookup) :=
      Yields.of_eq_ok (checkFixedStates_eq_ok hfixed) trivial
    refine Build.Gives.lift_bind hcheck fun _ _ => ?_
    refine Build.Gives.lift_bind ((h.members_yields hrules hfixed).mono (fun _ _ hms => hms)
      fun _ hf => hf.not_ofLookup) fun ms hms => ?_
    have hspace : ∀ s ∈ ms.map Prod.fst, InSpace dia.S s := List.forall_mem_map.2 hms
    refine (linkPaths_gives dia z fixed eager scale ms).mono (fun x hx m hm => ?_) fun f hf => ?_
    · obtain ⟨family, rfl⟩ := hx
      obtain ⟨p, hp, rfl⟩ := List.mem_map.1 hm
      exact hms p hp
    · rcases hf with hf | ⟨-, hrange⟩
      · exact hf.not_ofLookup
      · exact absurd ⟨hindices, fun b hb s hs => h.scope_inRange (hspace s hs) (hz b hb)⟩ hrange
  split
  · exact Build.Gives.bind (p := fun _ => True) (fun _ _ => trivial) fun u _ => hafter u
  · exact hafter ()

omit [Scalar α] in
/-- Members of a group have variables. -/
theorem groups_spec (h : dia.Dimensioned) {x : PathVariables α} (hx : ∀ m ∈ x.members, InSpace dia.S m.path)
    {d : InfoNode} (hd : d ∈ dia.D) : ∃ groups, groupBy? x.paths (d.info ++ [d.index]) = some groups ∧
      ∀ index group, Keyed.find? index groups = some group → ∀ s ∈ group, ∃ m, x.find? s = some m := by
  have hrange : ∀ s ∈ x.paths, ∀ k ∈ d.info ++ [d.index], InRange s.length k :=
    List.forall_mem_map.2 fun m hm => h.scope_inRange (hx m hm) hd
  obtain ⟨groups, hgroups, hfind⟩ := groupBy?_spec hrange
  refine ⟨groups, hgroups, fun index group hgroup s hs => ?_⟩
  rw [hfind index] at hgroup
  split at hgroup
  · cases hgroup
  · obtain rfl := Option.some.inj hgroup
    obtain ⟨m, hm, rfl⟩ := List.mem_map.1 (List.mem_filter.1 hs).1
    have hsome : (x.find? m.path).isSome = true := by
      rw [PathVariables.find?, List.find?_isSome]
      exact ⟨m, hm, beq_self_eq_true _⟩
    exact Option.isSome_iff_exists.1 hsome

/-- A model is built without looking up anything in vain, and all keys of its constraints are present. -/
theorem assemble_gives [Lengths] (h : dia.Dimensioned) (hrules : RulesWithin rules dia.S) (hfixed : fixed.Within dia.S)
    (options : ModelOptions α) :
    (assemble dia options rules fixed).Gives (fun b => KeysPresent dia b.1 b.2) (¬·.OfLookup) := by
  unfold assemble
  have hvariables : (decisionVariables dia).Gives (fun z => ∃ family, z = dia.D.map (dia.nodeBlock family))
      (¬·.OfLookup) := by
    refine (decisionVariables_gives h.accepted).mono (fun _ hz => hz) fun f hf => ?_
    rcases hf with hf | ⟨name, rfl⟩
    · exact hf.not_ofLookup
    · exact not_false
  refine hvariables.bind fun z hz => ?_
  have hblock : ∀ b ∈ z, ∃ d ∈ dia.D, ∃ family, dia.nodeBlock family d = b := by
    obtain ⟨family, rfl⟩ := hz
    intro b hb
    obtain ⟨d, hd, hdb⟩ := List.mem_map.1 hb
    exact ⟨d, hd, family, hdb⟩
  have hnode : ∀ b ∈ z, b.node ∈ dia.D := by
    intro b hb
    obtain ⟨d, hd, family, rfl⟩ := hblock b hb
    exact hd
  refine (h.pathVariables_gives hnode hrules hfixed _ _).bind fun x hx => ?_
  have hkeys : KeysPresent dia z x := by
    constructor
    case inSpace => exact hx
    case groups => exact fun b hb => h.groups_spec hx (hnode b hb)
    case decisions =>
      intro b hb info hinfo k hk
      obtain ⟨d, -, family, rfl⟩ := hblock b hb
      have hkeys : (dia.nodeBlock family d).z.map Prod.fst = paths (nodeShape dia.S d) .empty := by
        rw [nodeBlock, List.map_map]
        exact List.map_id _
      change info ∈ paths (nodeShape dia.S d).dropLast .empty at hinfo
      change k ∈ statesBelow ((nodeShape dia.S d).getLast?.getD 0) at hk
      rw [dropLast_nodeShape] at hinfo
      rw [getLast?_nodeShape] at hk
      rw [hkeys]
      exact Diagram.mem_nodeShape_paths.2 ⟨hinfo, mem_statesBelow.1 hk⟩
  split
  · exact Build.Gives.bind (p := fun _ => True) (fun _ _ => trivial) fun _ _ => Build.Gives.pure hkeys
  · exact Build.Gives.pure hkeys

/-! ## Objectives -/

theorem expectedValue_yields (h : dia.Dimensioned) {x : PathVariables α} (hx : ∀ m ∈ x.members, InSpace dia.S m.path)
    (scale : α) : Yields (expectedValue dia x scale) (fun _ => True) (¬·.OfLookup) := by
  unfold expectedValue
  refine ((checkScale_yields scale).mono (fun _ _ _ => trivial) fun f hf => ?_).bind fun _ _ => ?_
  · rw [hf]
    exact not_false
  refine ((Yields.mapM (p := fun _ _ => True) fun m hm => ?_).mono (fun _ _ _ => trivial) fun _ hf => hf).map
  obtain ⟨u, hu⟩ := h.valued.utility m.path (hx m hm)
  rw [valueTerm, hu]
  exact (multiple_yields _ m.var).mono (fun _ _ _ => trivial) fun _ hf => hf.not_ofLookup

omit [Scalar α] in
theorem require_yields (b : Bool) (f : Fault α) :
    Yields (if b then .ok () else .error f) (fun _ => b = true) (· = f) := by
  cases b <;> exact rfl

/-- Utilities have levels unless there are none. -/
theorem ofUtilities?_isSome {us : List α} (hne : us ≠ []) : ∃ l, TailLevels.ofUtilities? us = some l := by
  let sorted := ascending (fun a b => decide (a < b)) (fun a => a == a) us.eraseDups
  have hsorted : sorted ≠ [] := by
    obtain ⟨u, us, rfl⟩ := List.exists_cons_of_ne_nil hne
    intro hnil
    have hlen := (ascending_perm (fun a b => decide (a < b)) (fun a => a == a) (u :: us).eraseDups).length_eq
    rw [show ascending _ _ _ = [] from hnil, List.eraseDups_cons] at hlen
    cases hlen
  unfold TailLevels.ofUtilities?
  change ∃ l, (sorted.head?.bind fun least => sorted.getLast?.map fun greatest => _) = some l
  rw [List.head?_eq_some_head hsorted, List.getLast?_eq_some_getLast hsorted]
  exact ⟨_, rfl⟩

theorem tailValue_gives (h : dia.Dimensioned) {x : PathVariables α} (hx : ∀ m ∈ x.members, InSpace dia.S m.path)
    (alpha scale : α) : (tailValue dia x alpha scale).Gives (fun _ => True) (¬·.OfLookup) := by
  have hutilities : Yields (utilities dia x.members) (fun us => us.length = x.members.length) (¬·.OfLookup) := by
    refine (Yields.mapM (p := fun _ _ => True) fun m hm => ?_).mono (fun _ _ hus => hus.length_eq.symm) fun _ hf => hf
    obtain ⟨u, hu⟩ := h.valued.utility m.path (hx m hm)
    exact Yields.of_eq_ok hu trivial
  rw [tailValue_eq]
  refine Build.Gives.lift_bind ((checkScale_yields scale).mono (fun _ _ hp => hp) fun f hf => ?_) fun _ _ => ?_
  · rw [hf]
    exact not_false
  refine Build.Gives.lift_bind ((require_yields _ _).mono (fun _ _ hp => hp) fun f hf => ?_) fun _ _ => ?_
  · rw [hf]
    exact not_false
  refine Build.Gives.lift_bind ((require_yields _ _).mono (fun _ _ hp => hp) fun f hf => ?_) fun _ hmembers => ?_
  · rw [hf]
    exact not_false
  refine Build.Gives.lift_bind hutilities fun us hus => ?_
  -- there is a member, so there is a least and a greatest utility
  have hne : us ≠ [] := by
    rintro rfl
    rw [List.length_eq_zero_iff.1 hus.symm] at hmembers
    cases hmembers
  obtain ⟨l, hl⟩ := ofUtilities?_isSome hne
  refine Build.Gives.lift_bind (p := fun _ => True) (by rw [hl]; trivial) fun l _ => ?_
  exact (addTail_gives x alpha scale us l).mono (fun _ hp => hp) fun _ hf => hf.not_ofLookup

end Diagram.Dimensioned

/-! ## The main statement -/

/-- **Looking up.** Let an accepted diagram have a state for every node and tables with the dimensions of their nodes,
and a strategy one local strategy of matching dimensions for every decision node; what decisions observe does not
matter. Let fixed states and rules name nodes of the state space, and fixed states be states of their nodes. A path in
space has a probability and a utility, is forbidden or not, and a decision is selected at every decision node, which is
one of its states. The paths of the strategy are in space, and going through them for a list, an expected utility, a
distribution or state probabilities fails only where a list would be too long. Building a model never fails because
something is looked up in vain, and neither do the objectives of a model that was built. -/
theorem lookups_succeed [Lengths] [Scalar α] {dia : Diagram α} (h : dia.Dimensioned) {Z : Strategy} (hZ : Z.Fits dia)
    {rules : List ForbiddenRule} (hrules : RulesWithin rules dia.S) {fixed : FixedStates} (hfixed : fixed.Within dia.S) :
    (∀ s, InSpace dia.S s → (∃ p, dia.P.eval s = .ok p) ∧ (∃ u, dia.U.eval s = .ok u) ∧
      (∃ hit, isForbidden? s rules = some hit) ∧
      ∀ d ∈ dia.D, ∃ k, subPath? s d.info = some (d.info.map (entry s)) ∧
        Z.choose d.index (d.info.map (entry s)) = (.ok k : Except (Fault α) State) ∧
        InRange (entry dia.S d.index) k) ∧
    (fixed.OnChance dia → ∃ cp ss, CompatiblePaths.ofDiagram dia Z fixed = .ok cp ∧
      Yields (cp.checkFree (α := α)) (fun _ => True) Fault.OfLength ∧
      cp.toList (α := α) = cp.checkFree.map (fun _ => ss) ∧ ∀ s ∈ ss, InSpace dia.S s) ∧
    (∃ cp, CompatiblePaths.ofDiagram dia Z .empty = .ok cp ∧
      Yields (cp.checkFree (α := α)) (fun _ => True) Fault.OfLength ∧
      Yields (dia.S.mapM (zeros (α := α))) (fun _ => True) Fault.OfLength ∧
      (∃ u, expectedUtility dia Z = cp.checkFree.map fun _ => u) ∧
      (∃ dist, utilityDistribution dia Z = cp.checkFree.map fun _ => dist) ∧
      ∃ probs, stateProbabilities dia Z none none none =
        (dia.S.mapM zeros).bind fun _ => cp.checkFree.map fun _ => probs) ∧
    ∀ options, (assemble dia options rules fixed).Gives
      (fun b => KeysPresent dia b.1 b.2 ∧
        (∀ scale, Yields (expectedValue dia b.2 scale) (fun _ => True) (¬·.OfLookup)) ∧
        ∀ alpha scale, (tailValue dia b.2 alpha scale).Gives (fun _ => True) (¬·.OfLookup)) (¬·.OfLookup) := by
  refine ⟨fun s hs => ⟨h.valued.probability s hs, h.valued.utility s hs, ?_, fun d hd => ?_⟩, fun hchance => ?_, ?_,
    fun options => ?_⟩
  · exact Diagram.rulesDecide_of_within hrules (FixedStates.within_empty dia.S) s (mem_paths_empty.2 hs)
  · obtain ⟨k, hk, hkr⟩ := hZ.choose_spec h.accepted h.counts_pos hd hs
    exact ⟨k, hs.subPath? (h.accepted.info_inRange_of_mem (List.mem_append_right _ hd)), hk, hkr⟩
  · have hrun := CompatiblePaths.arranged_runnable h.accepted h.counts_pos hZ hchance
    obtain ⟨ss, hss, -, hall⟩ := hrun.toList_spec (α := α)
    exact ⟨_, ss, CompatiblePaths.ofDiagram_eq h.accepted hchance, CompatiblePaths.checkFree_yields _, hss, hall⟩
  · refine ⟨_, CompatiblePaths.ofDiagram_eq h.accepted (FixedStates.onChance_empty dia),
      CompatiblePaths.checkFree_yields _, ?_, h.valued.expectedUtility_spec h.counts_pos hZ,
      h.utilityDistribution_spec hZ, h.stateProbabilities_spec hZ⟩
    exact (mapM_zeros_yields dia.S).mono (fun _ _ _ => trivial) fun _ hf => hf
  · refine (h.assemble_gives hrules hfixed options).mono (fun b hkeys => ⟨hkeys, fun scale => ?_, fun alpha scale => ?_⟩)
      fun _ hf => hf
    · exact h.expectedValue_yields hkeys.inSpace scale
    · exact h.tailValue_gives hkeys.inSpace alpha scale

/-- A coin, and a habit that looks at itself: what was done last time is done again after heads, and the other thing
after tails. -/
def habit : Diagram Rat where
  S := [2, 2]
  C := [⟨0, []⟩]
  D := [⟨1, [1, 0]⟩]
  V := [⟨2, [1]⟩]
  P := .tables ⟨[(⟨0, []⟩, ⟨[2], [1/2, 1/2], Eq.refl 2⟩)]⟩
  U := .tables [(⟨2, [1]⟩, ⟨[2], [0, 1], rfl⟩)] 0

/-- The habit, with the state of the path before in the first dimension. -/
def habitStrategy : Strategy :=
  ⟨[⟨⟨1, [1, 0]⟩, ⟨[2, 2, 2], [true, false, false, true, false, true, true, false], by decide⟩⟩]⟩

theorem habit_dimensioned : habit.Dimensioned where
  accepted := Diagram.accepted_iff.2 (by decide)
  counts_pos := by decide
  probability := ⟨_, rfl, by decide, by decide⟩
  utility := ⟨rfl, by decide⟩

theorem habitStrategy_fits : habitStrategy.Fits habit where
  nodes := by decide
  parts := by
    intro z hz
    rw [List.mem_singleton.1 hz]
    exact ⟨by decide, by decide⟩

/-- The habit has an expected utility although it looks at what was done for the path before, and the model in which it
must not be given up after heads is built without looking up anything in vain. -/
theorem lookups_succeed_habit :
    (∃ u, expectedUtility habit habitStrategy = .ok u) ∧
      (assemble habit .default [⟨[0, 1], [[0, 1]]⟩] .empty).Gives (fun b => KeysPresent habit b.1 b.2)
        (¬·.OfLookup) := by
  have hrules : RulesWithin [⟨[0, 1], [[0, 1]]⟩] habit.S := by
    unfold RulesWithin
    decide
  obtain ⟨-, -, ⟨cp, hcp, -, -, ⟨u, hu⟩, -⟩, hmodel⟩ :=
    lookups_succeed habit_dimensioned habitStrategy_fits hrules (FixedStates.within_empty _)
  refine ⟨⟨u, ?_⟩, (hmodel .default).mono (fun b hb => hb.1) fun _ hf => hf⟩
  rw [hu]
  change Except.map _ (checkCounts .empty 0 _) = _
  rw [checkCounts_ok .empty fun _ _ => rfl]
  rfl

end InfluenceDiagrams
