import InfluenceDiagrams.Proofs.Model.Links
import InfluenceDiagrams.Proofs.Strategy.CompatibleOrder

/-!
# `InfluenceDiagrams.Proofs.Model.Membership` — which paths have a variable

The paths with variables are found without going through the whole state space: a fixed node only takes its fixed state.
Nothing is lost that way, and nothing comes in another order. Both lists of paths ascend, so that they are equal as soon
as they have the same entries, and the entries of both are the paths in space with the fixed states. What is left is to
look at rules and probabilities one path at a time.

## Contents
- **`FixedStates.agrees_iff`, `FixedStates.agreesWith?_eq`** — paths that agree with fixed states.
- **`paths_eq_filter`** — the paths over smaller domains.
- **`eligiblePaths`**, **`members_eligible`, `pathVariables_eligible`** — the paths with variables.
- **`eligiblePaths_eq_iff`, `eligiblePaths_positive_iff`** — when those are the paths of positive probability.
- **`pathVariables_members`** — the main statement.
-/

namespace InfluenceDiagrams

/-! ## Fixed states -/

/-- If every key is there once, the value at a key is the one that stands with it. -/
theorem Keyed.find?_eq_some_iff {κ β : Type} [BEq κ] [LawfulBEq κ] {pairs : List (κ × β)} {key : κ} {b : β}
    (h : (pairs.map Prod.fst).Nodup) : Keyed.find? key pairs = some b ↔ (key, b) ∈ pairs := by
  induction pairs with
  | nil => simp [find?]
  | cons p pairs ih =>
      obtain ⟨k, c⟩ := p
      rw [List.map_cons, List.nodup_cons] at h
      rw [find?, List.mem_cons, Prod.mk.injEq]
      by_cases hk : k = key
      · subst hk
        -- the key does not come again
        have hlater : (k, b) ∉ pairs := fun hmem => h.1 (List.mem_map.2 ⟨_, hmem, rfl⟩)
        rw [if_pos (beq_self_eq_true k), Option.some.injEq, or_iff_left hlater]
        exact ⟨fun heq => ⟨rfl, heq.symm⟩, fun heq => heq.2.symm⟩
      · rw [if_neg (by rwa [beq_iff_eq]), ih h.2, or_iff_right fun heq => hk heq.1.symm]

namespace FixedStates

variable {fixed : FixedStates} {S : StateCounts} {s : Path}

theorem agrees_iff (hdistinct : (fixed.pairs.map Prod.fst).Nodup) :
    fixed.Agrees s ↔ ∀ p ∈ fixed.pairs, entry s p.1 = p.2 := by
  constructor
  · intro h p hp
    exact h p.1 p.2 ((Keyed.find?_eq_some_iff hdistinct).2 hp)
  · intro h k v hv
    exact h _ ((Keyed.find?_eq_some_iff hdistinct).1 hv)

/-- Fixed nodes of the state space are looked up, and compared one after the other. -/
theorem agreesWith?_eq (hfixed : fixed.Within S) (hs : InSpace S s) :
    agreesWith? s fixed = some (decide (∀ p ∈ fixed.pairs, entry s p.1 = p.2)) := by
  obtain ⟨pairs⟩ := fixed
  change agreesWith?.go s pairs = some (decide (∀ p ∈ pairs, entry s p.1 = p.2))
  induction pairs with
  | nil => rfl
  | cons p pairs ih =>
      obtain ⟨k, v⟩ := p
      obtain ⟨hp, hpairs⟩ := List.forall_mem_cons.1 hfixed
      rw [agreesWith?.go, hs.nth? hp.1, Option.bind_some, ih hpairs]
      by_cases heq : entry s k = v <;> simp [heq]

end FixedStates

/-- **Domains.** The paths over the state space in which a fixed node has its fixed state only are all paths without
those that do not agree with the fixed states. -/
theorem paths_eq_filter {S : StateCounts} {fixed : FixedStates} (hfixed : fixed.Within S)
    (hdistinct : (fixed.pairs.map Prod.fst).Nodup) :
    paths S fixed = (paths S .empty).filter fun s => agreesWith? s fixed == some true := by
  refine CompatiblePaths.eq_filter_of_sorted (paths_sorted S fixed) fun s => ?_
  rw [mem_paths_iff hfixed, mem_paths_empty, FixedStates.agrees_iff hdistinct]
  refine and_congr_right fun hs => ?_
  rw [FixedStates.agreesWith?_eq hfixed hs, beq_iff_eq, Option.some.injEq, decide_eq_true_eq]

/-! ## Members -/

section Members

variable {α : Type} [Scalar α]

/-- The paths over the whole state space that agree with fixed states, do not match all rules, unless there is none, and
whose probability passes a test. -/
def eligiblePaths (S : StateCounts) (rules : List ForbiddenRule) (fixed : FixedStates) (passes : Path → Bool) :
    List Path :=
  (paths S .empty).filter fun s => agreesWith? s fixed == some true &&
    (rules.isEmpty || !rules.all fun rule => rule.values.contains (rule.nodes.map (entry s))) && passes s

variable {dia : Diagram α} {p : Path → α} {rules : List ForbiddenRule} {fixed : FixedStates}

/-- What is found when paths with variables are looked for. -/
theorem members_eligible [Lengths] (hprob : ∀ s, InSpace dia.S s → dia.P.eval s = .ok (p s))
    (hrules : RulesWithin rules dia.S) (hfixed : fixed.Within dia.S) (hdistinct : (fixed.pairs.map Prod.fst).Nodup)
    {ms : List (Path × α)} (hms : members dia rules fixed = .ok ms) :
    ms = (eligiblePaths dia.S rules fixed fun s => !decide (p s ≤ 0)).map fun s => (s, p s) := by
  rw [Diagram.members_eq_filter hprob (Diagram.rulesDecide_of_within hrules hfixed) hfixed] at hms
  cases hlist : listPaths (α := α) dia.S fixed with
  | error f =>
      rw [hlist] at hms
      cases hms
  | ok ss =>
      obtain rfl := (listPaths_yields dia.S fixed).of_ok hlist
      rw [hlist] at hms
      rw [← Except.ok.inj hms, eligiblePaths]
      dsimp only
      rw [paths_eq_filter hfixed hdistinct, List.filter_filter]
      congr 1
      refine List.filter_congr fun s hs => ?_
      -- a path is not forbidden if there are no rules, or it does not match one of them
      rw [Diagram.isForbidden?_eq (mem_paths_empty.1 hs) hrules]
      cases agreesWith? s fixed == some true <;> cases rules.isEmpty <;>
        cases rules.all fun rule => rule.values.contains (rule.nodes.map (entry s)) <;> simp

/-- What the path variables are when they have been created. -/
theorem pathVariables_eligible [Lengths] (hprob : ∀ s, InSpace dia.S s → dia.P.eval s = .ok (p s))
    (hrules : RulesWithin rules dia.S) (hfixed : fixed.Within dia.S) (hdistinct : (fixed.pairs.map Prod.fst).Nodup)
    {z : List (DecisionVariables α)} {eager : Bool} {scale : α} {w v : Workspace α} {x : PathVariables α}
    (hrun : (pathVariables dia z rules fixed eager scale).runOn w = (.ok x, v)) :
    x.members.map (fun m => (m.path, m.prob)) =
      (eligiblePaths dia.S rules fixed fun s => !decide (p s ≤ 0)).map fun s => (s, p s) := by
  obtain ⟨ms, u, -, hms, -, hlink⟩ := pathVariables_ok hrun
  obtain ⟨family, rfl⟩ := (linkPaths_gives dia z fixed eager scale ms).of_ok trivial hlink
  rw [← members_eligible hprob hrules hfixed hdistinct hms, pathsIn, List.map_map]
  exact List.map_id _

theorem mem_eligiblePaths {S : StateCounts} {passes : Path → Bool} {s : Path} :
    s ∈ eligiblePaths S rules fixed passes ↔ s ∈ eligiblePaths S rules fixed (fun _ => true) ∧ passes s = true := by
  simp only [eligiblePaths, List.mem_filter, Bool.and_eq_true, and_true, and_assoc]

/-- Two tests leave the same paths exactly if they agree on all paths that are left without a test. -/
theorem eligiblePaths_eq_iff {S : StateCounts} {passes passes' : Path → Bool} :
    eligiblePaths S rules fixed passes = eligiblePaths S rules fixed passes' ↔
      ∀ s ∈ eligiblePaths S rules fixed fun _ => true, passes s = passes' s := by
  constructor
  · intro h s hs
    have hleft : s ∈ eligiblePaths S rules fixed passes ↔ _ := mem_eligiblePaths
    have hright : s ∈ eligiblePaths S rules fixed passes' ↔ _ := mem_eligiblePaths
    rw [h, and_iff_right hs] at hleft
    rw [and_iff_right hs] at hright
    exact Bool.eq_iff_iff.2 (hleft.symm.trans hright)
  · intro h
    refine List.filter_congr fun s hs => ?_
    cases hfree : agreesWith? s fixed == some true &&
        (rules.isEmpty || !rules.all fun rule => rule.values.contains (rule.nodes.map (entry s))) with
    | false => rw [Bool.false_and, Bool.false_and]
    | true => rw [h s (List.mem_filter.2 ⟨hs, by rw [hfree, Bool.and_true]⟩)]

/-- Those whose probability is not zero or less are the ones of positive probability exactly if probabilities compare
with zero as numbers do. -/
theorem eligiblePaths_positive_iff {S : StateCounts} :
    ((eligiblePaths S rules fixed fun s => !decide (p s ≤ 0)).map fun s => (s, p s)) =
        (eligiblePaths S rules fixed fun s => decide (0 < p s)).map (fun s => (s, p s)) ↔
      ∀ s ∈ eligiblePaths S rules fixed fun _ => true, (0 < p s ↔ ¬p s ≤ 0) := by
  have hinj : Function.Injective fun s => (s, p s) := fun _ _ h => congrArg Prod.fst h
  rw [(List.map_injective_iff.2 hinj).eq_iff, eligiblePaths_eq_iff]
  refine forall₂_congr fun s _ => ?_
  rw [← decide_not, decide_eq_decide]
  exact Iff.comm

end Members

/-! ## The main statement -/

/-- **Members.** Let fixed states be fixed once, and be states of their nodes, let rules name nodes of the state space,
and let every path in space have a probability. The paths that are gone through are all paths without those that do not
agree with the fixed states, in the same order. Where the path variables have been created, their paths are, in order,
the paths over the whole state space that agree with the fixed states, do not match all rules, unless there is none, and
have a probability that is not zero or less, and each is stored with its probability. These are the paths of positive
probability exactly if the probabilities of all that agree and do not match compare with zero as numbers do. In exact
arithmetic they do, and the variables of an accepted diagram with a state for every node can be created in an empty
model. -/
theorem pathVariables_members {rules : List ForbiddenRule} {fixed : FixedStates}
    (hdistinct : (fixed.pairs.map Prod.fst).Nodup) :
    (∀ {α : Type} [Scalar α] [Lengths] {dia : Diagram α} {p : Path → α},
      (∀ s, InSpace dia.S s → dia.P.eval s = .ok (p s)) → RulesWithin rules dia.S → fixed.Within dia.S →
        paths dia.S fixed = (paths dia.S .empty).filter (fun s => agreesWith? s fixed == some true) ∧
        ∀ (z : List (DecisionVariables α)) (eager : Bool) (scale : α) (w v : Workspace α) (x : PathVariables α),
          (pathVariables dia z rules fixed eager scale).runOn w = (.ok x, v) →
          x.members.map (fun m => (m.path, m.prob)) =
            (eligiblePaths dia.S rules fixed fun s => !decide (p s ≤ 0)).map (fun s => (s, p s)) ∧
          (x.members.map (fun m => (m.path, m.prob)) =
              (eligiblePaths dia.S rules fixed fun s => decide (0 < p s)).map (fun s => (s, p s)) ↔
            ∀ s ∈ eligiblePaths dia.S rules fixed fun _ => true, (0 < p s ↔ ¬p s ≤ 0))) ∧
    ∀ {dia : Diagram Rat} {p : Path → Rat}, dia.Accepted → (∀ n ∈ dia.S, 1 ≤ n) →
      (∀ s, InSpace dia.S s → dia.P.eval s = .ok (p s)) → RulesWithin rules dia.S → fixed.Within dia.S →
        ∀ (eager : Bool) (scale : Rat) (name : String), 0 < scale →
        ∃ z w x v, (decisionVariables dia).runOn (.empty name) = (.ok z, w) ∧
          (pathVariables dia z rules fixed eager scale).runOn w = (.ok x, v) ∧
          x.members.map (fun m => (m.path, m.prob)) =
            (eligiblePaths dia.S rules fixed fun s => decide (0 < p s)).map fun s => (s, p s) := by
  constructor
  · intro α _ _ dia p hprob hrules hfixed
    refine ⟨paths_eq_filter hfixed hdistinct, fun z eager scale w v x hrun => ?_⟩
    rw [pathVariables_eligible hprob hrules hfixed hdistinct hrun]
    exact ⟨rfl, eligiblePaths_positive_iff⟩
  · intro dia p h hpos hprob hrules hfixed eager scale name hscale
    obtain ⟨w, hfirst, hsecond⟩ := Diagram.creation_run h hpos (fun s hs => Diagram.eval_eq_prob ⟨_, hprob s hs⟩)
      (Diagram.rulesDecide_of_within hrules hfixed) hfixed hscale eager name
    refine ⟨_, w, _, _, hfirst, hsecond, ?_⟩
    rw [pathVariables_eligible hprob hrules hfixed hdistinct hsecond]
    exact eligiblePaths_positive_iff.2 fun _ _ => not_le.symm

/-- It rains, and taking the umbrella and dry clothes do not go together. Wet clothes are left, whatever the forecast is
and whether the umbrella is taken. -/
theorem pathVariables_members_umbrella :
    ∃ z w x v, (decisionVariables umbrella).runOn (.empty "model") = (.ok z, w) ∧
      (pathVariables umbrella z [⟨[2], [[1]]⟩, ⟨[3], [[0]]⟩] ⟨[(0, 1)]⟩ false 1).runOn w = (.ok x, v) ∧
      x.paths = [[1, 0, 0, 1], [1, 0, 1, 1], [1, 1, 0, 1], [1, 1, 1, 1]] := by
  have hrules : RulesWithin [⟨[2], [[1]]⟩, ⟨[3], [[0]]⟩] umbrella.S := by
    unfold RulesWithin
    decide
  have hfixed : FixedStates.Within ⟨[(0, 1)]⟩ umbrella.S := by
    unfold FixedStates.Within
    decide
  obtain ⟨z, w, x, v, hfirst, hsecond, hmembers⟩ := (pathVariables_members (by decide)).2 umbrella_wellFormed.accepted
    umbrella_wellFormed.counts_pos (fun _ hs => umbrella_wellFormed.tabulated.eval_prob hs) hrules hfixed false 1 "model"
    (by decide +kernel)
  refine ⟨z, w, x, v, hfirst, hsecond, ?_⟩
  have hpaths := congrArg (List.map Prod.fst) hmembers
  rw [List.map_map, List.map_map] at hpaths
  exact hpaths.trans (by decide +kernel)

end InfluenceDiagrams
