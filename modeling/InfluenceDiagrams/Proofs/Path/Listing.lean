import InfluenceDiagrams.Proofs.Path.Enumeration

/-!
# `InfluenceDiagrams.Proofs.Path.Listing` — the paths over any state space, and when they cannot be listed

Fixed states are taken as they are. A node may be fixed to a state that it does not have, and a fixed node outside the
state space is not met by any path. The paths are all ways to fill in the nodes that are not fixed, whatever their
counts are.

Whether they can be listed is another matter. Before there is a path, the states of all nodes that are not fixed are
listed, and where lengths are bounded, the first of them with too many states ends it, even if another node has no state
and there are no paths to list.

## Contents
- **`FixedStates.Completes`** — the paths that fill in what is not fixed; **`mem_paths_iff_completes`**.
- **`paths_congr`** — nodes outside the state space do not matter.
- **`FixedStates.Obstructs`** — the node at which listing ends; **`checkCounts_error_iff`**, **`listPaths_error_iff`**.
- **`paths_enumerated`** — the main statement; **`paths_unlisted`** — a state space without paths that is not listed.
-/

namespace InfluenceDiagrams

variable {S : StateCounts} {fixed : FixedStates}

/-! ## The paths -/

/-- A path has a state for every node of a state space: the fixed one if the node is fixed, and one of its states if it
is not. -/
structure FixedStates.Completes (fixed : FixedStates) (S : StateCounts) (s : Path) : Prop where
  length_eq : s.length = S.length
  fixed_eq : ∀ k v, InRange S.length k → fixed.state? k = some v → entry s k = v
  free_inRange : ∀ k, InRange S.length k → fixed.state? k = none → InRange (entry S k) (entry s k)

theorem mem_domain_iff {k : Node} {n x : Int} :
    x ∈ domain fixed k n ↔ (∀ v, fixed.state? k = some v → x = v) ∧ (fixed.state? k = none → InRange n x) := by
  unfold domain
  cases fixed.state? k with
  | none => simp [mem_statesBelow]
  | some v => simp

/-- The paths are all that have the fixed states and any states elsewhere. -/
theorem mem_paths_iff_completes {s : Path} : s ∈ paths S fixed ↔ fixed.Completes S s := by
  rw [mem_paths]
  constructor
  · rintro ⟨hlen, h⟩
    exact ⟨hlen, fun k v hk => (mem_domain_iff.1 (h k hk)).1 v, fun k hk => (mem_domain_iff.1 (h k hk)).2⟩
  · intro h
    exact ⟨h.length_eq, fun k hk => mem_domain_iff.2 ⟨fun v => h.fixed_eq k v hk, h.free_inRange k hk⟩⟩

/-- It does not matter which nodes outside the state space are fixed. -/
theorem paths_congr {other : FixedStates} (h : ∀ k, InRange S.length k → other.state? k = fixed.state? k) :
    paths S other = paths S fixed := by
  -- both lists ascend, so that they are equal as soon as they have the same entries
  refine (paths_sorted S other).eq_of_mem_iff (paths_sorted S fixed) fun s => ?_
  rw [mem_paths, mem_paths]
  refine and_congr_right fun _ => forall₂_congr fun k hk => ?_
  rw [domain, domain, h k hk]

/-! ## Listing -/

section Listing

variable {α : Type} [Lengths] {f : Fault α}

/-- A node is the first one that is not fixed and has too many states to list. -/
structure FixedStates.Obstructs (fixed : FixedStates) (S : StateCounts) (k : Node) : Prop where
  inRange : InRange S.length k
  free : fixed.state? k = none
  large : Lengths.admits (entry S k) = false
  first : ∀ j, 0 ≤ j → j < k → fixed.state? j = none → Lengths.admits (entry S j) = true

theorem checkLength_error_iff {n : Int} :
    checkLength (α := α) n = .error f ↔ Lengths.admits n = false ∧ f = .overflow := by
  unfold checkLength
  cases Lengths.admits n <;> simp [eq_comm]

theorem checkLength_ok_iff {n : Int} : checkLength (α := α) n = .ok () ↔ Lengths.admits n = true := by
  unfold checkLength
  cases Lengths.admits n <;> simp

/-- A node ends the listing with the fault of its own count, if it is not fixed and the nodes before it do not. -/
theorem checkCounts_error_iff {S : StateCounts} : ∀ first : Nat, checkCounts (α := α) fixed first S = .error f ↔
    ∃ i < S.length, fixed.state? (first + i : Nat) = none ∧ checkLength (α := α) (S.getD i 0) = .error f ∧
      ∀ j < i, fixed.state? (first + j : Nat) = none → checkLength (α := α) (S.getD j 0) = .ok () := by
  induction S with
  | nil => intro first; simp [checkCounts]
  | cons n S ih =>
      intro first
      -- it is the first node, or the first node is passed and it is one of the others
      have hshift : ∀ i, ((first + 1 + i : Nat) : Int) = (first + (i + 1) : Nat) := fun i => by lia
      have ih := ih (first + 1)
      simp only [hshift] at ih
      rw [List.length_cons, Nat.exists_lt_succ_left]
      simp only [Nat.forall_lt_succ_left, List.getD_cons_succ, List.getD_cons_zero, Nat.add_zero]
      cases hstate : fixed.state? first with
      | some v =>
          have hfixes : fixed.fixes first = true := by rw [FixedStates.fixes_eq_isSome, hstate]; rfl
          rw [checkCounts, if_pos hfixes]
          change checkCounts fixed (first + 1) S = .error f ↔ _
          rw [ih]
          simp
      | none =>
          have hfixes : ¬fixed.fixes first = true := by rw [FixedStates.fixes_eq_isSome, hstate]; simp
          rw [checkCounts, if_neg hfixes]
          cases hlen : checkLength (α := α) n with
          | error g =>
              change Except.error g = Except.error f ↔ _
              simp
          | ok _ =>
              change checkCounts fixed (first + 1) S = .error f ↔ _
              rw [ih]
              simp

/-- Listing ends at the first node that is not fixed and has too many states. -/
theorem listPaths_error_iff :
    listPaths (α := α) S fixed = .error f ↔ f = .overflow ∧ ∃ k, fixed.Obstructs S k := by
  have hcheck : listPaths (α := α) S fixed = .error f ↔ checkCounts (α := α) fixed 0 S = .error f := by
    unfold listPaths
    cases checkCounts (α := α) fixed 0 S with
    | error g =>
        change Except.error g = Except.error f ↔ _
        rw [Except.error.injEq, Except.error.injEq]
    | ok _ => exact iff_of_false (fun h => by cases h) (fun h => by cases h)
  rw [hcheck, checkCounts_error_iff]
  simp only [Nat.zero_add, ← entry_natCast, checkLength_error_iff, checkLength_ok_iff]
  constructor
  · rintro ⟨i, hi, hfree, ⟨hlarge, hf⟩, hfirst⟩
    refine ⟨hf, i, ⟨inRange_natCast hi, hfree, hlarge, ?_⟩⟩
    intro j h0 hji hj
    lift j to ℕ using h0
    exact hfirst j (by lia) hj
  · rintro ⟨hf, k, hk⟩
    obtain ⟨i, rfl⟩ := Int.eq_ofNat_of_zero_le hk.inRange.1
    refine ⟨i, ?_, hk.free, ⟨hk.large, hf⟩, ?_⟩
    · simpa using hk.inRange.toNat_lt
    · exact fun j hj hfree => hk.first j (by lia) (by lia) hfree

/-- Where no node obstructs, the paths are listed. -/
theorem listPaths_of_unobstructed (h : ∀ k, ¬fixed.Obstructs S k) :
    listPaths (α := α) S fixed = .ok (paths S fixed) := by
  cases hlist : listPaths (α := α) S fixed with
  | error f =>
      obtain ⟨-, k, hk⟩ := listPaths_error_iff.1 hlist
      exact absurd hk (h k)
  | ok ss =>
      unfold listPaths at hlist
      cases hcheck : checkCounts (α := α) fixed 0 S with
      | error f =>
          rw [hcheck] at hlist
          cases hlist
      | ok _ =>
          rw [hcheck] at hlist
          exact hlist.symm

end Listing

/-! ## The main statement -/

/-- **The paths.** Let no count be negative, and let any nodes be fixed to any states. The paths are all that have the
fixed state at every fixed node of the state space and one of its states at every other node, each once, in strictly
ascending lexicographic order, and their number is the product of the counts of the nodes that are not fixed. Which
nodes outside the state space are fixed does not matter. The paths are listed unless a node obstructs that by a count
that is too large for a length. -/
theorem paths_enumerated {α : Type} [Lengths] {S : StateCounts} (hS : ∀ n ∈ S, 0 ≤ n) (fixed : FixedStates) :
    ((∀ k, ¬fixed.Obstructs S k) → listPaths (α := α) S fixed = .ok (paths S fixed)) ∧
    (∀ f, listPaths (α := α) S fixed = .error f ↔ f = .overflow ∧ ∃ k, fixed.Obstructs S k) ∧
    (∀ s, s ∈ paths S fixed ↔ fixed.Completes S s) ∧
    (paths S fixed).Nodup ∧ (paths S fixed).Pairwise (· < ·) ∧ ((paths S fixed).length : Int) = numPaths S fixed ∧
    ∀ other : FixedStates, (∀ k, InRange S.length k → other.state? k = fixed.state? k) →
      paths S other = paths S fixed ∧ numPaths S other = numPaths S fixed := by
  refine ⟨listPaths_of_unobstructed, fun f => listPaths_error_iff, fun s => mem_paths_iff_completes,
    paths_nodup S fixed, paths_sorted S fixed, length_paths fixed hS, ?_⟩
  intro other h
  have hsame := paths_congr h
  refine ⟨hsame, ?_⟩
  rw [← length_paths other hS, ← length_paths fixed hS, hsame]

section Words

attribute [local instance] Lengths.words

/-- Three nodes, with four, far too many and five states, where lengths are words. The node in the middle is fixed to a
state that it does not even have, and so is a node behind the last one: there are twenty paths. Without fixed states
they are not listed. -/
theorem paths_enumerated_crowded :
    listPaths (α := Float) [4, 2 ^ 100, 5] ⟨[(1, -3), (7, 0)]⟩ = .ok (paths [4, 2 ^ 100, 5] ⟨[(1, -3), (7, 0)]⟩) ∧
      (∀ s ∈ paths [4, 2 ^ 100, 5] ⟨[(1, -3), (7, 0)]⟩, entry s 1 = -3) ∧
      ((paths [4, 2 ^ 100, 5] ⟨[(1, -3), (7, 0)]⟩).length : Int) = 20 ∧
      paths [4, 2 ^ 100, 5] ⟨[(1, -3)]⟩ = paths [4, 2 ^ 100, 5] ⟨[(1, -3), (7, 0)]⟩ ∧
      listPaths (α := Float) [4, 2 ^ 100, 5] .empty = .error .overflow := by
  have hS : ∀ n ∈ [4, 2 ^ 100, 5], (0 : Int) ≤ n := by decide
  have hnodes : ∀ {k : Node}, InRange ([4, 2 ^ 100, 5] : StateCounts).length k → k = 0 ∨ k = 1 ∨ k = 2 := by
    rintro k ⟨h0, hlt⟩
    change k < 3 at hlt
    lia
  obtain ⟨hlist, -, hmem, -, -, hlen, hother⟩ := paths_enumerated (α := Float) hS ⟨[(1, -3), (7, 0)]⟩
  obtain ⟨-, herror, -⟩ := paths_enumerated (α := Float) hS .empty
  refine ⟨hlist ?_, fun s hs => ((hmem s).1 hs).fixed_eq 1 (-3) (by decide) (by decide), hlen, ?_, ?_⟩
  · intro k hk
    rcases hnodes hk.inRange with rfl | rfl | rfl
    · exact absurd hk.large (by decide)
    · exact absurd hk.free (by decide)
    · exact absurd hk.large (by decide)
  · refine (hother ⟨[(1, -3)]⟩ fun k hk => ?_).1
    rcases hnodes hk with rfl | rfl | rfl <;> decide
  · refine (herror _).2 ⟨rfl, 1, ⟨by decide, rfl, by decide, ?_⟩⟩
    intro j h0 hlt _
    obtain rfl : j = 0 := by lia
    decide

/-- The paths over some state spaces are not listed where lengths are words: one node has too many states, and it does
not help that another one has none, so that there are no paths. -/
theorem paths_unlisted : ¬∀ (S : StateCounts) (fixed : FixedStates), (∀ n ∈ S, 0 ≤ n) →
    ∃ ss, listPaths (α := Float) S fixed = .ok ss ∧ (∀ s, s ∈ ss ↔ fixed.Completes S s) ∧ ss.Nodup ∧
      ss.Pairwise (· < ·) ∧ (ss.length : Int) = numPaths S fixed := by
  intro h
  have hoverflow : listPaths (α := Float) [100000000000000000000, 0] .empty = .error .overflow := rfl
  obtain ⟨ss, hlist, -⟩ := h [100000000000000000000, 0] .empty (by decide)
  rw [hoverflow] at hlist
  cases hlist

end Words

end InfluenceDiagrams
