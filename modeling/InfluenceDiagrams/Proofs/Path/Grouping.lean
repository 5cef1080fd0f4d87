import Mathlib.Data.List.Induction
import InfluenceDiagrams.Proofs.Path.Enumeration

/-!
# `InfluenceDiagrams.Proofs.Path.Grouping` — the groups of paths

Paths are grouped by their states at some nodes, one path after the other. The group of some states is what
a filter would leave, and there is no group without paths.

## Contents
- **`Keyed.find?_upsert_self`, `Keyed.find?_upsert_ne`** — looking up after a merge.
- **`Keyed.upsert_of_not_mem`** — merging under a new key; **`Keyed.nodup_keys_upsert`** — the keys stay different.
- **`Keyed.find?_append_of_some`** — looking up in two lists.
- **`Keyed.find?_map_of_mem`, `Keyed.find?_ofPairs`, `Keyed.isSome_find?_ofPairs`** — looking up where a key is
  repeated.
- **`find?_groups`** — the group of a key, by induction on the paths from the last one back.
- **`groupBy?_spec`** — grouping paths in range.
-/

namespace InfluenceDiagrams

namespace Keyed

variable {κ β : Type} [BEq κ] [LawfulBEq κ]

theorem find?_upsert_self (key : κ) (new : β) (merge : β → β) (pairs : List (κ × β)) :
    find? key (upsert key new merge pairs) = some ((find? key pairs).elim new merge) := by
  induction pairs with
  | nil => simp [upsert, find?]
  | cons p pairs ih =>
      obtain ⟨k, b⟩ := p
      by_cases hk : (k == key) = true
      · simp [upsert, find?, hk]
      · simp [upsert, find?, hk, ih]

theorem find?_upsert_ne {k key : κ} (h : key ≠ k) (new : β) (merge : β → β) (pairs : List (κ × β)) :
    find? k (upsert key new merge pairs) = find? k pairs := by
  have hne : ¬(key == k) = true := fun heq => h (eq_of_beq heq)
  induction pairs with
  | nil => simp [upsert, find?, hne]
  | cons p pairs ih =>
      obtain ⟨j, b⟩ := p
      by_cases hj : (j == key) = true
      · obtain rfl := eq_of_beq hj
        simp [upsert, find?, hne]
      · by_cases hk : (j == k) = true
        · simp [upsert, find?, hj, hk]
        · simp [upsert, find?, hj, hk, ih]

/-- A key that is not there comes in at the end. -/
theorem upsert_of_not_mem {key : κ} {pairs : List (κ × β)} (h : key ∉ pairs.map Prod.fst) (new : β)
    (merge : β → β) : upsert key new merge pairs = pairs ++ [(key, new)] := by
  induction pairs with
  | nil => rfl
  | cons p pairs ih =>
      obtain ⟨k, b⟩ := p
      rw [List.map_cons, List.mem_cons, not_or] at h
      rw [upsert, if_neg fun heq => h.1 (eq_of_beq heq).symm, ih h.2]
      rfl

/-- No key comes twice. -/
theorem nodup_keys_upsert {key : κ} {pairs : List (κ × β)} (h : (pairs.map Prod.fst).Nodup) (new : β) (merge : β → β) :
    ((upsert key new merge pairs).map Prod.fst).Nodup := by
  rw [keys_upsert]
  split
  · exact h
  · rename_i hnew
    have hnot : key ∉ pairs.map Prod.fst := by
      intro hmem
      obtain ⟨p, hp, rfl⟩ := List.mem_map.1 hmem
      exact hnew (List.any_eq_true.2 ⟨p, hp, beq_self_eq_true p.1⟩)
    refine List.nodup_append.2 ⟨h, List.nodup_singleton key, ?_⟩
    rintro k hk _ hkey rfl
    rw [List.mem_singleton.1 hkey] at hk
    exact hnot hk

omit [LawfulBEq κ] in
theorem find?_append_of_some {key : κ} {b : β} {xs ys : List (κ × β)} (h : find? key xs = some b) :
    find? key (xs ++ ys) = some b := by
  induction xs with
  | nil => cases h
  | cons p xs ih =>
      obtain ⟨k, c⟩ := p
      rw [List.cons_append]
      rw [find?] at h ⊢
      by_cases hk : (k == key) = true
      · rwa [if_pos hk] at h ⊢
      · rw [if_neg hk] at h ⊢
        exact ih h

/-- If the values are functions of the keys, it does not matter that a key is repeated. -/
theorem find?_map_of_mem {γ : Type} {f : γ → κ} (g : κ → β) {c : γ} {cs : List γ} (hc : c ∈ cs) :
    find? (f c) (cs.map fun c => (f c, g (f c))) = some (g (f c)) := by
  induction cs with
  | nil => cases hc
  | cons d cs ih =>
      rw [List.map_cons, find?]
      split
      · rename_i heq
        rw [eq_of_beq heq]
      · rename_i hne
        rcases List.mem_cons.1 hc with rfl | hc
        · exact absurd (beq_self_eq_true (f c)) hne
        · exact ih hc

/-- If the values at a key do not contradict each other, they are the value that is kept. -/
theorem find?_ofPairs {key : κ} {b : β} {pairs : List (κ × β)} (hmem : ∃ p ∈ pairs, p.1 = key)
    (hsame : ∀ p ∈ pairs, p.1 = key → p.2 = b) : find? key (ofPairs pairs) = some b := by
  -- the last value counts, so the induction takes the last pair off
  induction pairs using List.reverseRecOn with
  | nil =>
      obtain ⟨p, hp, -⟩ := hmem
      cases hp
  | append_singleton pairs p ih =>
      rw [List.forall_mem_append, List.forall_mem_singleton] at hsame
      obtain ⟨hpairs, hlast⟩ := hsame
      rw [ofPairs, List.foldl_append, List.foldl_cons, List.foldl_nil]
      by_cases hp : p.1 = key
      · rw [← hlast hp, ← hp, find?_upsert_self]
        cases find? p.1 (pairs.foldl (fun acc p => upsert p.1 p.2 (fun _ => p.2) acc) []) <;> rfl
      · rw [find?_upsert_ne hp]
        apply ih ?_ hpairs
        obtain ⟨q, hq, hkey⟩ := hmem
        rcases List.mem_append.1 hq with hq | hq
        · exact ⟨q, hq, hkey⟩
        · rw [List.mem_singleton.1 hq] at hkey
          exact absurd hkey hp

/-- A key is there if some pair had it. -/
theorem isSome_find?_ofPairs {key : κ} {pairs : List (κ × β)} :
    (find? key (ofPairs pairs)).isSome = true ↔ ∃ p ∈ pairs, p.1 = key := by
  induction pairs using List.reverseRecOn with
  | nil => simp [ofPairs, find?]
  | append_singleton pairs p ih =>
      simp only [List.mem_append, List.mem_singleton, or_and_right, exists_or, exists_eq_left]
      rw [← ih, ofPairs, List.foldl_append, List.foldl_cons, List.foldl_nil]
      by_cases hp : p.1 = key
      · rw [← hp, find?_upsert_self]
        exact iff_of_true rfl (Or.inr rfl)
      · rw [find?_upsert_ne hp, or_iff_left hp]
        rfl

end Keyed

/-- The group of a key has the paths of that key, in the given order. -/
theorem find?_groups (part : Path → Path) (key : Path) (ss : List Path) :
    Keyed.find? key (ss.foldl (fun groups s => Keyed.upsert (part s) [s] (· ++ [s]) groups) []) =
      if ss.filter (fun s => part s == key) = [] then none else some (ss.filter fun s => part s == key) := by
  -- grouping goes from the left, so the induction takes the last path off
  induction ss using List.reverseRecOn with
  | nil => rfl
  | append_singleton ss s ih =>
      rw [List.foldl_append, List.foldl_cons, List.foldl_nil, List.filter_append]
      by_cases hs : part s = key
      · subst hs
        rw [Keyed.find?_upsert_self, ih]
        -- the group is opened by its first path, and later ones are appended to it
        by_cases hempty : ss.filter (fun t => part t == part s) = []
        · simp [hempty]
        · simp [hempty]
      · rw [Keyed.find?_upsert_ne hs, ih]
        simp [hs]

/-- Paths that have states at the nodes are grouped by these states. -/
theorem groupBy?_spec {ss : List Path} {nodes : List Node}
    (h : ∀ s ∈ ss, ∀ k ∈ nodes, InRange s.length k) :
    ∃ groups, groupBy? ss nodes = some groups ∧ ∀ key, Keyed.find? key groups =
      if ss.filter (fun s => nodes.map (entry s) == key) = [] then none
      else some (ss.filter fun s => nodes.map (entry s) == key) := by
  refine ⟨_, ?_, fun key => find?_groups (fun s => nodes.map (entry s)) key ss⟩
  refine foldlM_eq_pure ?_ []
  intro groups s hs
  rw [subPath?_eq_map (h s hs)]
  rfl

end InfluenceDiagrams
