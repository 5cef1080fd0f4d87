import Mathlib.Algebra.Order.Ring.Rat
import Mathlib.Data.List.Nodup
import InfluenceDiagrams.Numeric.Ascending
import InfluenceDiagrams.Numeric.Scalar

/-!
# `InfluenceDiagrams.Proofs.Numeric.Sorting` — sorting by a key

A test that compares keys puts a list in the order of the keys, strictly so if no key occurs twice.

## Contents
- **`mergeSort_sorted`, `mergeSort_strict`** — the order of a sorted list; **`mergeSort_perm_eq`, `mergeSort_congr`** — it
  does not depend on the order before.
- **`ascending_strict`** — entries with different keys in ascending order; **`ascending_eraseDups_spec`** — the distinct
  numbers of a list.
-/

namespace InfluenceDiagrams

section Keys

variable {β κ : Type} [LinearOrder κ] {le : β → β → Bool}

theorem mergeSort_sorted (key : β → κ) (hle : ∀ a b, le a b = true ↔ key a ≤ key b) (xs : List β) :
    (xs.mergeSort le).Pairwise fun a b => key a ≤ key b := by
  refine (List.pairwise_mergeSort ?_ ?_ xs).imp fun hab => (hle _ _).1 hab
  · intro a b c hab hbc
    exact (hle a c).2 (le_trans ((hle a b).1 hab) ((hle b c).1 hbc))
  · intro a b
    rw [Bool.or_eq_true, hle, hle]
    exact le_total _ _

theorem mergeSort_strict (key : β → κ) (hle : ∀ a b, le a b = true ↔ key a ≤ key b) {xs : List β}
    (hnodup : (xs.map key).Nodup) : (xs.mergeSort le).Pairwise fun a b => key a < key b := by
  have hperm : (xs.mergeSort le).Perm xs := List.mergeSort_perm _ _
  have hne := List.pairwise_map.1 ((hperm.map key).nodup_iff.2 hnodup)
  exact ((mergeSort_sorted key hle xs).and hne).imp fun hab => lt_of_le_of_ne hab.1 hab.2

/-- Where keys tell entries apart, it does not show in which order a list was given. -/
theorem mergeSort_perm_eq (key : β → κ) (hle : ∀ a b, le a b = true ↔ key a ≤ key b) {xs ys : List β}
    (hperm : xs.Perm ys) (hkey : ∀ a ∈ ys, ∀ b ∈ ys, key a = key b → a = b) : xs.mergeSort le = ys.mergeSort le := by
  refine List.Perm.eq_of_pairwise ?_ (mergeSort_sorted key hle xs) (mergeSort_sorted key hle ys) ?_
  · intro a b ha hb hab hba
    have ha' : a ∈ ys := hperm.mem_iff.1 (List.mem_mergeSort.1 ha)
    exact hkey a ha' b (List.mem_mergeSort.1 hb) (le_antisymm hab hba)
  · exact (List.mergeSort_perm _ _).trans (hperm.trans (List.mergeSort_perm _ _).symm)

/-- Where no key occurs twice, it does not show in which order a list was given. -/
theorem mergeSort_congr (key : β → κ) (hle : ∀ a b, le a b = true ↔ key a ≤ key b) {xs ys : List β} (hperm : xs.Perm ys)
    (hnodup : (ys.map key).Nodup) : xs.mergeSort le = ys.mergeSort le :=
  mergeSort_perm_eq key hle hperm fun _ ha _ hb => List.inj_on_of_nodup_map hnodup ha hb

end Keys

theorem eraseDups_nodup (xs : List Rat) : xs.eraseDups.Nodup := by
  -- erasing goes on in the filtered tail, so the induction is on the length
  induction hn : xs.length using Nat.strong_induction_on generalizing xs with
  | _ n ih =>
      cases xs with
      | nil => exact List.nodup_nil
      | cons x xs =>
          have hlen : (xs.filter fun y => !y == x).length < n := by
            have := List.length_filter_le (fun y => !y == x) xs
            rw [List.length_cons] at hn
            omega
          rw [List.eraseDups_cons, List.nodup_cons]
          refine ⟨?_, ih _ hlen _ rfl⟩
          intro hx
          simpa using (List.mem_filter.1 (List.mem_eraseDups.1 hx)).2

/-- Numbers compare, so that entries with different keys are put in strict order. -/
theorem ascending_strict {β : Type} (key : β → Rat) {xs : List β} (hnodup : (xs.map key).Nodup) :
    (ascending (fun a b => decide (key a < key b)) (fun a => key a == key a) xs).Pairwise fun a b => key a < key b := by
  have hall : (xs.all fun a => key a == key a) = true := List.all_eq_true.2 fun a _ => beq_self_eq_true (key a)
  rw [ascending, if_pos hall]
  refine mergeSort_strict key ?_ hnodup
  intro a b
  rw [Bool.not_eq_true', decide_eq_false_iff_not, not_lt]

/-- The distinct numbers of a list in ascending order. -/
theorem ascending_eraseDups_spec (us : List Rat) :
    (ascending (fun a b => decide (a < b)) (fun a => a == a) us.eraseDups).Pairwise (· < ·) ∧
      ∀ u, u ∈ ascending (fun a b => decide (a < b)) (fun a => a == a) us.eraseDups ↔ u ∈ us := by
  have hperm := ascending_perm (fun a b : Rat => decide (a < b)) (fun a => a == a) us.eraseDups
  constructor
  · refine ascending_strict (fun u => u) ?_
    rw [List.map_id']
    exact eraseDups_nodup us
  · intro u
    rw [hperm.mem_iff, List.mem_eraseDups]

end InfluenceDiagrams
