import Mathlib.Algebra.BigOperators.Group.List.Basic
import Mathlib.Algebra.Order.BigOperators.Group.List
import Mathlib.Algebra.Order.Ring.Rat
import InfluenceDiagrams.Numeric.PairwiseSum

/-!
# `InfluenceDiagrams.Proofs.Numeric.Sums` — sums and extrema in exact arithmetic

The order in which numbers are added does not show in exact arithmetic: sums from the left and sums over
blocks are the sum of the list. That asks no more of the numbers than that their addition is associative and
commutative, with zero for its neutral number.

## Contents
- **`exactAddition`** — numbers that are added exactly; **`foldl_eq_sum`, `scalarSum_eq_sum`**,
  **`pairwiseSum_eq_sum`** — sums from the left, and sums over blocks.
- **`foldl_add_eq_sum`** — sums over a list of other things.
- **`sum_map_filter`, `length_filter_eq_sum`** — sums and lengths of filtered lists.
- **`eq_zero_of_sum_le`, `sum_filter_pos_iff`, `sum_map_ite_nonneg`, `sum_map_ite_le`** — sums of numbers that are not
  negative.
- **`sum_map_sum_comm`**, **`sum_range_replace`** — sums of sums, and sums with one summand replaced.
- **`foldl_best_spec`** — what is kept by going through a list and keeping the better one each time.
- **`least?_spec`, `greatest?_spec`** — the least and the greatest number of a list.
-/

namespace InfluenceDiagrams

/-! ## Sums in any order -/

section Blocks

variable {α : Type} [Scalar α] [Std.Associative (α := α) (· + ·)] [Std.Commutative (α := α) (· + ·)]
  [Std.LawfulIdentity (α := α) (· + ·) 0]

variable (α) in
/-- The addition of numbers that are added exactly, for what is known about sums in general. -/
abbrev exactAddition : AddCommMonoid α where
  add_assoc := Std.Associative.assoc
  zero_add := Std.LawfulLeftIdentity.left_id
  add_zero := Std.LawfulRightIdentity.right_id
  add_comm := Std.Commutative.comm
  nsmul := nsmulRec

theorem foldl_eq_sum (xs : List α) (a : α) : xs.foldl (· + ·) a = a + xs.sum := by
  let := exactAddition α
  induction xs generalizing a with
  | nil => exact (add_zero a).symm
  | cons x xs ih => rw [List.foldl_cons, ih, List.sum_cons, add_assoc]

/-- Running sums in lanes lose nothing. -/
theorem laneSums_sum (lanes xs : List α) (h : lanes.length = 8) :
    (laneSums lanes xs).1.sum + (laneSums lanes xs).2.sum = lanes.sum + xs.sum := by
  let := exactAddition α
  induction lanes, xs using laneSums.induct with
  | case1 lanes xs hlen ih =>
      have htake : (xs.take 8).length = 8 := by rw [List.length_take]; omega
      rw [laneSums, if_pos hlen]
      change (laneSums (List.zipWith (· + ·) lanes (xs.take 8)) (xs.drop 8)).1.sum +
        (laneSums (List.zipWith (· + ·) lanes (xs.take 8)) (xs.drop 8)).2.sum = _
      -- a full group goes into the lanes, one number each
      rw [ih (by rw [List.length_zipWith, h, htake]; rfl),
        ← List.sum_add_sum_eq_sum_zipWith_of_length_eq _ _ (h.trans htake.symm), add_assoc,
        List.sum_take_add_sum_drop]
  | case2 lanes xs hlen =>
      rw [laneSums, if_neg hlen]

theorem scalarSum_eq_sum (xs : List α) : Scalar.sum xs = xs.sum := by
  let := exactAddition α
  exact (foldl_eq_sum xs 0).trans (zero_add _)

theorem joinLanes_eq_sum (lanes : List α) : joinLanes lanes = lanes.sum := by
  let := exactAddition α
  unfold joinLanes
  split
  · simp only [List.sum_cons, List.sum_nil, add_zero, add_assoc]
  · exact scalarSum_eq_sum lanes

theorem blockSum_eq_sum (xs : List α) : blockSum xs = xs.sum := by
  let := exactAddition α
  rw [blockSum]
  by_cases hlen : xs.length < 8
  · rw [if_pos hlen, scalarSum_eq_sum]
  · rw [if_neg hlen]
    show (laneSums (xs.take 8) (xs.drop 8)).2.foldl (· + ·) (joinLanes (laneSums (xs.take 8) (xs.drop 8)).1) = _
    rw [foldl_eq_sum, joinLanes_eq_sum, laneSums_sum _ _ (by rw [List.length_take]; omega),
      List.sum_take_add_sum_drop]

theorem halvedSum_eq_sum (xs : List α) : halvedSum xs = xs.sum := by
  let := exactAddition α
  induction xs using halvedSum.induct with
  | case1 xs hlen h ihTake ihDrop =>
      rw [halvedSum, if_pos hlen]
      show halvedSum (xs.take h) + halvedSum (xs.drop h) = _
      rw [ihTake, ihDrop, List.sum_take_add_sum_drop]
  | case2 xs hlen => rw [halvedSum, if_neg hlen, blockSum_eq_sum]

/-- A sum over blocks is the sum of the list. -/
theorem pairwiseSum_eq_sum (xs : List α) : pairwiseSum xs = xs.sum := by
  let := exactAddition α
  exact (congrArg (0 + ·) (halvedSum_eq_sum xs)).trans (zero_add _)

end Blocks

/-! ## Sums -/

theorem foldl_add_eq_sum {β : Type} (f : β → Rat) (xs : List β) (a : Rat) :
    xs.foldl (fun total x => total + f x) a = a + (xs.map f).sum := by
  induction xs generalizing a with
  | nil => simp
  | cons x xs ih => rw [List.foldl_cons, ih, List.map_cons, List.sum_cons, add_assoc]

theorem sum_map_filter {β : Type} (p : β → Bool) (f : β → Rat) (xs : List β) :
    ((xs.filter p).map f).sum = (xs.map fun x => if p x = true then f x else 0).sum := by
  induction xs with
  | nil => rfl
  | cons x xs ih => by_cases h : p x = true <;> simp [h, ih]

theorem length_filter_eq_sum {β : Type} (p : β → Bool) (xs : List β) :
    ((xs.filter p).length : Rat) = (xs.map fun x => if p x = true then 1 else 0).sum := by
  rw [← sum_map_filter, List.map_const', List.sum_replicate, nsmul_one]

/-- Numbers that are not negative and do not sum up to more than zero are zero. -/
theorem eq_zero_of_sum_le {β : Type} {xs : List β} {f : β → Rat} (hf : ∀ x ∈ xs, 0 ≤ f x)
    (hsum : (xs.map f).sum ≤ 0) : ∀ x ∈ xs, f x = 0 := by
  have hnonneg : ∀ y ∈ xs.map f, 0 ≤ y := List.forall_mem_map.2 hf
  intro x hx
  exact List.all_zero_of_le_zero_le_of_sum_eq_zero hnonneg (le_antisymm hsum (List.sum_nonneg hnonneg))
    (List.mem_map_of_mem hx)

/-- The sum over some entries is positive if one of them is not zero, unless there are negative ones. -/
theorem sum_filter_pos_iff {β : Type} {xs : List β} {f : β → Rat} (hf : ∀ x ∈ xs, 0 ≤ f x) (p : β → Bool) :
    0 < ((xs.filter p).map f).sum ↔ ∃ x ∈ xs, p x = true ∧ f x ≠ 0 := by
  have hfilter : ∀ x ∈ xs.filter p, 0 ≤ f x := fun x hx => hf x (List.mem_of_mem_filter hx)
  constructor
  · intro hpos
    by_contra hnone
    push Not at hnone
    refine absurd (List.sum_eq_zero fun y hy => ?_) (ne_of_gt hpos)
    obtain ⟨x, hx, rfl⟩ := List.mem_map.1 hy
    obtain ⟨hmem, hpx⟩ := List.mem_filter.1 hx
    exact hnone x hmem hpx
  · rintro ⟨x, hx, hpx, hne⟩
    by_contra hle
    exact hne (eq_zero_of_sum_le hfilter (not_lt.1 hle) x (List.mem_filter.2 ⟨hx, hpx⟩))

/-- Leaving out numbers that are not negative makes a sum no greater. -/
theorem sum_map_ite_nonneg {β : Type} {xs : List β} {f : β → Rat} (hf : ∀ x ∈ xs, 0 ≤ f x) (p : β → Prop)
    [DecidablePred p] : 0 ≤ (xs.map fun x => if p x then f x else 0).sum := by
  apply List.sum_nonneg
  intro y hy
  obtain ⟨x, hx, rfl⟩ := List.mem_map.1 hy
  split
  · exact hf x hx
  · exact le_rfl

theorem sum_map_ite_le {β : Type} {xs : List β} {f : β → Rat} (hf : ∀ x ∈ xs, 0 ≤ f x) (p : β → Prop) [DecidablePred p] :
    (xs.map fun x => if p x then f x else 0).sum ≤ (xs.map f).sum := by
  apply List.sum_le_sum
  intro x hx
  split
  · exact le_rfl
  · exact hf x hx

theorem sum_map_sub {β : Type} {xs : List β} (f g : β → Rat) :
    (xs.map fun x => f x - g x).sum = (xs.map f).sum - (xs.map g).sum := by
  have h : (xs.map fun x => f x - g x + g x).sum = (xs.map fun x => f x - g x).sum + (xs.map g).sum :=
    List.sum_map_add
  simp only [sub_add_cancel] at h
  rw [h, add_sub_cancel_right]

theorem sum_map_sum_comm {β γ : Type} (f : β → γ → Rat) (xs : List β) (ys : List γ) :
    (xs.map fun x => (ys.map (f x)).sum).sum = (ys.map fun y => (xs.map fun x => f x y).sum).sum := by
  induction xs with
  | nil => simp
  | cons x xs ih => simp only [List.map_cons, List.sum_cons, ih, List.sum_map_add]

/-- A sum with one of the summands replaced. -/
theorem sum_range_replace (f : Nat → Rat) (a : Rat) {n i : Nat} (hi : i < n) :
    ((List.range n).map fun j => if j = i then a else f j).sum = ((List.range n).map f).sum + (a - f i) := by
  rw [List.sum_map_ite_eq (List.range n) (fun _ => a) f i, List.nodup_range.count, if_pos (List.mem_range.2 hi),
    one_nsmul, add_comm]

/-! ## The least and the greatest number -/

/-- Going through a list and keeping what is better than all before finds one of its numbers, and no number of
the list is better. -/
theorem foldl_best_spec (better : Rat → Rat → Prop) [DecidableRel better]
    (hasymm : ∀ a b, better a b → ¬better b a) (htrans : ∀ a b c, ¬better a b → ¬better b c → ¬better a c)
    (xs : List Rat) (best : Rat) :
    ∃ m ∈ best :: xs, xs.foldl (fun best x => if better x best then x else best) best = m ∧
      ∀ x ∈ best :: xs, ¬better x m := by
  induction xs generalizing best with
  | nil =>
      have hself : ¬better best best := fun h => hasymm best best h h
      exact ⟨best, List.mem_cons_self, rfl, by simpa using hself⟩
  | cons x xs ih =>
      obtain ⟨m, hm, hfold, hnone⟩ := ih (if better x best then x else best)
      obtain ⟨hbest, hxs⟩ := List.forall_mem_cons.1 hnone
      refine ⟨m, ?_, hfold, ?_⟩
      · rcases List.mem_cons.1 hm with rfl | hm
        · split <;> simp
        · exact List.mem_cons_of_mem _ (List.mem_cons_of_mem _ hm)
      · split at hbest
        · rename_i hbetter
          exact List.forall_mem_cons.2 ⟨htrans _ _ _ (hasymm _ _ hbetter) hbest, List.forall_mem_cons.2 ⟨hbest, hxs⟩⟩
        · rename_i hworse
          exact List.forall_mem_cons.2 ⟨hbest, List.forall_mem_cons.2 ⟨htrans _ _ _ hworse hbest, hxs⟩⟩

/-- A list has a least number unless it is empty, and no number of it is smaller. -/
theorem least?_spec {xs : List Rat} (hne : xs ≠ []) :
    ∃ m ∈ xs, Scalar.least? xs = some m ∧ ∀ x ∈ xs, m ≤ x := by
  cases xs with
  | nil => exact absurd rfl hne
  | cons x xs =>
      obtain ⟨m, hm, hfold, hnone⟩ := foldl_best_spec (fun y best => y < best) (fun _ _ => lt_asymm)
        (fun a b c hab hbc => not_lt.2 ((not_lt.1 hbc).trans (not_lt.1 hab))) xs x
      exact ⟨m, hm, congrArg some hfold, fun y hy => not_lt.1 (hnone y hy)⟩

/-- A list has a greatest number unless it is empty, and no number of it is greater. -/
theorem greatest?_spec {xs : List Rat} (hne : xs ≠ []) :
    ∃ m ∈ xs, Scalar.greatest? xs = some m ∧ ∀ x ∈ xs, x ≤ m := by
  cases xs with
  | nil => exact absurd rfl hne
  | cons x xs =>
      obtain ⟨m, hm, hfold, hnone⟩ := foldl_best_spec (fun y best => best < y) (fun _ _ => lt_asymm)
        (fun a b c hab hbc => not_lt.2 ((not_lt.1 hab).trans (not_lt.1 hbc))) xs x
      exact ⟨m, hm, congrArg some hfold, fun y hy => not_lt.1 (hnone y hy)⟩

end InfluenceDiagrams
