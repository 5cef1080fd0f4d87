import Mathlib.Algebra.BigOperators.Ring.List
import Mathlib.Algebra.Order.Ring.Rat
import Mathlib.Data.List.Induction
import Mathlib.Data.List.Perm.Basic
import InfluenceDiagrams.Proofs.Path.Enumeration

/-!
# `InfluenceDiagrams.Proofs.Probability.Elimination` — sums of products over all paths

A sum over all paths of a product with one factor for each node collapses node by node, provided that no
factor reads a later node than its own: the last node is read by its own factor only, so its states are
summed out first, and what is left is the same sum over the nodes before it. The collapse may stop at any
node, and then what is multiplied by the factors may be anything that reads the nodes left over.

## Contents
- **`paths_append_singleton`** — paths over one more node.
- **`Factor`, `Factor.SumsTo`** — what is multiplied, and what a factor sums up to at its node.
- **`sum_mul_product_of_aligned`** — the nodes from a cut on are summed out, by induction from the last one back.
- **`sum_mul_product_later`** — the same with the factors in any order.
- **`sum_product_factors`** — all nodes are summed out.
-/

namespace InfluenceDiagrams

/-! ## One more node -/

theorem choices_append_singleton {β : Type} (domains : List (List β)) (xs : List β) :
    choices (domains ++ [xs]) = (choices domains).flatMap fun s => xs.map fun x => s ++ [x] := by
  induction domains with
  | nil => simp [choices, List.map_eq_flatMap]
  | cons ys domains ih =>
      rw [List.cons_append, choices, choices, ih, List.flatMap_assoc]
      apply List.flatMap_congr
      intro y _
      rw [List.map_flatMap, List.flatMap_map]
      apply List.flatMap_congr
      intro s _
      rw [List.map_map]
      rfl

theorem paths_append_singleton (S : StateCounts) (n : Int) :
    paths (S ++ [n]) .empty = (paths S .empty).flatMap fun s => (statesBelow n).map fun k => s ++ [k] := by
  rw [paths_empty, paths_empty, List.map_append]
  exact choices_append_singleton _ _

theorem statesBelow_succ (n : Nat) : statesBelow ((n + 1 : Nat) : Int) = statesBelow n ++ [(n : Int)] := by
  simp [statesBelow, List.range_succ]

theorem entry_append_left {s : List Int} {i : Int} (h : InRange s.length i) (t : List Int) :
    entry (s ++ t) i = entry s i := by
  have hi := h.toNat_lt
  simp [entry, List.getD_eq_getElem?_getD, List.getElem?_append_left hi]

theorem entry_append_self (s : List Int) (x : Int) : entry (s ++ [x]) s.length = x := by
  simp [entry]

/-! ## Factors -/

/-- A number for every path that belongs to a node. -/
structure Factor where
  node : Node
  value : Path → Rat

namespace Factor

/-- The factor reads no node after its own, and whatever the states of the earlier nodes are, its values
for all states of its own node sum up to `w`. -/
structure SumsTo (S : StateCounts) (φ : Factor) (w : Rat) : Prop where
  reads : ∀ s t : Path, (∀ i, 0 ≤ i → i ≤ φ.node → entry s i = entry t i) → φ.value s = φ.value t
  sum : ∀ s, InSpace (S.take φ.node.toNat) s →
    ((statesBelow (entry S φ.node)).map fun k => φ.value (s ++ [k])).sum = w

/-- The product of the values of some factors for a path. -/
def product (factors : List Factor) (s : Path) : Rat := (factors.map fun φ => φ.value s).prod

theorem product_append (xs ys : List Factor) (s : Path) :
    product (xs ++ ys) s = product xs s * product ys s := by
  rw [product, List.map_append, List.prod_append]
  rfl

/-- Sums over the states of an earlier node do not notice that there is one more node. -/
theorem SumsTo.init {S : StateCounts} {n : Int} {φ : Factor} {w : Rat} (h : φ.SumsTo (S ++ [n]) w)
    (hnode : InRange S.length φ.node) : φ.SumsTo S w := by
  refine ⟨h.reads, ?_⟩
  intro s hs
  have htake : (S ++ [n]).take φ.node.toNat = S.take φ.node.toNat :=
    List.take_append_of_le_length (le_of_lt hnode.toNat_lt)
  have := h.sum s (by rw [htake]; exact hs)
  rwa [entry_append_left hnode] at this

/-- Factors of earlier nodes do not read one more state. -/
theorem product_append_singleton {S : StateCounts} {w : Node → Rat} {factors : List Factor}
    (h : ∀ φ ∈ factors, φ.SumsTo S (w φ.node) ∧ InRange S.length φ.node) {s : Path}
    (hs : s.length = S.length) (k : State) : product factors (s ++ [k]) = product factors s := by
  unfold product
  congr 1
  apply List.map_congr_left
  intro φ hφ
  obtain ⟨hsum, hnode⟩ := h φ hφ
  apply hsum.reads
  intro i h0 hi
  refine entry_append_left ⟨h0, ?_⟩ [k]
  rw [hs]
  exact lt_of_le_of_lt hi hnode.2

end Factor

/-! ## Elimination -/

/-- A sum over all paths of what reads the nodes before a cut only, times a factor for each node from the cut
on: these factors are summed out, and paths up to the cut are left. -/
theorem sum_mul_product_of_aligned (w : Node → Rat) {n : Nat} {g : Path → Rat}
    (hg : ∀ s t : Path, (∀ i : Int, 0 ≤ i → i < n → entry s i = entry t i) → g s = g t) (S : StateCounts) :
    ∀ {later : List Factor}, later.map Factor.node = (statesBelow S.length).drop n →
      (∀ φ ∈ later, φ.SumsTo S (w φ.node)) →
        ((paths S .empty).map fun s => g s * Factor.product later s).sum =
          ((paths (S.take n) .empty).map g).sum * (((statesBelow S.length).drop n).map w).prod := by
  -- the last node is summed out first, so the induction takes it off
  induction S using List.reverseRecOn with
  | nil =>
      intro later hnodes _
      obtain rfl : later = [] := by simpa [statesBelow] using hnodes
      simp [Factor.product, statesBelow]
  | append_singleton S c ih =>
      intro later hnodes hsum
      rw [List.length_append, List.length_singleton, statesBelow_succ] at hnodes ⊢
      by_cases hcut : n ≤ S.length
      · have hlen : n ≤ (statesBelow S.length).length := by simpa using hcut
        rw [List.drop_append_of_le_length hlen] at hnodes ⊢
        rw [List.take_append_of_le_length hcut]
        obtain ⟨earlier, last, rfl, hearlier, hlast⟩ := List.map_eq_append_iff.1 hnodes
        obtain ⟨φ, rfl, hφ⟩ := List.map_eq_singleton_iff.1 hlast
        have hinit : ∀ ψ ∈ earlier, ψ.SumsTo S (w ψ.node) ∧ InRange S.length ψ.node := by
          intro ψ hψ
          have hnode : InRange S.length ψ.node := by
            have hmem : ψ.node ∈ (statesBelow S.length).drop n := hearlier ▸ List.mem_map_of_mem hψ
            exact mem_statesBelow.1 (List.mem_of_mem_drop hmem)
          exact ⟨(hsum ψ (List.mem_append_left _ hψ)).init hnode, hnode⟩
        have hprod := ih hearlier fun ψ hψ => (hinit ψ hψ).1
        -- the states of the last node, which its own factor reads only
        have hinner : ∀ s ∈ paths S .empty,
            ((statesBelow c).map fun k => g (s ++ [k]) * Factor.product (earlier ++ [φ]) (s ++ [k])).sum =
              g s * Factor.product earlier s * w S.length := by
          intro s hs
          have hin := mem_paths_empty.1 hs
          have hown := (hsum φ (List.mem_append_right _ List.mem_cons_self)).sum s
          rw [hφ, Int.toNat_natCast, List.take_left, entry_append_self] at hown
          rw [← hown hin, ← List.sum_map_mul_left]
          congr 1
          apply List.map_congr_left
          intro k _
          have hlast : g (s ++ [k]) = g s := by
            apply hg
            intro i h0 hi
            refine entry_append_left ⟨h0, ?_⟩ [k]
            rw [hin.length_eq]
            exact lt_of_lt_of_le hi (by exact_mod_cast hcut)
          rw [hlast, ← Factor.product_append_singleton hinit hin.length_eq k]
          simp [Factor.product, mul_assoc]
        rw [paths_append_singleton, List.map_flatMap, List.flatMap_def, List.sum_flatten, List.map_map,
          List.map_append, List.prod_append, List.map_singleton, List.prod_singleton, ← mul_assoc, ← hprod,
          ← List.sum_map_mul_right]
        congr 1
        apply List.map_congr_left
        intro s hs
        rw [Function.comp_apply, List.map_map]
        exact hinner s hs
      · -- the cut is behind the last node, and no factor is left
        have hnone : (statesBelow S.length ++ [(S.length : Int)]).drop n = [] := by
          apply List.drop_eq_nil_of_le
          simp only [List.length_append, length_statesBelow, List.length_singleton]
          omega
        have hall : (S ++ [c]).take n = S ++ [c] := by
          apply List.take_of_length_le
          rw [List.length_append, List.length_singleton]
          omega
        rw [hnone] at hnodes ⊢
        obtain rfl : later = [] := List.map_eq_nil_iff.1 hnodes
        simp [Factor.product, hall]

/-- Factors can be put in the order of their nodes. -/
theorem exists_aligned {factors : List Factor} {nodes : List Node}
    (h : (factors.map Factor.node).Perm nodes) :
    ∃ fs : List Factor, fs.Perm factors ∧ fs.map Factor.node = nodes := by
  have hforall : List.Forall₂ (fun (i : Node) (φ : Factor) => i = φ.node) (factors.map Factor.node) factors := by
    rw [List.forall₂_map_left_iff, List.forall₂_same]
    exact fun _ _ => rfl
  obtain ⟨fs, hfs, hperm⟩ := List.perm_comp_forall₂ h.symm hforall
  refine ⟨fs, hperm, ?_⟩
  rw [← List.forall₂_eq_eq_eq, List.forall₂_map_left_iff]
  exact hfs.flip.imp fun _ _ h => h.symm

theorem Factor.product_perm {xs ys : List Factor} (h : xs.Perm ys) : product xs = product ys := by
  funext s
  exact (h.map fun φ : Factor => φ.value s).prod_eq

/-- **Elimination from a cut on.** The factors of the nodes from the cut on are summed out, in whatever order
they are given, in a sum with anything that reads earlier nodes only. -/
theorem sum_mul_product_later {S : StateCounts} {n : Nat} {later : List Factor} (w : Node → Rat)
    {g : Path → Rat} (hg : ∀ s t : Path, (∀ i : Int, 0 ≤ i → i < n → entry s i = entry t i) → g s = g t)
    (hnodes : (later.map Factor.node).Perm ((statesBelow S.length).drop n))
    (hsum : ∀ φ ∈ later, φ.SumsTo S (w φ.node)) :
    ((paths S .empty).map fun s => g s * Factor.product later s).sum =
      ((paths (S.take n) .empty).map g).sum * (((statesBelow S.length).drop n).map w).prod := by
  obtain ⟨aligned, hperm, hmap⟩ := exists_aligned hnodes
  rw [Factor.product_perm hperm.symm]
  exact sum_mul_product_of_aligned w hg S hmap fun φ hφ => hsum φ (hperm.mem_iff.1 hφ)

/-- **Elimination.** With one factor for each node of the state space, the products of all factors sum up,
over all paths, to the product of what the factors sum up to. -/
theorem sum_product_factors {S : StateCounts} {factors : List Factor} (w : Node → Rat)
    (hnodes : (factors.map Factor.node).Perm (statesBelow S.length))
    (hsum : ∀ φ ∈ factors, φ.SumsTo S (w φ.node)) :
    ((paths S .empty).map (Factor.product factors)).sum = ((statesBelow S.length).map w).prod := by
  -- everything comes from the cut before the first node on
  have h := sum_mul_product_later (n := 0) (g := fun _ => 1) w (fun _ _ _ => rfl) hnodes hsum
  simpa [paths_empty, choices] using h

end InfluenceDiagrams
