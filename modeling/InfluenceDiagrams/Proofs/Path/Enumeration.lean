import Mathlib.Data.List.Sort
import Mathlib.Tactic.Ring
import InfluenceDiagrams.Path.Listing

/-!
# `InfluenceDiagrams.Proofs.Path.Enumeration` — which paths are listed, and in which order

Paths are lists of integers whose places are nodes. In range, looking up a node is reading a list
(`entry`), and everything that is said about a path is said through its entries.

## Contents
- **`entry`** — the entry of a list at a node; `nth?_eq_entry`, `replace?_eq_set`, `subPath?_eq_map`.
- **`InRange`, `InSpace`** — a number counts something of so many; a path has an admissible state for
  every node of a state space.
- **`mem_choices`, `choices_sorted`** — choices are the lists taken from the domains, in ascending order.
- **`mem_paths_iff`, `paths_sorted`, `length_paths`** — the listed paths are the paths in space that agree
  with the fixed states, strictly ascending, as many as the product says.
-/

namespace InfluenceDiagrams

/-! ## Entries -/

/-- The integer is one of `0, …, n - 1`. -/
def InRange (n k : Int) : Prop := 0 ≤ k ∧ k < n

instance (n k : Int) : Decidable (InRange n k) := inferInstanceAs (Decidable (0 ≤ k ∧ k < n))

/-- The entry of a list at a node. It is the state of the node if the list is a path, and the number of
its states if the list holds the state counts. Outside the list it is zero. -/
def entry (xs : List Int) (k : Node) : Int := xs.getD k.toNat 0

theorem InRange.toNat_lt {n : Nat} {k : Int} (h : InRange n k) : k.toNat < n := by
  have h0 := h.1
  have hn := h.2
  omega

theorem inRange_natCast {n i : Nat} (h : i < n) : InRange n i := by
  constructor <;> omega

theorem entry_natCast (xs : List Int) (i : Nat) : entry xs (i : Int) = xs.getD i 0 := by
  rw [entry, Int.toNat_natCast]

theorem entry_eq_getElem {xs : List Int} {k : Node} (h : k.toNat < xs.length) :
    entry xs k = xs[k.toNat] := by
  simp [entry, h]

theorem position?_eq {n : Nat} {k : Int} (h : InRange n k) : position? n k = some k.toNat := by
  simp [position?, h.1, h.2]

/-- The positions among `n` places are those from `-n` on to `n - 1`. -/
theorem position?_isSome {n : Nat} {k : Int} : (position? n k).isSome = true ↔ -(n : Int) ≤ k ∧ k < n := by
  rw [position?]
  split
  · split
    · exact iff_of_true rfl (by omega)
    · exact iff_of_false (by simp) (by omega)
  · split
    · exact iff_of_true rfl (by omega)
    · exact iff_of_false (by simp) (by omega)

theorem nth?_eq_entry {xs : List Int} {k : Node} (h : InRange xs.length k) :
    nth? xs k = some (entry xs k) := by
  rw [nth?, position?_eq h, entry_eq_getElem h.toNat_lt]
  simp [h.toNat_lt]

theorem replace?_eq_set {xs : List Int} {k : Node} (h : InRange xs.length k) (x : Int) :
    replace? xs k x = some (xs.set k.toNat x) := by
  rw [replace?, position?_eq h]
  rfl

/-- Computations that all succeed succeed together. -/
theorem mapM_eq_pure {m : Type → Type} [Monad m] [LawfulMonad m] {β γ : Type} {f : β → m γ} {g : β → γ}
    {xs : List β} (h : ∀ x ∈ xs, f x = pure (g x)) : xs.mapM f = pure (xs.map g) := by
  induction xs with
  | nil => simp
  | cons x xs ih =>
      rw [List.mapM_cons, h x List.mem_cons_self, ih fun y hy => h y (List.mem_cons_of_mem _ hy)]
      simp

/-- Computations that succeed together succeed one by one. -/
theorem forall₂_of_mapM_ok {ε β γ : Type} {f : β → Except ε γ} {xs : List β} {ys : List γ}
    (h : xs.mapM f = .ok ys) : List.Forall₂ (fun x y => f x = .ok y) xs ys := by
  induction xs generalizing ys with
  | nil =>
      obtain rfl := Except.ok.inj h
      exact .nil
  | cons x xs ih =>
      rw [List.mapM_cons] at h
      cases hx : f x with
      | error e =>
          rw [hx] at h
          cases h
      | ok y =>
          rw [hx] at h
          cases hxs : xs.mapM f with
          | error e =>
              rw [hxs] at h
              cases h
          | ok ys =>
              rw [hxs] at h
              obtain rfl := Except.ok.inj h
              exact .cons hx (ih hxs)

/-- Steps that all succeed make a run that succeeds. -/
theorem foldlM_eq_pure {m : Type → Type} [Monad m] [LawfulMonad m] {σ β : Type} {f : σ → β → m σ}
    {g : σ → β → σ} {xs : List β} (h : ∀ acc, ∀ x ∈ xs, f acc x = pure (g acc x)) :
    ∀ acc, xs.foldlM f acc = pure (xs.foldl g acc) := by
  induction xs with
  | nil => intro acc; simp
  | cons x xs ih =>
      intro acc
      rw [List.foldlM_cons, h acc x List.mem_cons_self, pure_bind, List.foldl_cons]
      exact ih (fun a y hy => h a y (List.mem_cons_of_mem _ hy)) _

theorem subPath?_eq_map {s : Path} {nodes : List Node} (h : ∀ k ∈ nodes, InRange s.length k) :
    subPath? s nodes = some (nodes.map (entry s)) :=
  mapM_eq_pure fun k hk => nth?_eq_entry (h k hk)

theorem entry_set_self {xs : List Int} {k : Node} (hk : k.toNat < xs.length) (x : Int) :
    entry (xs.set k.toNat x) k = x := by
  simp [entry, hk]

theorem entry_set_ne {xs : List Int} {k i : Int} (h0 : 0 ≤ k) (hi : 0 ≤ i) (hne : i ≠ k) (x : Int) :
    entry (xs.set k.toNat x) i = entry xs i := by
  have : k.toNat ≠ i.toNat := by omega
  simp [entry, List.getD_eq_getElem?_getD, List.getElem?_set_ne this]

/-- Lists of one length with the same entries are equal. -/
theorem ext_entry {xs ys : List Int} (hlen : xs.length = ys.length)
    (h : ∀ k, InRange xs.length k → entry xs k = entry ys k) : xs = ys := by
  apply List.ext_getElem hlen
  intro i hx hy
  have := h (i : Int) (inRange_natCast hx)
  simpa [entry, hx, hy] using this

/-! ## Admissible states -/

theorem mem_statesBelow {n k : Int} : k ∈ statesBelow n ↔ InRange n k := by
  -- the states are integers, the range is one of naturals
  simp only [statesBelow, List.mem_map, List.mem_range, Int.ofNat_eq_natCast]
  constructor
  · rintro ⟨i, hi, rfl⟩
    constructor <;> lia
  · rintro ⟨h0, hn⟩
    exact ⟨k.toNat, by omega, by lia⟩

theorem statesBelow_sorted (n : Int) : (statesBelow n).Pairwise (· < ·) := by
  rw [statesBelow, List.pairwise_map]
  exact List.pairwise_lt_range.imp fun h => by simpa using h

@[simp] theorem length_statesBelow (n : Int) : (statesBelow n).length = n.toNat := by
  simp [statesBelow]

theorem statesBelow_nodup (n : Int) : (statesBelow n).Nodup :=
  (statesBelow_sorted n).imp fun h => ne_of_lt h

theorem map_entry_statesBelow (S : List Int) : (statesBelow S.length).map (entry S) = S := by
  apply List.ext_getElem (by simp)
  intro i hi hi'
  simp [statesBelow, entry, hi']

/-- A list with an entry for each state has the entry for a state at the place of the state. -/
theorem nth?_map_statesBelow {β : Type} {n k : Int} (hk : InRange n k) (g : State → β) :
    nth? ((statesBelow n).map g) k = some (g k) := by
  have h0 := hk.1
  have hlt := hk.2
  have hlen : ((statesBelow n).map g).length = n.toNat := by simp
  rw [nth?, hlen, position?_eq (n := n.toNat) ⟨h0, by omega⟩, Option.bind_some, statesBelow, List.map_map,
    List.getElem?_map, List.getElem?_range (by omega)]
  simp [h0]

/-- A path has one state for every node of a state space, each below the count of its node. -/
structure InSpace (S : StateCounts) (s : Path) : Prop where
  length_eq : s.length = S.length
  inRange_entry : ∀ k, InRange S.length k → InRange (entry S k) (entry s k)

theorem InSpace.subPath? {S : StateCounts} {s : Path} (h : InSpace S s) {nodes : List Node}
    (hn : ∀ k ∈ nodes, InRange S.length k) : subPath? s nodes = some (nodes.map (entry s)) :=
  subPath?_eq_map (by rw [h.length_eq]; exact hn)

theorem InSpace.nth? {S : StateCounts} {s : Path} (h : InSpace S s) {k : Node}
    (hk : InRange S.length k) : nth? s k = some (entry s k) :=
  nth?_eq_entry (by rw [h.length_eq]; exact hk)

/-- Writing an admissible state keeps a path in space. -/
theorem InSpace.set {S : StateCounts} {s : Path} (h : InSpace S s) {k : Int} (hk : InRange S.length k)
    {x : State} (hx : InRange (entry S k) x) : InSpace S (s.set k.toNat x) := by
  refine ⟨by rw [List.length_set, h.length_eq], ?_⟩
  intro i hi
  by_cases hne : i = k
  · subst hne
    rw [entry_set_self (by rw [h.length_eq]; exact hk.toNat_lt)]
    exact hx
  · rw [entry_set_ne hk.1 hi.1 hne]
    exact h.inRange_entry i hi

/-! ## Choices -/

theorem mem_choices {β : Type} {domains : List (List β)} :
    ∀ {s : List β}, s ∈ choices domains ↔ List.Forall₂ (fun x xs => x ∈ xs) s domains := by
  induction domains with
  | nil => intro s; simp [choices]
  | cons xs domains ih =>
      intro s
      simp only [choices, List.mem_flatMap, List.mem_map]
      constructor
      · rintro ⟨x, hx, tail, htail, rfl⟩
        exact .cons hx (ih.1 htail)
      · rintro (_ | ⟨hx, htail⟩)
        exact ⟨_, hx, _, ih.2 htail, rfl⟩

theorem length_choices {β : Type} (domains : List (List β)) :
    (choices domains).length = (domains.map List.length).prod := by
  induction domains with
  | nil => rfl
  | cons xs domains ih => simp [choices, List.length_flatMap, ih]

/-- Choices from ascending domains are in strictly ascending lexicographic order. -/
theorem choices_sorted {domains : List (List Int)} (h : ∀ xs ∈ domains, xs.Pairwise (· < ·)) :
    (choices domains).Pairwise (· < ·) := by
  induction domains with
  | nil => exact List.pairwise_singleton _ _
  | cons xs domains ih =>
      have ih := ih fun ys hys => h ys (List.mem_cons_of_mem _ hys)
      -- choices with the same first entry are in order by the rest, others by the first entry
      rw [choices, List.pairwise_flatMap]
      constructor
      · intro x _
        rw [List.pairwise_map]
        exact ih.imp fun hlt => List.cons_lt_cons_iff.2 (Or.inr ⟨rfl, hlt⟩)
      · refine (h xs List.mem_cons_self).imp ?_
        intro a b hab s hs t ht
        obtain ⟨s', -, rfl⟩ := List.mem_map.1 hs
        obtain ⟨t', -, rfl⟩ := List.mem_map.1 ht
        exact List.cons_lt_cons_iff.2 (Or.inl hab)

/-! ## Paths -/

theorem FixedStates.fixes_eq_isSome (fixed : FixedStates) (k : Node) :
    fixed.fixes k = (fixed.state? k).isSome := by
  unfold FixedStates.fixes FixedStates.state?
  induction fixed.pairs with
  | nil => rfl
  | cons p pairs ih =>
      obtain ⟨i, v⟩ := p
      by_cases h : (i == k) = true
      · simp [Keyed.hasKey, Keyed.find?, h]
      · rw [Bool.not_eq_true] at h
        simpa [Keyed.hasKey, Keyed.find?, h] using ih

theorem FixedStates.mem_of_state? {fixed : FixedStates} {k : Node} {v : State}
    (h : fixed.state? k = some v) : (k, v) ∈ fixed.pairs := by
  unfold FixedStates.state? at h
  generalize fixed.pairs = pairs at h ⊢
  induction pairs with
  | nil => cases h
  | cons p pairs ih =>
      obtain ⟨i, w⟩ := p
      unfold Keyed.find? at h
      split at h
      · rename_i hik
        cases eq_of_beq hik
        cases h
        exact List.mem_cons_self
      · exact List.mem_cons_of_mem _ (ih h)

/-- Every fixed node is in the state space, and its state is one of its states. -/
def FixedStates.Within (fixed : FixedStates) (S : StateCounts) : Prop :=
  ∀ p ∈ fixed.pairs, InRange S.length p.1 ∧ InRange (entry S p.1) p.2

/-- A path has the fixed state at every fixed node. -/
def FixedStates.Agrees (fixed : FixedStates) (s : Path) : Prop :=
  ∀ k v, fixed.state? k = some v → entry s k = v

theorem FixedStates.within_empty (S : StateCounts) : FixedStates.empty.Within S := by
  intro p hp
  cases hp

theorem FixedStates.agrees_empty (s : Path) : FixedStates.empty.Agrees s := by
  intro k v h
  cases h

theorem domain_sorted (fixed : FixedStates) (k : Node) (n : Int) :
    (domain fixed k n).Pairwise (· < ·) := by
  unfold domain
  split
  · exact List.pairwise_singleton _ _
  · exact statesBelow_sorted n

theorem domains_sorted (fixed : FixedStates) (S : StateCounts) :
    ∀ first, ∀ xs ∈ domains fixed first S, xs.Pairwise (· < ·) := by
  induction S with
  | nil => intro first xs h; cases h
  | cons n S ih =>
      intro first xs h
      rcases List.mem_cons.1 h with rfl | h
      · exact domain_sorted fixed first n
      · exact ih (first + 1) xs h

/-- The paths over a state space are listed in strictly ascending lexicographic order. -/
theorem paths_sorted (S : StateCounts) (fixed : FixedStates) : (paths S fixed).Pairwise (· < ·) :=
  choices_sorted (domains_sorted fixed S 0)

theorem paths_nodup (S : StateCounts) (fixed : FixedStates) : (paths S fixed).Nodup :=
  (paths_sorted S fixed).nodup

theorem mem_choices_domains (fixed : FixedStates) (S : StateCounts) :
    ∀ (first : Nat) (s : Path), s ∈ choices (domains fixed first S) ↔
      s.length = S.length ∧
        ∀ i, i < S.length → s.getD i 0 ∈ domain fixed ((first + i : Nat) : Int) (S.getD i 0) := by
  induction S with
  | nil => intro first s; simp [domains, choices]
  | cons n S ih =>
      intro first s
      rw [mem_choices, domains]
      cases s with
      | nil => simp
      | cons x s =>
          -- the places of the tail are one further on, and so are the nodes whose states may be fixed
          rw [List.forall₂_cons, ← mem_choices, ih (first + 1) s]
          constructor
          · rintro ⟨hx, hlen, h⟩
            refine ⟨by simp [hlen], ?_⟩
            intro i hi
            cases i with
            | zero => simpa using hx
            | succ i =>
                have := h i (by simpa using hi)
                rw [Nat.add_right_comm, Nat.add_assoc] at this
                simpa using this
          · rintro ⟨hlen, h⟩
            refine ⟨by simpa using h 0 (by simp), by simpa using hlen, ?_⟩
            intro i hi
            have := h (i + 1) (by simpa using hi)
            rw [← Nat.add_assoc, Nat.add_right_comm] at this
            simpa using this

theorem mem_paths {S : StateCounts} {fixed : FixedStates} {s : Path} :
    s ∈ paths S fixed ↔ s.length = S.length ∧
      ∀ k, InRange S.length k → entry s k ∈ domain fixed k (entry S k) := by
  rw [paths, mem_choices_domains]
  refine and_congr_right fun _ => ⟨?_, ?_⟩
  · intro h k hk
    have := h k.toNat hk.toNat_lt
    rwa [Nat.zero_add, Int.toNat_of_nonneg hk.1] at this
  · intro h i hi
    rw [Nat.zero_add, ← entry_natCast, ← entry_natCast]
    exact h (i : Int) (inRange_natCast hi)

/-- The listed paths are the paths in space that agree with the fixed states. -/
theorem mem_paths_iff {S : StateCounts} {fixed : FixedStates} (hf : fixed.Within S) {s : Path} :
    s ∈ paths S fixed ↔ InSpace S s ∧ fixed.Agrees s := by
  rw [mem_paths]
  constructor
  · rintro ⟨hlen, h⟩
    -- a fixed node has a domain of one state, which is in range by `Within`
    have hagree : fixed.Agrees s := by
      intro k v hk
      have := h k (hf _ (FixedStates.mem_of_state? hk)).1
      simpa [domain, hk] using this
    refine ⟨⟨hlen, ?_⟩, hagree⟩
    intro k hk
    have hmem := h k hk
    unfold domain at hmem
    split at hmem
    · rename_i v hv
      rw [hagree k v hv]
      exact (hf _ (FixedStates.mem_of_state? hv)).2
    · exact mem_statesBelow.1 hmem
  · rintro ⟨hs, hagree⟩
    refine ⟨hs.length_eq, ?_⟩
    intro k hk
    unfold domain
    split
    · rename_i v hv
      exact List.mem_singleton.2 (hagree k v hv)
    · exact mem_statesBelow.2 (hs.inRange_entry k hk)

theorem domains_empty (S : StateCounts) : ∀ first, domains .empty first S = S.map statesBelow := by
  induction S with
  | nil => intro first; rfl
  | cons n S ih =>
      intro first
      rw [domains, ih]
      rfl

theorem paths_empty (S : StateCounts) : paths S .empty = choices (S.map statesBelow) := by
  rw [paths, domains_empty]

theorem mem_paths_empty {S : StateCounts} {s : Path} : s ∈ paths S .empty ↔ InSpace S s := by
  rw [mem_paths_iff (FixedStates.within_empty S)]
  exact and_iff_left (FixedStates.agrees_empty s)

/-! ## How many paths there are -/

theorem length_domain (fixed : FixedStates) (k : Node) {n : Int} (hn : 0 ≤ n) :
    ((domain fixed k n).length : Int) = if fixed.fixes k then 1 else n := by
  rw [FixedStates.fixes_eq_isSome]
  unfold domain
  split
  · rename_i v hv
    simp [hv]
  · rename_i hv
    simp [hv, hn]

theorem prod_length_domains (fixed : FixedStates) {S : StateCounts} (h : ∀ n ∈ S, 0 ≤ n) :
    ∀ first : Nat, ((((domains fixed first S).map List.length).prod : Nat) : Int) =
      countFrom fixed first S := by
  induction S with
  | nil => intro first; rfl
  | cons n S ih =>
      intro first
      have ih := ih (fun k hk => h k (List.mem_cons_of_mem _ hk)) (first + 1)
      -- node by node, since the node that a count belongs to is where the recursion stands
      rw [domains, List.map_cons, List.prod_cons, Nat.cast_mul, ih,
        length_domain fixed first (h n List.mem_cons_self), countFrom]

/-- There are as many paths as the product of the counts of the nodes that are not fixed. -/
theorem length_paths {S : StateCounts} (fixed : FixedStates) (h : ∀ n ∈ S, 0 ≤ n) :
    ((paths S fixed).length : Int) = numPaths S fixed := by
  rw [paths, length_choices, prod_length_domains fixed h, numPaths]

theorem numPaths_empty (S : StateCounts) : numPaths S .empty = S.prod := by
  have h : ∀ first, countFrom .empty first S = S.prod := by
    induction S with
    | nil => intro first; rfl
    | cons n S ih =>
        intro first
        rw [countFrom, ih, List.prod_cons]
        rfl
  exact h 0

end InfluenceDiagrams
