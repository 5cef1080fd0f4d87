import InfluenceDiagrams.Proofs.Path.Grouping

/-!
# `InfluenceDiagrams.Proofs.Path.Partition` — no path is lost between the groups

The links between paths and decisions are built from groups of paths: a path that is lost, or is in two groups,
changes the program. The groups are a partition of the given paths. What carries the proof is that one more path
either goes to the end of its group or opens a new group after all others.

## Contents
- **`Keyed.upsert_of_mem`** — merging under a key that is there changes one pair.
- **`nth?_isSome`, `subPath?_isSome`** — which nodes have a state in a path, counted from either end.
- **`Partition`** — the groups of a sequence of paths; **`Partition.empty`**, **`Partition.place`** (one more path).
- **`groupBy?_partition`** — grouping gives a partition, by induction on the paths from the last one back.
-/

namespace InfluenceDiagrams

/-- If the key is there, its first pair is merged into, and the other pairs stay as they are. -/
theorem Keyed.upsert_of_mem {κ β : Type} [BEq κ] [LawfulBEq κ] {key : κ} {pairs : List (κ × β)}
    (h : key ∈ pairs.map Prod.fst) (new : β) (merge : β → β) :
    ∃ front b back, pairs = front ++ (key, b) :: back ∧
      upsert key new merge pairs = front ++ (key, merge b) :: back := by
  induction pairs with
  | nil => cases h
  | cons p pairs ih =>
      obtain ⟨k, b⟩ := p
      by_cases hk : (k == key) = true
      · obtain rfl := eq_of_beq hk
        exact ⟨[], b, pairs, rfl, by rw [upsert, if_pos hk]; rfl⟩
      · have hkey : key ∈ pairs.map Prod.fst := by
          rw [List.map_cons, List.mem_cons] at h
          exact h.resolve_left fun heq => hk (beq_iff_eq.2 heq.symm)
        obtain ⟨front, c, back, hpairs, hups⟩ := ih hkey
        refine ⟨(k, b) :: front, c, back, ?_, ?_⟩
        · rw [hpairs, List.cons_append]
        · rw [upsert, if_neg hk, hups, List.cons_append]

/-! ## Nodes in range -/

theorem nth?_isSome {β : Type} {xs : List β} {k : Int} :
    (nth? xs k).isSome = true ↔ -(xs.length : Int) ≤ k ∧ k < xs.length := by
  rw [← position?_isSome, nth?]
  cases hi : position? xs.length k with
  | none => rfl
  | some i => simp [position?_lt hi]

/-- A path has states at nodes in range. -/
theorem subPath?_isSome {s : Path} {nodes : List Node} (h : ∀ k ∈ nodes, -(s.length : Int) ≤ k ∧ k < s.length) :
    ∃ part, subPath? s nodes = some part := by
  have hnth : ∀ k ∈ nodes, nth? s k = pure ((nth? s k).getD 0) := by
    intro k hk
    obtain ⟨x, hx⟩ := Option.isSome_iff_exists.1 (nth?_isSome.2 (h k hk))
    rw [hx]
    rfl
  exact ⟨_, mapM_eq_pure hnth⟩

/-! ## Partitions -/

/-- Groups are a partition of paths by a part: the keys are the parts of the paths, in the order of the first path
with that part; a group has the paths with its part, as often and in the order in which they were given; and
together the groups have the given paths, each as often as it was given. -/
structure Partition (part : Path → Option Path) (ss : List Path) (groups : List (Path × List Path)) : Prop where
  keys : ∀ key, key ∈ groups.map Prod.fst ↔ ∃ s ∈ ss, part s = some key
  order : (groups.map Prod.fst).Pairwise fun a b =>
    ss.findIdx (fun s => part s == some a) < ss.findIdx (fun s => part s == some b)
  group : ∀ g ∈ groups, g.2 = ss.filter (fun s => part s == some g.1)
  perm : (groups.flatMap Prod.snd).Perm ss

namespace Partition

variable {part : Path → Option Path} {ss : List Path} {groups : List (Path × List Path)} {s : Path} {key : Path}

theorem empty (part : Path → Option Path) : Partition part [] [] where
  keys := fun key => by simp
  order := .nil
  group := fun g hg => absurd hg List.not_mem_nil
  perm := .refl []

/-- No key is repeated. -/
theorem distinct (h : Partition part ss groups) : (groups.map Prod.fst).Nodup :=
  h.order.imp fun hlt heq => by
    subst heq
    exact lt_irrefl _ hlt

/-- No group is empty. -/
theorem nonempty (h : Partition part ss groups) : ∀ g ∈ groups, g.2 ≠ [] := by
  intro g hg hnil
  obtain ⟨s, hs, hpart⟩ := (h.keys g.1).1 (List.mem_map_of_mem hg)
  rw [h.group g hg, List.filter_eq_nil_iff] at hnil
  exact hnil s hs (beq_iff_eq.2 hpart)

theorem findIdx_lt (h : ∃ t ∈ ss, part t = some key) : ss.findIdx (fun t => part t == some key) < ss.length := by
  obtain ⟨t, ht, hpart⟩ := h
  refine List.findIdx_lt_length_of_exists ⟨t, ht, ?_⟩
  rw [hpart]
  exact beq_self_eq_true _

/-- The first path with a part that has been seen is where it was. -/
theorem findIdx_append (h : ∃ t ∈ ss, part t = some key) :
    (ss ++ [s]).findIdx (fun t => part t == some key) = ss.findIdx fun t => part t == some key := by
  rw [List.findIdx_append]
  exact if_pos (findIdx_lt h)

/-- A path of another part does not come into a group. -/
theorem filter_append_ne {other : Path} (hs : part s = some key) (hne : other ≠ key) :
    (ss ++ [s]).filter (fun t => part t == some other) = ss.filter fun t => part t == some other := by
  have hlast : (part s == some other) = false := by
    rw [hs, beq_eq_false_iff_ne]
    exact fun heq => hne (Option.some.inj heq).symm
  rw [List.filter_append, List.filter_singleton, hlast]
  exact List.append_nil _

/-- The path comes to the end of its group. -/
theorem filter_append_self (hs : part s = some key) :
    (ss ++ [s]).filter (fun t => part t == some key) = ss.filter (fun t => part t == some key) ++ [s] := by
  have hlast : (part s == some key) = true := by
    rw [hs]
    exact beq_self_eq_true _
  rw [List.filter_append, List.filter_singleton, hlast]
  rfl

/-- Once a path of the same part has been seen, one more path opens no group. -/
theorem keys_append (hs : part s = some key) (hseen : ∃ t ∈ ss, part t = some key) {other : Path} :
    (∃ t ∈ ss ++ [s], part t = some other) ↔ ∃ t ∈ ss, part t = some other := by
  constructor
  · rintro ⟨t, ht, hpart⟩
    rcases List.mem_append.1 ht with ht | ht
    · exact ⟨t, ht, hpart⟩
    · rw [List.mem_singleton.1 ht, hs] at hpart
      rwa [← Option.some.inj hpart]
  · rintro ⟨t, ht, hpart⟩
    exact ⟨t, List.mem_append_left _ ht, hpart⟩

/-- A path of a part that has been seen goes to the end of its group. -/
theorem merge (h : Partition part ss groups) (hs : part s = some key) (hkey : key ∈ groups.map Prod.fst) :
    Partition part (ss ++ [s]) (Keyed.upsert key [s] (· ++ [s]) groups) := by
  have hseen := (h.keys key).1 hkey
  obtain ⟨front, b, back, rfl, hups⟩ := Keyed.upsert_of_mem hkey [s] (· ++ [s])
  have hnames : (front ++ (key, b ++ [s]) :: back).map Prod.fst = (front ++ (key, b) :: back).map Prod.fst := by
    simp
  -- a group beside the merged one has another key
  have hother : ∀ g, g ∈ front ∨ g ∈ back → g.1 ≠ key := by
    have hd := h.distinct
    rw [List.map_append, List.map_cons, List.nodup_middle, List.nodup_cons, ← List.map_append] at hd
    exact fun g hg heq => hd.1 (List.mem_map.2 ⟨g, List.mem_append.2 hg, heq⟩)
  rw [hups]
  refine ⟨?_, ?_, ?_, ?_⟩
  · intro other
    rw [hnames, h.keys, keys_append hs hseen]
  · rw [hnames]
    refine h.order.imp_of_mem fun {a c} ha hc hlt => ?_
    rwa [findIdx_append ((h.keys a).1 ha), findIdx_append ((h.keys c).1 hc)]
  · intro g hg
    rcases List.mem_append.1 hg with hg | hg
    · rw [filter_append_ne hs (hother g (.inl hg)), ← h.group g (List.mem_append_left _ hg)]
    · rcases List.mem_cons.1 hg with rfl | hg
      · have hb := h.group (key, b) (List.mem_append_right _ List.mem_cons_self)
        rw [filter_append_self hs, ← hb]
      · rw [filter_append_ne hs (hother g (.inr hg)),
          ← h.group g (List.mem_append_right _ (List.mem_cons_of_mem _ hg))]
  · -- the path at the end of its group is moved to the end of all groups
    have hflat := h.perm
    rw [List.flatMap_append, List.flatMap_cons] at hflat ⊢
    calc front.flatMap Prod.snd ++ (b ++ [s] ++ back.flatMap Prod.snd)
        = front.flatMap Prod.snd ++ b ++ ([s] ++ back.flatMap Prod.snd) := by simp only [List.append_assoc]
      _ |>.Perm (front.flatMap Prod.snd ++ b ++ (back.flatMap Prod.snd ++ [s])) :=
          List.perm_append_comm.append_left _
      _ = front.flatMap Prod.snd ++ (b ++ back.flatMap Prod.snd) ++ [s] := by simp only [List.append_assoc]
      _ |>.Perm (ss ++ [s]) := hflat.append_right _

/-- A path of a part that has not been seen opens a group after all others. -/
theorem append (h : Partition part ss groups) (hs : part s = some key) (hkey : key ∉ groups.map Prod.fst) :
    Partition part (ss ++ [s]) (Keyed.upsert key [s] (· ++ [s]) groups) := by
  have hunseen : ∀ t ∈ ss, ¬(part t == some key) = true := by
    intro t ht hpart
    exact hkey ((h.keys key).2 ⟨t, ht, beq_iff_eq.1 hpart⟩)
  rw [Keyed.upsert_of_not_mem hkey]
  refine ⟨?_, ?_, ?_, ?_⟩
  · intro other
    rw [List.map_append, List.mem_append, h.keys]
    simp [or_and_right, exists_or, hs, eq_comm]
  · rw [List.map_append, List.pairwise_append]
    refine ⟨h.order.imp_of_mem fun {a c} ha hc hlt => ?_, List.pairwise_singleton _ _, ?_⟩
    · rwa [findIdx_append ((h.keys a).1 ha), findIdx_append ((h.keys c).1 hc)]
    · intro a ha c hc
      rw [List.mem_singleton.1 hc, findIdx_append ((h.keys a).1 ha)]
      -- the new key is first met at the end, where no older key is
      have hlate : ss.length ≤ (ss ++ [s]).findIdx fun t => part t == some key := by
        rw [List.findIdx_append, List.findIdx_eq_length.2 fun t ht => Bool.eq_false_iff.2 (hunseen t ht),
          if_neg (lt_irrefl _)]
        exact Nat.le_add_left _ _
      exact lt_of_lt_of_le (findIdx_lt ((h.keys a).1 ha)) hlate
  · intro g hg
    rcases List.mem_append.1 hg with hg | hg
    · have hne : g.1 ≠ key := fun heq => hkey (heq ▸ List.mem_map_of_mem hg)
      rw [filter_append_ne hs hne, ← h.group g hg]
    · rw [List.mem_singleton.1 hg, filter_append_self hs, List.filter_eq_nil_iff.2 hunseen]
      rfl
  · rw [List.flatMap_append]
    exact h.perm.append_right _

/-- **One more path** keeps the groups a partition. -/
theorem place (h : Partition part ss groups) (hs : part s = some key) :
    Partition part (ss ++ [s]) (Keyed.upsert key [s] (· ++ [s]) groups) := by
  by_cases hkey : key ∈ groups.map Prod.fst
  · exact h.merge hs hkey
  · exact h.append hs hkey

end Partition

/-- **Grouping is a partition.** Grouping paths by nodes that are in range in all of them, counted from either end,
comes to an end. The keys of the groups are the sub-paths at these nodes in the order of first appearance, none of them
twice; a group has the paths with its sub-path, in the given order and as often as they were given; no group is empty;
and the groups one after the other are the given paths in another order. -/
theorem groupBy?_partition {ss : List Path} {nodes : List Node}
    (h : ∀ s ∈ ss, ∀ k ∈ nodes, -(s.length : Int) ≤ k ∧ k < s.length) :
    ∃ groups, groupBy? ss nodes = some groups ∧ Partition (subPath? · nodes) ss groups ∧
      (groups.map Prod.fst).Nodup ∧ ∀ g ∈ groups, g.2 ≠ [] := by
  suffices hrun : ∃ groups, groupBy? ss nodes = some groups ∧ Partition (subPath? · nodes) ss groups by
    obtain ⟨groups, hgroups, hpart⟩ := hrun
    exact ⟨groups, hgroups, hpart, hpart.distinct, hpart.nonempty⟩
  -- grouping goes from the left, so the induction takes the last path off
  induction ss using List.reverseRecOn with
  | nil => exact ⟨[], rfl, .empty _⟩
  | append_singleton ss s ih =>
      rw [List.forall_mem_append, List.forall_mem_singleton] at h
      obtain ⟨groups, hgroups, hpart⟩ := ih h.1
      obtain ⟨key, hkey⟩ := subPath?_isSome h.2
      refine ⟨_, ?_, hpart.place hkey⟩
      rw [groupBy?] at hgroups ⊢
      rw [List.foldlM_append, hgroups]
      simp [hkey]

/-- Three paths over three nodes, one of them given twice, by the first node and the last. -/
theorem groupBy?_partition_repeated :
    groupBy? [[0, 1, 1], [1, 0, 0], [0, 1, 1], [0, 0, 1]] [0, -1] =
        some [([0, 1], [[0, 1, 1], [0, 1, 1], [0, 0, 1]]), ([1, 0], [[1, 0, 0]])] ∧
      ∃ groups, groupBy? [[0, 1, 1], [1, 0, 0], [0, 1, 1], [0, 0, 1]] [0, -1] = some groups ∧
        Partition (subPath? · [0, -1]) [[0, 1, 1], [1, 0, 0], [0, 1, 1], [0, 0, 1]] groups ∧
        (groups.map Prod.fst).Nodup ∧ ∀ g ∈ groups, g.2 ≠ [] :=
  ⟨by decide, groupBy?_partition (by decide)⟩

end InfluenceDiagrams
