import InfluenceDiagrams.Proofs.Strategy.Completion

/-!
# `InfluenceDiagrams.Proofs.Strategy.CompatibleOrder` — the compatible paths, and their order

Listing the compatible paths goes through the chance states in lexicographic order. The list has exactly
the paths that the strategy allows, each once. If decisions observe earlier nodes only, the first node at
which two of its paths differ is a chance node, so that the order by chance states is the order of the
paths themselves, and the list is what is left of all paths when the others are struck out.

## Contents
- **`exists_first_difference`, `lt_of_first_difference`** — lexicographic order and first differences.
- **`make_congr`** — the order of the local strategies does not matter.
- **`arranged`** — the compatible paths of a diagram; **`arranged_runnable`**, **`arranged_fillable`**: they can be gone
  through, and filled in.
- **`Fillable.toList_spec`** — listing them.
- **`Fillable.length_eq`** — how many there are.
- **`ofDiagram_toList`** — the list is that of the allowed paths.
- **`compatiblePaths_listed`** — the main statement; **`compatiblePaths_unlisted`** — a diagram whose compatible paths
  are not listed.
-/

namespace InfluenceDiagrams

/-! ## First differences -/

theorem exists_first_difference {nodes : List Int} {f g : Int → Int} (hsorted : nodes.Pairwise (· < ·))
    (h : nodes.map f < nodes.map g) : ∃ c ∈ nodes, f c < g c ∧ ∀ i ∈ nodes, i < c → f i = g i := by
  induction nodes with
  | nil => exact absurd h (List.lt_irrefl _)
  | cons a nodes ih =>
      obtain ⟨hfirst, hsorted⟩ := List.pairwise_cons.1 hsorted
      -- they differ at the first node, or agree there and differ later
      rcases List.cons_lt_cons_iff.1 h with hlt | ⟨heq, htail⟩
      · refine ⟨a, List.mem_cons_self, hlt, ?_⟩
        intro i hi hia
        rcases List.mem_cons.1 hi with rfl | hi
        · exact absurd hia (lt_irrefl _)
        · exact absurd (hfirst i hi) (not_lt_of_gt hia)
      · obtain ⟨c, hc, hlt, hbefore⟩ := ih hsorted htail
        refine ⟨c, List.mem_cons_of_mem _ hc, hlt, ?_⟩
        intro i hi hic
        rcases List.mem_cons.1 hi with rfl | hi
        · exact heq
        · exact hbefore i hi hic

theorem lt_of_first_difference {s t : List Int} (hlen : s.length = t.length) {c : Int}
    (hc : InRange s.length c) (hlt : entry s c < entry t c)
    (hbefore : ∀ i, InRange s.length i → i < c → entry s i = entry t i) : s < t := by
  have hs := hc.toNat_lt
  have ht : c.toNat < t.length := hlen ▸ hs
  refine List.lt_iff_exists.2 (Or.inr ⟨c.toNat, hs, ht, ?_, ?_⟩)
  · intro j hj
    have h0 := hc.1
    have := hbefore (j : Int) (inRange_natCast (lt_trans hj hs)) (by omega)
    simpa [entry, lt_trans hj hs, lt_trans hj ht] using this
  · rwa [entry_eq_getElem hs, entry_eq_getElem ht] at hlt

/-! ## The compatible paths of a diagram -/

/-- Only chance nodes are fixed, each to one of its states. -/
def FixedStates.OnChance {α : Type} (fixed : FixedStates) (dia : Diagram α) : Prop :=
  ∀ p ∈ fixed.pairs, p.1 ∈ dia.indices .chance ∧ InRange (entry dia.S p.1) p.2

namespace CompatiblePaths

variable {α : Type}

theorem checkFixed_eq_ok {S : StateCounts} {C : List Node} (hC : ∀ c ∈ C, InRange S.length c) :
    ∀ {pairs : List (Node × State)}, (∀ p ∈ pairs, p.1 ∈ C ∧ InRange (entry S p.1) p.2) →
      checkFixed (α := α) S C pairs = .ok () := by
  intro pairs
  induction pairs with
  | nil => intro _; rfl
  | cons p pairs ih =>
      intro h
      obtain ⟨k, v⟩ := p
      obtain ⟨hk, hv⟩ := h (k, v) List.mem_cons_self
      rw [checkFixed, if_pos (List.contains_iff_mem.2 hk), nth?_eq_entry (hC k hk)]
      dsimp only
      rw [if_pos (show 0 ≤ v ∧ v < entry S k from hv)]
      exact ih fun p hp => h p (List.mem_cons_of_mem _ hp)

/-- The compatible paths of a diagram, with chance nodes and local strategies in ascending order. -/
def arranged (dia : Diagram α) (Z : Strategy) (fixed : FixedStates) : CompatiblePaths :=
  ⟨dia.S, (dia.indices .chance).mergeSort fun a b => decide (a ≤ b),
    Z.parts.mergeSort fun a b => decide (a.node.index ≤ b.node.index), fixed⟩

/-- The local strategies may be given in any order. -/
theorem make_congr {Y Z : Strategy} (hperm : Y.parts.Perm Z.parts)
    (hnodup : (Z.parts.map fun z => z.node.index).Nodup) (S : StateCounts) (C : List Node) (fixed : FixedStates) :
    make (α := α) S C Y fixed = make S C Z fixed := by
  rw [make, make, mergeSort_congr (fun z : LocalStrategy => z.node.index) (fun _ _ => decide_eq_true_iff) hperm hnodup]

section Arranged

variable {dia : Diagram α} {Z : Strategy} {fixed : FixedStates}

theorem arranged_chance_perm : (arranged dia Z fixed).C.Perm (dia.indices .chance) := List.mergeSort_perm _ _

theorem arranged_parts_perm : (arranged dia Z fixed).parts.Perm Z.parts := List.mergeSort_perm _ _

theorem arranged_chance_inRange (hacc : dia.Accepted) :
    ∀ c ∈ (arranged dia Z fixed).C, InRange dia.S.length c :=
  fun _ hc => hacc.chance_inRange (arranged_chance_perm.mem_iff.1 hc)

/-- Fixed chance states pass the check. -/
theorem ofDiagram_eq (hacc : dia.Accepted) (hfixed : fixed.OnChance dia) :
    ofDiagram dia Z fixed = .ok (arranged dia Z fixed) := by
  rw [ofDiagram, make, checkFixed_eq_ok (fun _ hc => hacc.chance_inRange hc) hfixed]
  rfl

/-- The paths of a strategy that fits can be gone through, whatever the decisions observe. -/
theorem arranged_runnable (hacc : dia.Accepted) (hpos : ∀ n ∈ dia.S, 1 ≤ n) (hZ : Z.Fits dia)
    (hfixed : fixed.OnChance dia) : (arranged dia Z fixed).Runnable := by
  have hdecision : ∀ z ∈ (arranged dia Z fixed).parts, z.node ∈ dia.C ++ dia.D :=
    fun z hz => List.mem_append_right _ (hZ.mem_decision (arranged_parts_perm.mem_iff.1 hz))
  exact {
    counts_pos := hpos
    chance_nodup := arranged_chance_perm.nodup_iff.2 hacc.chance_nodup
    chance_inRange := arranged_chance_inRange hacc
    fits := fun z hz => hZ.parts z (arranged_parts_perm.mem_iff.1 hz)
    index_inRange := fun z hz => hacc.index_inRange (hdecision z hz)
    info_inRange := fun z hz => hacc.info_inRange_of_mem (hdecision z hz)
    fixed_inRange := fun p hp => (hfixed p hp).2 }

/-- With the strategy of a diagram, the decisions can be filled in. -/
theorem arranged_fillable (hacc : dia.Accepted) (hpos : ∀ n ∈ dia.S, 1 ≤ n) (hZ : Z.Fits dia)
    (hfixed : fixed.OnChance dia)
    (hobs : ∀ d ∈ dia.D, ∀ i ∈ d.info, i ∈ dia.indices .chance ∨ i < d.index) :
    (arranged dia Z fixed).Fillable := by
  have hrun := arranged_runnable hacc hpos hZ hfixed
  have hC : (arranged dia Z fixed).C.Perm (dia.indices .chance) := arranged_chance_perm
  have hparts : (arranged dia Z fixed).parts.Perm Z.parts := arranged_parts_perm
  have hdecision : ∀ z ∈ (arranged dia Z fixed).parts, z.node ∈ dia.D :=
    fun z hz => hZ.mem_decision (hparts.mem_iff.1 hz)
  constructor
  case counts_pos => exact hpos
  case chance_sorted =>
    refine mergeSort_strict (fun c => c) (fun _ _ => decide_eq_true_iff) ?_
    rw [List.map_id']
    exact hacc.chance_nodup
  case parts_sorted =>
    refine mergeSort_strict (fun z : LocalStrategy => z.node.index) (fun _ _ => decide_eq_true_iff) ?_
    exact hZ.indices_perm.nodup_iff.2 hacc.decision_nodup
  case covers =>
    intro k
    constructor
    · intro hk
      rcases hacc.exists_node hk with ⟨c, hc, rfl⟩ | ⟨d, hd, rfl⟩
      · exact Or.inl (hC.mem_iff.2 (List.mem_map_of_mem hc))
      · obtain ⟨z, hz, rfl⟩ := hZ.exists_part hd
        exact Or.inr ⟨z, hparts.mem_iff.2 hz, rfl⟩
    · rintro (hk | ⟨z, hz, rfl⟩)
      · exact hrun.chance_inRange k hk
      · exact hrun.index_inRange z hz
  case disjoint =>
    intro c hc z hz
    obtain ⟨n, hn, rfl⟩ := List.mem_map.1 (hC.mem_iff.1 hc)
    exact hacc.chance_ne_decision hn (hdecision z hz)
  case fits => exact hrun.fits
  case info_inRange => exact hrun.info_inRange
  case observed =>
    intro z hz i hi
    rw [hC.mem_iff]
    exact hobs z.node (hdecision z hz) i hi
  case fixed_chance =>
    intro p hp
    rw [hC.mem_iff]
    exact hfixed p hp

end Arranged

/-! ## Listing -/

variable {cp : CompatiblePaths}

/-- The chance nodes that are not fixed have no more states than can be listed. -/
def FreeListable [Lengths] (cp : CompatiblePaths) : Prop :=
  ∀ c ∈ cp.C, cp.fixed.state? c = none → Lengths.admits (entry cp.S c) = true

theorem freeListable_iff [Lengths] :
    cp.FreeListable ↔ Listable ((cp.C.filter fun c => !cp.fixed.fixes c).map (entry cp.S)) := by
  rw [FreeListable, Listable, List.forall_mem_map]
  simp [FixedStates.fixes_eq_isSome]

theorem freeListable_of_listable [Lengths] (hC : ∀ c ∈ cp.C, InRange cp.S.length c) (hlist : Listable cp.S) :
    cp.FreeListable :=
  fun c hc _ => entry_of_forall hlist (hC c hc)

/-- Whether the states of the chance nodes that are not fixed can be listed. -/
def checkFree [Lengths] (cp : CompatiblePaths) : Except (Fault α) Unit :=
  checkCounts .empty 0 ((cp.C.filter fun c => !cp.fixed.fixes c).map (entry cp.S))

theorem checkFree_ok [Lengths] (hlist : cp.FreeListable) : cp.checkFree (α := α) = .ok () :=
  checkCounts_ok _ (freeListable_iff.1 hlist) 0

theorem checkFree_overflow [Lengths] (hlist : ¬cp.FreeListable) : cp.checkFree (α := α) = .error .overflow :=
  checkCounts_overflow (mt freeListable_iff.2 hlist) 0

theorem arranged_freeListable_iff [Lengths] {dia : Diagram α} {Z : Strategy} {fixed : FixedStates} :
    (arranged dia Z fixed).FreeListable ↔
      ∀ c ∈ dia.indices .chance, fixed.state? c = none → Lengths.admits (entry dia.S c) = true :=
  forall_congr' fun _ => imp_congr arranged_chance_perm.mem_iff Iff.rfl

theorem arranged_not_freeListable [Lengths] {dia : Diagram α} {Z : Strategy} {fixed : FixedStates} {c : Node}
    (hc : c ∈ dia.indices .chance) (hfree : fixed.state? c = none) (hlarge : Lengths.admits (entry dia.S c) = false) :
    ¬(arranged dia Z fixed).FreeListable := by
  rw [arranged_freeListable_iff]
  intro h
  rw [h c hc hfree] at hlarge
  cases hlarge

theorem checkFree_unbounded (cp : CompatiblePaths) : cp.checkFree (α := α) = .ok () := checkFree_ok fun _ _ _ => rfl

namespace Fillable

/-- The ways to choose the chance states, in order. -/
def chances (cp : CompatiblePaths) : List (List State) :=
  choices (cp.C.map fun c => domain cp.fixed c (entry cp.S c))

theorem chances_sorted (cp : CompatiblePaths) : (chances cp).Pairwise (· < ·) := by
  apply choices_sorted
  intro xs hxs
  obtain ⟨c, -, rfl⟩ := List.mem_map.1 hxs
  exact domain_sorted cp.fixed c _

theorem freeCounts?_of_inRange (hC : ∀ c ∈ cp.C, InRange cp.S.length c) :
    cp.freeCounts? = some ((cp.C.filter fun c => !cp.fixed.fixes c).map (entry cp.S)) :=
  mapM_eq_pure fun _ hc => nth?_eq_entry (hC _ (List.mem_of_mem_filter hc))

theorem freeCounts?_eq (h : cp.Fillable) :
    cp.freeCounts? = some ((cp.C.filter fun c => !cp.fixed.fixes c).map (entry cp.S)) :=
  freeCounts?_of_inRange fun _ hc => h.chance_inRange hc

/-- Choosing the chance states asks nothing of the chance nodes but to be in the state space, and to have no more
states than can be listed. -/
theorem chanceStates_eq_checkFree [Lengths] (hC : ∀ c ∈ cp.C, InRange cp.S.length c) :
    cp.chanceStates (α := α) = cp.checkFree.map fun _ => chances cp := by
  have hdomains : cp.C.mapM cp.chanceDomain? = some (cp.C.map fun c => domain cp.fixed c (entry cp.S c)) := by
    apply mapM_eq_pure
    intro c hc
    unfold chanceDomain? domain
    rw [nth?_eq_entry (hC c hc)]
    cases cp.fixed.state? c <;> rfl
  unfold chanceStates
  rw [freeCounts?_of_inRange hC, hdomains]
  change (checkFree (α := α) cp).bind _ = _
  cases checkFree (α := α) cp <;> rfl

theorem chanceStates_of_inRange [Lengths] (hC : ∀ c ∈ cp.C, InRange cp.S.length c)
    (hlist : cp.FreeListable) : cp.chanceStates (α := α) = .ok (chances cp) := by
  rw [chanceStates_eq_checkFree hC, checkFree_ok hlist]
  rfl

/-- The compatible paths: in the order of their chance states, each chance state taken once, all of them
in space and allowed. -/
theorem toList_spec [Lengths] (h : cp.Fillable) :
    ∃ ss, (cp.toList (α := α) = cp.checkFree.map fun _ => ss) ∧
      ss.map (fun s => cp.C.map (entry s)) = chances cp ∧
      ∀ s ∈ ss, InSpace cp.S s ∧ ∀ z ∈ cp.parts, z.agrees s = true := by
  have hchances : ∀ chance ∈ chances cp, List.Forall₂ (fun c x => InRange (entry cp.S c) x) cp.C chance :=
    fun chance hc => h.runnable.mem_chance_choices hc
  obtain ⟨ss, hss, hmap, hall⟩ := h.pathsFrom_spec (α := α) hchances h.runnable.start_inSpace
  refine ⟨ss, ?_, hmap, hall⟩
  rw [toList, chanceStates_eq_checkFree fun _ hc => h.chance_inRange hc]
  cases checkFree (α := α) cp with
  | error f => rfl
  | ok _ => exact hss

/-- The chance states of a path in space are among those chosen if it agrees with the fixed states. -/
theorem mem_chances_iff (h : cp.Fillable) {s : Path} (hs : InSpace cp.S s) :
    cp.C.map (entry s) ∈ chances cp ↔ cp.fixed.Agrees s := by
  rw [chances, mem_choices, List.forall₂_map_left_iff, List.forall₂_map_right_iff, List.forall₂_same]
  constructor
  · intro hmem k v hk
    have := hmem k (h.fixed_chance _ (FixedStates.mem_of_state? hk)).1
    simpa [domain, hk] using this
  · intro hagree c hc
    unfold domain
    split
    · rename_i v hv
      exact List.mem_singleton.2 (hagree c v hv)
    · exact mem_statesBelow.2 (hs.inRange_entry c (h.chance_inRange hc))

/-- A list of allowed paths, one for each choice of chance states, has all allowed paths. -/
theorem mem_iff_of_map_eq (h : cp.Fillable) {ss : List Path}
    (hmap : ss.map (fun s => cp.C.map (entry s)) = chances cp)
    (hall : ∀ s ∈ ss, InSpace cp.S s ∧ ∀ z ∈ cp.parts, z.agrees s = true) (s : Path) :
    s ∈ ss ↔ s ∈ paths cp.S cp.fixed ∧ ∀ z ∈ cp.parts, z.agrees s = true := by
  rw [mem_paths_iff h.within]
  constructor
  · intro hs
    obtain ⟨hin, hsel⟩ := hall s hs
    refine ⟨⟨hin, ?_⟩, hsel⟩
    rw [← h.mem_chances_iff hin, ← hmap]
    exact List.mem_map_of_mem hs
  · rintro ⟨⟨hin, hagree⟩, hsel⟩
    have hmem := (h.mem_chances_iff hin).2 hagree
    rw [← hmap] at hmem
    obtain ⟨t, ht, hts⟩ := List.mem_map.1 hmem
    obtain ⟨htin, htsel⟩ := hall t ht
    rw [← h.eq_of_chance_eq htin hin htsel hsel hts]
    exact ht

theorem chanceOrder_of_map_eq {ss : List Path} (hmap : ss.map (fun s => cp.C.map (entry s)) = chances cp) :
    ss.Pairwise fun s t => cp.C.map (entry s) < cp.C.map (entry t) := by
  have := chances_sorted cp
  rwa [← hmap, List.pairwise_map] at this

/-- If decisions observe earlier nodes only, the order by chance states is the order of the paths. -/
theorem lt_of_chance_lt (h : cp.Fillable)
    (hearlier : ∀ z ∈ cp.parts, ∀ i ∈ z.node.info, i < z.node.index) {s t : Path} (hs : InSpace cp.S s)
    (ht : InSpace cp.S t) (hsel : ∀ z ∈ cp.parts, z.agrees s = true)
    (htel : ∀ z ∈ cp.parts, z.agrees t = true) (hlt : cp.C.map (entry s) < cp.C.map (entry t)) : s < t := by
  -- decisions before the first chance node that differs have seen the same states
  obtain ⟨c, hc, hclt, hbefore⟩ := exists_first_difference h.chance_sorted hlt
  have hcr := h.chance_inRange hc
  rw [← hs.length_eq] at hcr
  apply lt_of_first_difference (by rw [hs.length_eq, ht.length_eq]) hcr hclt
  intro i hi hic
  rw [hs.length_eq] at hi
  refine h.entry_eq_of_chance_eq hs ht hsel htel (m := c) hbefore ?_ i hi hic
  intro z hz hzc j hj hjc
  exact hbefore j hjc (lt_trans (hearlier z hz j hj) hzc)

/-! ## How many there are -/

theorem prod_length_domain (fixed : FixedStates) {S : StateCounts} {nodes : List Node}
    (h : ∀ c ∈ nodes, 0 ≤ entry S c) :
    ((((nodes.map fun c => domain fixed c (entry S c)).map List.length).prod : Nat) : Int) =
      ((nodes.filter fun c => !fixed.fixes c).map (entry S)).prod := by
  induction nodes with
  | nil => rfl
  | cons c nodes ih =>
      have ih := ih fun i hi => h i (List.mem_cons_of_mem _ hi)
      rw [List.map_cons, List.map_cons, List.prod_cons, Nat.cast_mul, ih,
        length_domain fixed c (h c List.mem_cons_self), List.filter_cons]
      cases fixed.fixes c <;> simp

/-- There are as many compatible paths as the product of the counts of the chance nodes that are not
fixed. Only where lengths are bounded can the number be out of reach. -/
theorem length_eq [Lengths] (h : cp.Fillable) {ss : List Path}
    (hmap : ss.map (fun s => cp.C.map (entry s)) = chances cp) :
    cp.length (α := α) = if Lengths.admits ss.length then .ok ss.length else .error .overflow := by
  have hlen : ((((cp.C.filter fun c => !cp.fixed.fixes c).map (entry cp.S)).prod : Int)) = ss.length := by
    rw [← prod_length_domain cp.fixed fun c hc => ?_, ← length_choices]
    · have := congrArg List.length hmap
      rw [List.length_map] at this
      rw [this]
      rfl
    · have := entry_pos h.counts_pos (h.chance_inRange hc)
      omega
  unfold length count?
  rw [h.freeCounts?_eq]
  change (if numPaths _ _ < 0 then _ else _) = _
  simp only [numPaths_empty]
  rw [hlen, if_neg (by omega), Int.toNat_natCast]

/-! ## The list as a filter -/

/-- The list of the allowed paths, one for each choice of chance states, is strictly ascending if decisions
observe earlier nodes only. -/
theorem sorted_of_map_eq (h : cp.Fillable)
    (hearlier : ∀ z ∈ cp.parts, ∀ i ∈ z.node.info, i < z.node.index) {ss : List Path}
    (hmap : ss.map (fun s => cp.C.map (entry s)) = chances cp)
    (hall : ∀ s ∈ ss, InSpace cp.S s ∧ ∀ z ∈ cp.parts, z.agrees s = true) : ss.Pairwise (· < ·) := by
  refine (chanceOrder_of_map_eq hmap).imp_of_mem ?_
  intro s t hs ht hlt
  exact h.lt_of_chance_lt hearlier (hall s hs).1 (hall t ht).1 (hall s hs).2 (hall t ht).2 hlt

end Fillable

/-- Strictly ascending lists with the same entries are equal. -/
theorem eq_filter_of_sorted {S : StateCounts} {fixed : FixedStates} {allowed : Path → Bool}
    {ss : List Path} (hsorted : ss.Pairwise (· < ·))
    (hmem : ∀ s, s ∈ ss ↔ s ∈ paths S fixed ∧ allowed s = true) :
    ss = (paths S fixed).filter allowed := by
  refine hsorted.eq_of_mem_iff ((paths_sorted _ _).filter _) fun s => ?_
  rw [hmem, List.mem_filter]

/-- The local strategies may stand in any order. -/
theorem forall_agrees_iff {cp : CompatiblePaths} {Z : Strategy} (hparts : cp.parts.Perm Z.parts) (s : Path) :
    (∀ z ∈ cp.parts, z.agrees s = true) ↔ Z.allows s = true := by
  rw [Strategy.allows, List.all_eq_true]
  exact forall_congr' fun z => by rw [hparts.mem_iff]

/-- The compatible paths of a strategy are listed by their chance states, and are the paths that agree with the
fixed states and that the strategy allows. Where decisions observe earlier nodes only, the list is that of all
paths without those that the strategy does not allow. -/
theorem ofDiagram_toList [Lengths] {dia : Diagram α} (hacc : dia.Accepted) (hpos : ∀ n ∈ dia.S, 1 ≤ n)
    {Z : Strategy} (hZ : Z.Fits dia) {fixed : FixedStates} (hfixed : fixed.OnChance dia)
    (hobs : ∀ d ∈ dia.D, ∀ i ∈ d.info, i ∈ dia.indices .chance ∨ i < d.index) :
    ∃ cp ss, ofDiagram dia Z fixed = .ok cp ∧ cp.Fillable ∧
      cp.toList (α := α) = cp.checkFree.map (fun _ => ss) ∧
      ss.map (fun s => cp.C.map (entry s)) = Fillable.chances cp ∧
      (∀ s, s ∈ ss ↔ s ∈ paths dia.S fixed ∧ Z.allows s = true) ∧
      ((∀ d ∈ dia.D, ∀ i ∈ d.info, i < d.index) → ss = (paths dia.S fixed).filter Z.allows) := by
  have hfill := arranged_fillable hacc hpos hZ hfixed hobs
  have hparts : (arranged dia Z fixed).parts.Perm Z.parts := arranged_parts_perm
  obtain ⟨ss, hlist, hmap, hall⟩ := hfill.toList_spec (α := α)
  have hmem : ∀ s, s ∈ ss ↔ s ∈ paths dia.S fixed ∧ Z.allows s = true := by
    intro s
    rw [hfill.mem_iff_of_map_eq hmap hall, forall_agrees_iff hparts]
    rfl
  refine ⟨_, ss, ofDiagram_eq hacc hfixed, hfill, hlist, hmap, hmem, ?_⟩
  intro hearlier
  refine eq_filter_of_sorted (hfill.sorted_of_map_eq ?_ hmap hall) hmem
  intro z hz
  exact hearlier z.node (hZ.mem_decision (hparts.mem_iff.1 hz))

end CompatiblePaths

/-! ## The main statement -/

/-- **Compatible paths.** Let decisions observe chance nodes and earlier decisions only. The compatible paths of a
strategy are exactly the paths over the state space that agree with the fixed states and that the strategy allows, each
once, in the lexicographic order of the chance states. If decisions observe earlier nodes only, the list is that of all
paths without those that the strategy does not allow. They are listed unless a chance node that is not fixed has more
states than a list has entries, and their number is the length unless it is too large for one. -/
theorem compatiblePaths_listed {α : Type} [Lengths] {dia : Diagram α} (hacc : dia.Accepted)
    (hpos : ∀ n ∈ dia.S, 1 ≤ n) {Z : Strategy} (hZ : Z.Fits dia) {fixed : FixedStates}
    (hfixed : fixed.OnChance dia)
    (hobs : ∀ d ∈ dia.D, ∀ i ∈ d.info, i ∈ dia.indices .chance ∨ i < d.index) :
    ∃ cp ss, CompatiblePaths.ofDiagram dia Z fixed = .ok cp ∧
      ((∀ c ∈ dia.indices .chance, fixed.state? c = none → Lengths.admits (entry dia.S c) = true) →
        cp.toList (α := α) = .ok ss) ∧
      ((∃ c ∈ dia.indices .chance, fixed.state? c = none ∧ Lengths.admits (entry dia.S c) = false) →
        cp.toList (α := α) = .error .overflow) ∧
      cp.length (α := α) = (if Lengths.admits ss.length then .ok ss.length else .error .overflow) ∧
      ss.Nodup ∧ (∀ s, s ∈ ss ↔ s ∈ paths dia.S fixed ∧ Z.allows s = true) ∧
      ss.Pairwise (fun s t => cp.C.map (entry s) < cp.C.map (entry t)) ∧
      ((∀ d ∈ dia.D, ∀ i ∈ d.info, i < d.index) → ss = (paths dia.S fixed).filter Z.allows) := by
  obtain ⟨cp, ss, hcp, hfill, hlist, hmap, hmem, hfilter⟩ :=
    CompatiblePaths.ofDiagram_toList hacc hpos hZ hfixed hobs
  have horder := CompatiblePaths.Fillable.chanceOrder_of_map_eq hmap
  -- paths with different chance states differ
  have hnodup : (ss.map fun s => cp.C.map (entry s)).Nodup := by
    rw [hmap]
    exact (CompatiblePaths.Fillable.chances_sorted cp).nodup
  obtain rfl : CompatiblePaths.arranged dia Z fixed = cp :=
    Except.ok.inj ((CompatiblePaths.ofDiagram_eq hacc hfixed).symm.trans hcp)
  refine ⟨_, ss, hcp, fun h => ?_, fun h => ?_, hfill.length_eq hmap, hnodup.of_map _, hmem, horder, hfilter⟩
  · rw [hlist, CompatiblePaths.checkFree_ok (CompatiblePaths.arranged_freeListable_iff.2 h)]
    rfl
  · obtain ⟨c, hc, hstate, hlarge⟩ := h
    rw [hlist, CompatiblePaths.checkFree_overflow (CompatiblePaths.arranged_not_freeListable hc hstate hlarge)]
    rfl

/-- Two coins with a decision after each. The first decision sees the coin that is thrown after it, the
second one sees the first. -/
def twoCoins : Diagram Rat where
  S := [2, 2, 2, 3]
  C := [⟨2, []⟩, ⟨0, []⟩]
  D := [⟨1, [2, 0]⟩, ⟨3, [1]⟩]
  V := []
  P := .function fun _ => .ok 1
  U := .tables [] 0

/-- The first decision names a coin that differs, the second one follows the first. -/
def twoCoinsStrategy : Strategy :=
  ⟨[⟨⟨3, [1]⟩, ⟨[2, 3], [true, false, false, false, false, true], rfl⟩⟩,
    ⟨⟨1, [2, 0]⟩, ⟨[2, 2, 2], [true, false, false, true, false, true, true, false], rfl⟩⟩]⟩

/-- The compatible paths of the two coins when the second coin has shown its second side: the first
decision depends on a coin that is thrown later. -/
theorem compatiblePaths_listed_twoCoins :
    ∃ cp ss, CompatiblePaths.ofDiagram twoCoins twoCoinsStrategy (.ofPairs [(2, 1)]) = .ok cp ∧
      cp.toList (α := Rat) = .ok ss ∧ cp.length (α := Rat) = .ok ss.length ∧
      (∀ s, s ∈ ss ↔ s ∈ paths twoCoins.S (.ofPairs [(2, 1)]) ∧ twoCoinsStrategy.allows s = true) ∧
      ss.Nodup := by
  have hacc : twoCoins.Accepted := Diagram.accepted_iff.2 (by decide)
  have hZ : twoCoinsStrategy.Fits twoCoins := by
    refine ⟨by decide, ?_⟩
    intro z hz
    rcases List.mem_pair.1 hz with rfl | rfl
    · exact ⟨by decide, by decide⟩
    · exact ⟨by decide, by decide⟩
  have hfixed : (FixedStates.ofPairs [(2, 1)]).OnChance twoCoins := by
    show ∀ p ∈ [((2 : Int), (1 : Int))], _
    decide
  obtain ⟨cp, ss, hcp, hlist, -, hlen, hnodup, hmem, -⟩ :=
    compatiblePaths_listed hacc (by decide) hZ hfixed (by decide)
  exact ⟨cp, ss, hcp, hlist fun _ _ _ => rfl, hlen, hmem, hnodup⟩

section Words

attribute [local instance] Lengths.words

/-- A single draw from one ticket more than words have lengths. -/
def crowdedDraw : Diagram Float where
  S := [2 ^ 63]
  C := [⟨0, []⟩]
  D := []
  V := []
  P := .function fun _ => .ok 1
  U := .tables [] 0

/-- Where lengths are words, not all compatible paths are listed and counted. -/
theorem compatiblePaths_unlisted : ¬∀ (dia : Diagram Float) (Z : Strategy) (fixed : FixedStates), dia.Accepted →
    (∀ n ∈ dia.S, 1 ≤ n) → (∀ d ∈ dia.D, ∀ i ∈ d.info, i < d.index) → Z.Fits dia → fixed.OnChance dia →
    ∃ cp, CompatiblePaths.ofDiagram dia Z fixed = .ok cp ∧
      cp.toList (α := Float) = .ok ((paths dia.S fixed).filter Z.allows) ∧
      cp.length (α := Float) = .ok ((paths dia.S fixed).filter Z.allows).length := by
  intro h
  have hacc : crowdedDraw.Accepted := Diagram.accepted_iff.2 (by decide)
  have hZ : (Strategy.mk []).Fits crowdedDraw := ⟨by decide, fun z hz => absurd hz List.not_mem_nil⟩
  have hfixed : FixedStates.empty.OnChance crowdedDraw := fun p hp => absurd hp List.not_mem_nil
  obtain ⟨cp, ss, hcp, -, hunlisted, -⟩ :=
    CompatiblePaths.ofDiagram_toList (α := Float) hacc (by decide) hZ hfixed (by decide)
  obtain ⟨cp', hcp', hlist, -⟩ := h crowdedDraw ⟨[]⟩ .empty hacc (by decide) (by decide) hZ hfixed
  rw [CompatiblePaths.ofDiagram_eq hacc hfixed] at hcp hcp'
  obtain rfl := Except.ok.inj hcp
  obtain rfl := Except.ok.inj hcp'
  have hlarge : ¬(CompatiblePaths.arranged crowdedDraw ⟨[]⟩ .empty).FreeListable :=
    CompatiblePaths.arranged_not_freeListable (c := 0) (by decide) rfl (by decide)
  rw [hunlisted, CompatiblePaths.checkFree_overflow hlarge] at hlist
  cases hlist

end Words

end InfluenceDiagrams
