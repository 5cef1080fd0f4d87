import InfluenceDiagrams.Strategy.Random
import InfluenceDiagrams.Proofs.Analysis.Lookups
import InfluenceDiagrams.Proofs.Diagram.WordCount
import InfluenceDiagrams.Proofs.Strategy.Validation

/-!
# `InfluenceDiagrams.Proofs.Strategy.RandomStrategy` — a random strategy is a strategy

In every information state a word is drawn and reduced to a state of the node. The arithmetic wraps, but what is drawn
is a remainder in the end, so that it is a state for every key: the line has a one in that place and nowhere else, and
the table passes the validation. Nothing is assumed of the block function that the words come from.

## Contents
- **`Random.Key.below_lt`** — what is drawn is below the bound.
- **`Table.rowAt_ofRows`** — a line of a table that is given line by line; **`oneHot_range`** — a line with one place.
- **`LocalStrategy.random_spec`** — one decision node; **`Strategy.randomParts_spec`** — one after the other, by induction
  on the nodes.
- **`Strategy.random_listed`** — random strategies of a diagram, and their paths; **`Strategy.random_refuses_rereading`** —
  a diagram without random strategies.
-/

namespace InfluenceDiagrams

/-- What is drawn is below the bound, whatever the words are. -/
theorem Random.Key.below_lt (key : Key) {span : UInt32} (h : 0 < span) (i : Nat) : key.below span i < span :=
  UInt32.mod_lt _ h

/-- A line of a table that is given line by line. -/
theorem Table.rowAt_ofRows {β : Type} {lead : List Nat} {width i : Nat} (f : Nat → Nat → β) (hi : i < places lead) :
    (ofRows lead width f).rowAt i = (List.range width).map (f i) := by
  obtain ⟨rest, hrest⟩ := Nat.exists_eq_add_of_lt hi
  have hw : (ofRows lead width f).width = width := width_eq rfl
  -- the lines before, the line itself, the lines after
  have hentries : (ofRows lead width f).entries = lineEntries i width f ++ ((List.range width).map (f i) ++
      ((List.range rest).map (i + 1 + ·)).flatMap fun j => (List.range width).map (f j)) := by
    change lineEntries (places lead) width f = _
    rw [hrest, Nat.add_right_comm, lineEntries, List.range_add, List.flatMap_append, List.range_succ,
      List.flatMap_append, List.flatMap_singleton, List.append_assoc]
    rfl
  rw [rowAt, hw, hentries, List.drop_left' (length_lineEntries i width f), List.take_left' (by simp)]

section Lines

variable {α : Type} [Scalar α]

/-- A line with a one in one place is one-hot. -/
theorem oneHot_range {w m : Nat} (hm : m < w) :
    OneHot ((List.range w).map fun k => (Numeral.int (if m = k then 1 else 0) : Numeral α)) := by
  constructor
  · rw [List.forall_mem_map]
    intro k _
    split
    · exact .inr rfl
    · exact .inl rfl
  · have hone : (Numeral.isOne ∘ fun k => (Numeral.int (if m = k then 1 else 0) : Numeral α)) = fun k => k == m := by
      funext k
      by_cases hk : m = k
      · subst hk
        simp [Numeral.isOne]
      · simp [Numeral.isOne, hk, Ne.symm hk]
    rw [List.countP_map, hone]
    exact List.count_eq_one_of_mem List.nodup_range (List.mem_range.2 hm)

end Lines

variable {α : Type} [Scalar α] {S : StateCounts}

namespace LocalStrategy

/-- The table that is drawn for a decision node. -/
def drawn (S : StateCounts) (key : Random.Key) (d : InfoNode) : Table (Numeral α) :=
  Table.ofRows (d.info.map (Table.extent S)) (Table.extent S d.index) fun i k =>
    .int (if (key.below (UInt32.ofNat (Table.extent S d.index)) i).toNat = k then 1 else 0)

omit [Scalar α] in
theorem drawn_shape (S : StateCounts) (key : Random.Key) (d : InfoNode) :
    (drawn S key d : Table (Numeral α)).shape = d.info.map (Table.extent S) ++ [Table.extent S d.index] := rfl

/-- A node with a state, and not with more states than a word has, gets lines with a single one. -/
theorem drawn_oneHot (key : Random.Key) {d : InfoNode} (hpos : 1 ≤ entry S d.index) (hword : entry S d.index < 2 ^ 31) :
    ∀ row ∈ (drawn S key d : Table (Numeral α)).rows, OneHot row := by
  intro row hrow
  rw [Table.rows, Table.rowShape_eq (drawn_shape S key d)] at hrow
  obtain ⟨i, hi, rfl⟩ := List.mem_map.1 hrow
  have hspan : (UInt32.ofNat (Table.extent S d.index)).toNat = Table.extent S d.index := by
    apply UInt32.toNat_ofNat_of_lt'
    rw [Table.extent]
    change _ < 2 ^ 32
    omega
  have hlt : (key.below (UInt32.ofNat (Table.extent S d.index)) i).toNat < Table.extent S d.index := by
    have hbelow : key.below (UInt32.ofNat (Table.extent S d.index)) i < UInt32.ofNat (Table.extent S d.index) := by
      refine key.below_lt ?_ i
      rw [UInt32.lt_iff_toNat_lt, hspan, Table.extent]
      change 0 < _
      omega
    rwa [UInt32.lt_iff_toNat_lt, hspan] at hbelow
  rw [drawn, Table.rowAt_ofRows _ (List.mem_range.1 hi)]
  exact oneHot_range hlt

/-- Counts that are positive and fit into a word are no obstacle: the table is drawn and validated. -/
theorem random_eq (hS : ∀ k, InRange S.length k → 1 ≤ entry S k ∧ entry S k < 2 ^ 31) (key : Random.Key) {d : InfoNode}
    (hindex : InRange S.length d.index) (hinfo : ∀ i ∈ d.info, InRange S.length i) :
    (random S key d : Except (Fault α) LocalStrategy) = ofTable d (drawn S key d) := by
  obtain ⟨hpos, hword⟩ := hS d.index hindex
  have hlead : d.info.mapM (nth? S) = some (d.info.map (entry S)) :=
    mapM_eq_pure fun i hi => nth?_eq_entry (hinfo i hi)
  have hfits : fitsHalfWord (entry S d.index) = true := by
    rw [fitsHalfWord, Bool.and_eq_true, decide_eq_true_iff, decide_eq_true_iff]
    omega
  have husable : ((d.info.map (entry S)).any fun k => decide (k < 0) || !fitsSigned k) = false := by
    rw [List.any_eq_false]
    intro n hn
    obtain ⟨i, hi, rfl⟩ := List.mem_map.1 hn
    obtain ⟨hi0, hiword⟩ := hS i (hinfo i hi)
    have hsigned : fitsSigned (entry S i) = true := fitsSigned_iff.2 (by omega)
    simp only [hsigned, Bool.not_true, Bool.or_false, decide_eq_true_iff]
    omega
  have hspan : max (entry S d.index).toNat 1 = Table.extent S d.index := by
    rw [Table.extent]
    omega
  have hshape : (d.info.map (entry S)).map Int.toNat = d.info.map (Table.extent S) := by
    rw [List.map_map]
    rfl
  have hnot : ¬entry S d.index < 0 := not_lt_of_ge (le_trans zero_le_one hpos)
  rw [random, hlead, nth?_eq_entry hindex]
  simp only [orFault, bind, Except.bind, hfits, husable, hnot, hspan, hshape, if_true, if_false,
    Bool.false_eq_true]
  rfl

omit [Scalar α] in
theorem drawn_rank (S : StateCounts) (key : Random.Key) (d : InfoNode) :
    (drawn S key d : Table (Numeral α)).rank = d.info.length + 1 := by
  rw [Table.rank, drawn_shape, List.length_append, List.length_map]
  rfl

variable (hS : ∀ k, InRange S.length k → 1 ≤ entry S k ∧ entry S k < 2 ^ 31) (key : Random.Key) {d : InfoNode}
  (hindex : InRange S.length d.index) (hinfo : ∀ i ∈ d.info, InRange S.length i)

include hS hindex hinfo

/-- A decision node that observes too many nodes gets no local strategy. -/
theorem random_of_tooDeep (hdeep : Table.maxRank ≤ d.info.length) :
    (random S key d : Except (Fault α) LocalStrategy) = .error .tooManyDimensions := by
  rw [random_eq hS key hindex hinfo]
  apply ofTable_of_tooDeep
  rw [drawn_rank]
  exact Nat.lt_succ_of_le hdeep

/-- **One decision node** gets a local strategy of its dimensions, whatever the key is, if these are not too many. -/
theorem random_spec (hdepth : d.info.length < Table.maxRank) :
    ∃ z, (random S key d : Except (Fault α) LocalStrategy) = .ok z ∧ z.node = d ∧ z.Fits S := by
  have hover : (drawn S key d : Table (Numeral α)).Over S (d.info ++ [d.index]) := by
    rw [Table.Over, drawn_shape, List.map_append]
    rfl
  have hpos : ∀ n ∈ (drawn S key d : Table (Numeral α)).shape, 0 < n := by
    rw [hover, List.forall_mem_map]
    intro k hk
    have hrange : InRange S.length k := by
      rcases List.mem_append.1 hk with hk | hk
      · exact hinfo k hk
      · rw [List.mem_singleton.1 hk]
        exact hindex
    have := (hS k hrange).1
    rw [Table.extent]
    omega
  have hrank : (drawn S key d : Table (Numeral α)).rank = d.info.length + 1 := drawn_rank S key d
  obtain ⟨hone, hword⟩ := hS d.index hindex
  obtain ⟨z, hz⟩ := (ofTable_ok_iff d hpos).2 ⟨hrank ▸ hdepth, hrank, drawn_oneHot key hone hword⟩
  have hnode : z.node = d := by rw [(ofTable_ok hz).1]
  exact ⟨z, by rw [random_eq hS key hindex hinfo, hz], hnode, ofTable_fits hover hz⟩

end LocalStrategy

omit [Scalar α] in
/-- There are as many choices of chance states as the product of the counts. -/
theorem CompatiblePaths.length_chances_arranged {dia : Diagram α} {Z : Strategy} (hacc : dia.Accepted)
    (hpos : ∀ n ∈ dia.S, 1 ≤ n) :
    ((Fillable.chances (arranged dia Z .empty)).length : Int) = ((dia.indices .chance).map (entry dia.S)).prod := by
  have hcounts : ∀ c ∈ (arranged dia Z .empty).C, 0 ≤ entry dia.S c := fun c hc =>
    le_trans zero_le_one (entry_pos hpos (arranged_chance_inRange hacc c hc))
  have hfree : (arranged dia Z .empty).C.filter (fun c => !FixedStates.empty.fixes c) = (arranged dia Z .empty).C :=
    List.filter_eq_self.2 fun _ _ => rfl
  have hlen := Fillable.prod_length_domain .empty hcounts
  rw [hfree, ((arranged_chance_perm (Z := Z)).map (entry dia.S)).prod_eq] at hlen
  rw [Fillable.chances, length_choices]
  exact hlen

namespace Strategy

section Parts

variable (hS : ∀ k, InRange S.length k → 1 ≤ entry S k ∧ entry S k < 2 ^ 31) (ds : List InfoNode)
  (hds : ∀ d ∈ ds, InRange S.length d.index ∧ ∀ i ∈ d.info, InRange S.length i)

include hS hds

/-- **One decision node after the other** gets its local strategy, each with a key of its own. -/
theorem randomParts_spec (hdepth : ∀ d ∈ ds, d.info.length < Table.maxRank) (key : Random.Key) :
    ∃ parts, (randomParts S key ds : Except (Fault α) (List LocalStrategy)) = .ok parts ∧
      parts.map LocalStrategy.node = ds ∧ ∀ z ∈ parts, z.Fits S := by
  induction ds generalizing key with
  | nil => exact ⟨[], rfl, rfl, fun z hz => absurd hz List.not_mem_nil⟩
  | cons d ds ih =>
      obtain ⟨⟨hindex, hinfo⟩, hds⟩ := List.forall_mem_cons.1 hds
      obtain ⟨hfirst, hdepth⟩ := List.forall_mem_cons.1 hdepth
      obtain ⟨z, hz, hnode, hfits⟩ := LocalStrategy.random_spec (α := α) hS key.split.2 hindex hinfo hfirst
      obtain ⟨parts, hparts, hnodes, hall⟩ := ih hds hdepth key.split.1
      refine ⟨z :: parts, ?_, ?_, List.forall_mem_cons.2 ⟨hfits, hall⟩⟩
      · rw [randomParts]
        change (LocalStrategy.random S key.split.2 d).bind _ = _
        rw [hz]
        change (randomParts S key.split.1 ds).bind _ = _
        rw [hparts]
        rfl
      · rw [List.map_cons, hnode, hnodes]

/-- The first one that observes too many nodes ends it. -/
theorem randomParts_of_tooDeep (hdeep : ∃ d ∈ ds, Table.maxRank ≤ d.info.length) (key : Random.Key) :
    (randomParts S key ds : Except (Fault α) (List LocalStrategy)) = .error .tooManyDimensions := by
  induction ds generalizing key with
  | nil => exact absurd hdeep (by simp)
  | cons d ds ih =>
      obtain ⟨⟨hindex, hinfo⟩, hds⟩ := List.forall_mem_cons.1 hds
      rw [randomParts]
      change (LocalStrategy.random S key.split.2 d).bind _ = _
      rcases Nat.lt_or_ge d.info.length Table.maxRank with hfirst | hfirst
      · obtain ⟨z, hz, -⟩ := LocalStrategy.random_spec (α := α) hS key.split.2 hindex hinfo hfirst
        have hrest : ∃ d ∈ ds, Table.maxRank ≤ d.info.length := by
          obtain ⟨e, he, hle⟩ := hdeep
          rcases List.mem_cons.1 he with rfl | he
          · exact absurd hle (Nat.not_le_of_lt hfirst)
          · exact ⟨e, he, hle⟩
        rw [hz]
        change (randomParts S key.split.1 ds).bind _ = _
        rw [ih hds hrest]
        rfl
      · rw [LocalStrategy.random_of_tooDeep hS _ hindex hinfo hfirst]
        rfl

end Parts

attribute [local instance] Lengths.words

/-- **Random strategies.** Let the nodes of an accepted diagram have a state, and fewer than `2 ^ 31`, and let lengths be
words. If no decision node observes so many nodes that its table would have too many dimensions, a random strategy is
drawn for every key. It has one local strategy for each decision node, in the order of the diagram, with a dimension for
each observed node and one for the node itself, and with a single one in every line. So its paths can be gone through:
there are as many as the product of the counts of the chance nodes, and all of them are in the state space. If a
decision node observes too many nodes, no key gives a random strategy. -/
theorem random_listed {dia : Diagram α} (hacc : dia.Accepted) (hS : ∀ n ∈ dia.S, 1 ≤ n ∧ n < 2 ^ 31)
    (key : Random.Key) :
    ((∀ d ∈ dia.D, d.info.length < Table.maxRank) → ∃ Z, random dia key = .ok Z ∧ Z.nodes = dia.D ∧
      (∀ z ∈ Z.parts, z.table.shape = (z.node.info ++ [z.node.index]).map (Table.extent dia.S) ∧
        ∀ row ∈ z.table.rows, row.count true = 1) ∧
      ∃ cp ss, CompatiblePaths.ofDiagram dia Z .empty = .ok cp ∧ cp.toList (α := α) = .ok ss ∧
        (ss.length : Int) = ((dia.indices .chance).map (entry dia.S)).prod ∧ ∀ s ∈ ss, InSpace dia.S s) ∧
    ((∃ d ∈ dia.D, Table.maxRank ≤ d.info.length) → random dia key = .error .tooManyDimensions) := by
  have hentry : ∀ k, InRange dia.S.length k → 1 ≤ entry dia.S k ∧ entry dia.S k < 2 ^ 31 := fun _ hk =>
    entry_of_forall hS hk
  have hds : ∀ d ∈ dia.D, InRange dia.S.length d.index ∧ ∀ i ∈ d.info, InRange dia.S.length i := fun d hd =>
    ⟨hacc.index_inRange (List.mem_append_right _ hd), hacc.info_inRange_of_mem (List.mem_append_right _ hd)⟩
  refine ⟨fun hdepth => ?_, fun hdeep => ?_⟩
  · obtain ⟨parts, hparts, hnodes, hall⟩ := randomParts_spec (α := α) hentry dia.D hds hdepth key
    have hZ : (⟨parts⟩ : Strategy).Fits dia := ⟨List.Perm.of_eq hnodes, hall⟩
    have hpos : ∀ n ∈ dia.S, 1 ≤ n := fun n hn => (hS n hn).1
    have hfixed := FixedStates.onChance_empty dia
    have hlist : Listable dia.S := by
      intro n hn
      have := (hS n hn).2
      refine decide_eq_true (le_trans (le_of_lt this) ?_)
      decide
    obtain ⟨ss, hss, hlen, hall'⟩ := (CompatiblePaths.arranged_runnable hacc hpos hZ hfixed).toList_spec (α := α)
    have hfree : (CompatiblePaths.arranged dia ⟨parts⟩ .empty).FreeListable :=
      CompatiblePaths.freeListable_of_listable (CompatiblePaths.arranged_chance_inRange hacc) hlist
    refine ⟨⟨parts⟩, ?_, hnodes, fun z hz => ⟨(hall z hz).shaped, (hall z hz).selects⟩,
      CompatiblePaths.arranged dia ⟨parts⟩ .empty, ss, CompatiblePaths.ofDiagram_eq hacc hfixed, ?_, ?_, hall'⟩
    · rw [random, hparts]
      rfl
    · rw [hss, CompatiblePaths.checkFree_ok hfree]
      rfl
    · rw [hlen]
      exact CompatiblePaths.length_chances_arranged hacc hpos
  · rw [random, randomParts_of_tooDeep hentry dia.D hds hdeep]
    rfl

/-- A seed gives a random strategy of the umbrella, with the eight paths of three chance nodes. -/
theorem random_listed_umbrella :
    ∃ Z, random umbrella (.ofSeed 7) = .ok Z ∧ Z.nodes = umbrella.D ∧
      (∀ z ∈ Z.parts, z.table.shape = (z.node.info ++ [z.node.index]).map (Table.extent umbrella.S) ∧
        ∀ row ∈ z.table.rows, row.count true = 1) ∧
      ∃ cp ss, CompatiblePaths.ofDiagram umbrella Z .empty = .ok cp ∧ cp.toList (α := Rat) = .ok ss ∧
        (ss.length : Int) = 8 ∧ ∀ s ∈ ss, InSpace umbrella.S s :=
  (random_listed umbrella_wellFormed.accepted (by decide) (.ofSeed 7)).1 (by decide)

/-- No seed gives a random strategy to the clerk who reads a form sixty-four times. -/
theorem random_refuses_rereading :
    rereading.Accepted ∧ (∀ n ∈ rereading.S, 1 ≤ n ∧ n < 2 ^ 31) ∧
      ∀ seed, random rereading (.ofSeed seed) = .error .tooManyDimensions := by
  have hS : ∀ n ∈ rereading.S, 1 ≤ n ∧ n < 2 ^ 31 := by decide
  refine ⟨rereading_accepted, hS, fun seed => ?_⟩
  have hentry : ∀ k, InRange rereading.S.length k → 1 ≤ entry rereading.S k ∧ entry rereading.S k < 2 ^ 31 :=
    fun _ hk => entry_of_forall hS hk
  have hds : ∀ d ∈ rereading.D, InRange rereading.S.length d.index ∧ ∀ i ∈ d.info, InRange rereading.S.length i := by
    decide
  rw [random, randomParts_of_tooDeep hentry rereading.D hds ⟨_, List.mem_cons_self, by decide⟩]
  rfl

end Strategy

end InfluenceDiagrams
