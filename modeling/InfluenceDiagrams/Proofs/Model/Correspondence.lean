import InfluenceDiagrams.Proofs.Analysis.Normalization
import InfluenceDiagrams.Proofs.Model.Encoding

/-!
# `InfluenceDiagrams.Proofs.Model.Correspondence` — feasible points and strategies

At a feasible point no path is taken that the decisions do not allow, since a decision that is not selected
bounds the paths through it by zero. All allowed paths together have probability one, which is what the
paths taken need, so that each of them is taken in full. Conversely a strategy whose paths have variables
gives a feasible point: it allows no more paths through a decision than the bound says.

## Contents
- **`sum_members_allowed`** — sums over paths with variables and over allowed paths.
- **`Linked.share_eq_zero`, `Solution.share_eq_one`** — the paths that are not taken, and those that are.
- **`Linked.encodes_readStrategy`** — a point that takes all allowed paths stands for its strategy.
- **`Solution.exists_encodes`** — a solution stands for a strategy.
- **`linked_of_encodes`, `solution_of_encodes`** — what stands for a strategy satisfies the conditions.
- **`solution_iff_exists_encodes`** — the two together.
-/

namespace InfluenceDiagrams
namespace Diagram

variable {dia : Diagram Rat} {rules : List ForbiddenRule} {fixed : FixedStates} {point : VarKey → Rat}
  {Z : Strategy}

/-! ## Paths with variables and allowed paths -/

theorem memberPaths_nodup (dia : Diagram Rat) (rules : List ForbiddenRule) (fixed : FixedStates) :
    (dia.memberPaths rules fixed).Nodup :=
  (paths_nodup _ _).filter _

theorem allowedPaths_nodup (dia : Diagram Rat) (Z : Strategy) : (dia.allowedPaths Z).Nodup :=
  (paths_nodup _ _).filter _

theorem mem_allowedPaths {s : Path} : s ∈ dia.allowedPaths Z ↔ InSpace dia.S s ∧ Z.allows s = true := by
  rw [allowedPaths, List.mem_filter, mem_paths_empty]

theorem mem_allowed_of_member (hfixed : fixed.Within dia.S) {s : Path} (hs : s ∈ dia.memberPaths rules fixed)
    (hallows : Z.allows s = true) : s ∈ dia.allowedPaths Z :=
  mem_allowedPaths.2 ⟨inSpace_of_member hfixed hs, hallows⟩

/-- A sum over the paths with variables that are allowed, as one over all allowed paths. -/
theorem sum_members_allowed (hfixed : fixed.Within dia.S) (f : Path → Rat) :
    ((dia.memberPaths rules fixed).map fun s => if Z.allows s = true then f s else 0).sum =
      ((dia.allowedPaths Z).map fun s => if s ∈ dia.memberPaths rules fixed then f s else 0).sum := by
  have hperm : ((dia.memberPaths rules fixed).filter Z.allows).Perm
      ((dia.allowedPaths Z).filter fun s => decide (s ∈ dia.memberPaths rules fixed)) := by
    rw [List.perm_ext_iff_of_nodup ((memberPaths_nodup dia rules fixed).filter _)
      ((allowedPaths_nodup dia Z).filter _)]
    intro s
    rw [List.mem_filter, List.mem_filter, decide_eq_true_eq]
    constructor
    · rintro ⟨hs, hallows⟩
      exact ⟨mem_allowed_of_member hfixed hs hallows, hs⟩
    · rintro ⟨hallowed, hs⟩
      exact ⟨hs, (mem_allowedPaths.1 hallowed).2⟩
  rw [← sum_map_filter, (hperm.map f).sum_eq, sum_map_filter]
  simp only [decide_eq_true_eq]

/-- If all allowed paths of positive probability have variables, nothing is lost. -/
theorem sum_members_allowed_eq (h : dia.WellFormed) (hfixed : fixed.Within dia.S)
    (hmembers : ∀ s ∈ dia.allowedPaths Z, 0 < dia.prob s → s ∈ dia.memberPaths rules fixed) (f : Path → Rat) :
    ((dia.memberPaths rules fixed).map fun s => if Z.allows s = true then dia.prob s * f s else 0).sum =
      ((dia.allowedPaths Z).map fun s => dia.prob s * f s).sum := by
  rw [sum_members_allowed hfixed fun s => dia.prob s * f s]
  congr 1
  apply List.map_congr_left
  intro s hs
  by_cases hmem : s ∈ dia.memberPaths rules fixed
  · rw [if_pos hmem]
  · have hzero : dia.prob s = 0 := by
      have hle := not_lt.1 fun hpos => hmem (hmembers s hs hpos)
      exact le_antisymm hle (h.prob_nonneg s)
    rw [if_neg hmem, hzero, zero_mul]

/-- A path that a strategy does not allow leads through a cell with a zero. -/
theorem exists_disagreement (h : dia.WellFormed) (hZ : Z.Fits dia) {s : Path} (hs : InSpace dia.S s)
    (hnot : ¬Z.allows s = true) :
    ∃ z ∈ Z.parts, z.table.get? (z.node.scope.map (entry s)) = some false := by
  rw [Strategy.allows, List.all_eq_true] at hnot
  push Not at hnot
  obtain ⟨z, hz, hagree⟩ := hnot
  rw [Ne, h.agrees_iff_get? hZ hz hs] at hagree
  obtain ⟨b, hb⟩ := h.exists_cell hZ hz (h.scope_mem_nodeShape (hZ.mem_decision hz) hs)
  refine ⟨z, hz, ?_⟩
  cases b with
  | false => exact hb
  | true => exact absurd hb hagree

/-! ## From points to strategies -/

namespace Linked

/-- A path that is not allowed is not taken. -/
theorem share_eq_zero (h : dia.WellFormed) (hfixed : fixed.Within dia.S) (hsol : dia.Linked rules fixed point)
    {s : Path} (hs : s ∈ dia.memberPaths rules fixed) (hnot : ¬(readStrategy dia point).allows s = true) :
    shareAt point s = 0 := by
  have hspace := inSpace_of_member hfixed hs
  have hfits := readStrategy_fits h hsol.binary hsol.one
  obtain ⟨z, hz, hcell⟩ := exists_disagreement h hfits hspace hnot
  obtain ⟨d, hd, rfl⟩ := List.mem_map.1 hz
  have hindex : d.scope.map (entry s) ∈ paths (nodeShape dia.S d) .empty := h.scope_mem_nodeShape hd hspace
  -- the path leads through a decision that is not taken
  have hchoice : choiceAt point d (d.scope.map (entry s)) = 0 := by
    rcases hsol.binary d hd _ hindex with hzero | hone
    · exact hzero
    · change (readLocal dia point d).table.get? (d.scope.map (entry s)) = some false at hcell
      rw [get?_readLocal h hd hindex, decide_eq_true hone] at hcell
      cases hcell
  have hmem : s ∈ dia.membersThrough rules fixed d (d.scope.map (entry s)) := mem_membersThrough.2 ⟨hs, rfl⟩
  have hthrough := hsol.through d hd _ hindex (List.ne_nil_of_mem hmem)
  rw [hchoice, mul_zero] at hthrough
  -- its share is part of a sum that is bounded by zero times the bound
  have hle : shareAt point s ≤
      ((dia.membersThrough rules fixed d (d.scope.map (entry s))).map (shareAt point)).sum := by
    apply List.single_le_sum
    · intro x hx
      obtain ⟨t, ht, rfl⟩ := List.mem_map.1 hx
      exact (hsol.share t (mem_membersThrough.1 ht).1).1
    · exact List.mem_map_of_mem hmem
  exact le_antisymm (hle.trans hthrough) (hsol.share s hs).1

/-- A point that takes all allowed paths in full stands for the strategy that is read off it. -/
theorem encodes_readStrategy (h : dia.WellFormed) (hfixed : fixed.Within dia.S) (hsol : dia.Linked rules fixed point)
    (hfull : ∀ s ∈ dia.memberPaths rules fixed, (readStrategy dia point).allows s = true → shareAt point s = 1) :
    Encodes (dia.D.map dia.decisionBlock) (dia.pathBlock rules fixed) point (readStrategy dia point) := by
  rw [encodes_iff (nodes_readStrategy dia point)]
  constructor
  · intro z hz index hindex
    obtain ⟨d, hd, rfl⟩ := List.mem_map.1 hz
    refine ⟨_, get?_readLocal h hd hindex, ?_⟩
    rcases hsol.binary d hd index hindex with hchoice | hchoice
    · rw [hchoice, if_neg (by simp)]
      exact hchoice
    · rw [hchoice, if_pos (by simp)]
      exact hchoice
  · intro s hs
    split
    · rename_i hallows
      exact hfull s hs hallows
    · rename_i hnot
      exact share_eq_zero h hfixed hsol hs hnot

end Linked

namespace Solution

/-- An allowed path of positive probability has a variable and is taken in full. -/
theorem share_eq_one (h : dia.WellFormed) (hfixed : fixed.Within dia.S) (hsol : dia.Solution rules fixed point)
    {s : Path} (hs : s ∈ dia.allowedPaths (readStrategy dia point)) (hpos : 0 < dia.prob s) :
    s ∈ dia.memberPaths rules fixed ∧ shareAt point s = 1 := by
  have hfits := readStrategy_fits h hsol.binary hsol.one
  let taken : Path → Rat := fun t => if t ∈ dia.memberPaths rules fixed then dia.prob t * shareAt point t else 0
  -- the constraint on the probabilities, with the paths that are not allowed left out
  have htaken : ((dia.allowedPaths (readStrategy dia point)).map taken).sum = 1 := by
    rw [← hsol.total, ← sum_members_allowed hfixed fun t => dia.prob t * shareAt point t]
    congr 1
    apply List.map_congr_left
    intro t ht
    split
    · rfl
    · rename_i hnot
      rw [hsol.share_eq_zero h hfixed ht hnot, mul_zero]
  -- both sum up to one, so nothing that the allowed paths might lack is left
  have hmissing : ∀ t ∈ dia.allowedPaths (readStrategy dia point), dia.prob t - taken t = 0 := by
    apply eq_zero_of_sum_le
    · intro t ht
      have hprob := h.prob_nonneg t
      simp only [taken, sub_nonneg]
      split
      · rename_i hmem
        exact mul_le_of_le_one_right hprob (hsol.share t hmem).2
      · exact hprob
    · rw [sum_map_sub, htaken, h.sum_prob_allowed hfits, sub_self]
  have hnone := hmissing s hs
  simp only [taken] at hnone
  split at hnone
  · rename_i hmem
    refine ⟨hmem, ?_⟩
    have hprod : dia.prob s * (1 - shareAt point s) = 0 := by
      rw [mul_sub, mul_one]
      exact hnone
    rcases mul_eq_zero.1 hprod with hzero | hfull
    · exact absurd hzero (ne_of_gt hpos)
    · linarith
  · linarith

/-- A solution stands for the strategy that is read off it, whose paths have variables. -/
theorem exists_encodes (h : dia.WellFormed) (hfixed : fixed.Within dia.S)
    (hsol : dia.Solution rules fixed point) :
    (readStrategy dia point).Admissible dia (dia.pathBlock rules fixed) ∧
      Encodes (dia.D.map dia.decisionBlock) (dia.pathBlock rules fixed) point (readStrategy dia point) := by
  constructor
  · refine ⟨readStrategy_fits h hsol.binary hsol.one, nodes_readStrategy dia point, ?_⟩
    intro s hs hpos
    rw [paths_pathBlock]
    exact (share_eq_one h hfixed hsol hs hpos).1
  · apply hsol.encodes_readStrategy h hfixed
    intro s hs hallows
    exact (share_eq_one h hfixed hsol (mem_allowed_of_member hfixed hs hallows) (prob_pos_of_member hs)).2

end Solution

/-! ## From strategies to points -/

section Points

variable (h : dia.WellFormed) (hfixed : fixed.Within dia.S) (hZ : Z.Fits dia)
  (hshares : ∀ s ∈ dia.memberPaths rules fixed, shareAt point s = if Z.allows s = true then 1 else 0)

include h hZ in
/-- In every information state one state is selected. -/
theorem sum_choices_eq_one {z : LocalStrategy} (hz : z ∈ Z.parts)
    (hcells : ∀ index ∈ paths (nodeShape dia.S z.node) .empty, ∃ b,
      z.table.get? index = some b ∧ choiceAt point z.node index = if b = true then 1 else 0)
    {info : Path} (hinfo : info ∈ paths (z.node.info.map (entry dia.S)) .empty) :
    ((statesBelow (entry dia.S z.node.index)).map fun k => choiceAt point z.node (info ++ [k])).sum = 1 := by
  have hn : z.node ∈ dia.C ++ dia.D := List.mem_append_right _ (hZ.mem_decision hz)
  have hstates := entry_eq_extent h.counts_pos (h.index_inRange hn)
  obtain ⟨k, -, hk, hone⟩ := LocalStrategy.choose?_spec (hZ.parts z hz)
    ((h.mem_paths_map fun i hi => (h.info_before hn i hi).1).1 hinfo)
  rw [← hstates] at hk hone
  have hchoice : ∀ i ∈ statesBelow (entry dia.S z.node.index),
      choiceAt point z.node (info ++ [i]) = if i = k then 1 else 0 := by
    intro i hi
    have hi := mem_statesBelow.1 hi
    obtain ⟨b, hb, hvalue⟩ := hcells (info ++ [i]) (mem_nodeShape_paths.2 ⟨hinfo, hi⟩)
    rw [hvalue]
    apply if_congr _ rfl rfl
    rw [← hone i hi, hb, Option.some_inj]
  rw [List.map_congr_left hchoice, List.sum_map_ite_eq, (statesBelow_nodup _).count,
    if_pos (mem_statesBelow.2 hk)]
  simp

include h hfixed hZ in
/-- Among the paths with variables that lead through a decision, a strategy allows no more than there are ways
to choose the states of the nodes that are left. -/
theorem length_allowedThrough_le {d : InfoNode} {index : Path} (hne : dia.membersThrough rules fixed d index ≠ []) :
    (((dia.membersThrough rules fixed d index).filter Z.allows).length : Rat) ≤ freeCount dia d.scope := by
  obtain ⟨t, ht⟩ := List.exists_mem_of_ne_nil _ hne
  obtain ⟨htmem, htindex⟩ := mem_membersThrough.1 ht
  have hsub : ((dia.membersThrough rules fixed d index).filter Z.allows).length ≤
      ((dia.allowedPaths Z).filter fun s => d.scope.map (entry s) == d.scope.map (entry t)).length := by
    apply List.Subperm.length_le
    apply List.Nodup.subperm (((memberPaths_nodup dia rules fixed).filter _).filter _)
    intro s hs
    obtain ⟨hsgroup, hallows⟩ := List.mem_filter.1 hs
    obtain ⟨hsmem, hsindex⟩ := mem_membersThrough.1 hsgroup
    rw [List.mem_filter, beq_iff_eq]
    exact ⟨mem_allowed_of_member hfixed hsmem hallows, hsindex.trans htindex.symm⟩
  exact (Nat.cast_le.2 hsub).trans (h.staged.length_allowed_le hZ (inSpace_of_member hfixed htmem) _)

include h hfixed hZ hshares in
/-- The paths through a decision that are taken are none, or as few as the bound says. -/
theorem sum_shares_le {z : LocalStrategy} (hz : z ∈ Z.parts) {index : Path} {b : Bool}
    (hcell : z.table.get? index = some b)
    (hne : dia.membersThrough rules fixed z.node index ≠ []) :
    ((dia.membersThrough rules fixed z.node index).map (shareAt point)).sum ≤
      strategyBound (dia.membersThrough rules fixed z.node index).length (freeCount dia z.node.scope : Rat) *
        if b = true then 1 else 0 := by
  let group := dia.membersThrough rules fixed z.node index
  have hsum : (group.map (shareAt point)).sum = ((group.filter Z.allows).length : Rat) := by
    rw [length_filter_eq_sum]
    congr 1
    exact List.map_congr_left fun s hs => hshares s (mem_membersThrough.1 hs).1
  change (group.map (shareAt point)).sum ≤ _
  rw [hsum]
  cases b with
  | false =>
      -- no path through the cell is allowed
      have hnone : group.filter Z.allows = [] := by
        rw [List.filter_eq_nil_iff]
        intro s hs hallows
        obtain ⟨hmem, rfl⟩ := mem_membersThrough.1 hs
        have hagree := List.all_eq_true.1 hallows z hz
        rw [h.agrees_iff_get? hZ hz (inSpace_of_member hfixed hmem), hcell] at hagree
        cases hagree
      rw [hnone, if_neg Bool.false_ne_true, mul_zero, List.length_nil, Nat.cast_zero]
  | true =>
      -- the bound is the lesser of the free states and the number of paths through the decision
      have hfree := length_allowedThrough_le h hfixed hZ hne
      have hlength : ((group.filter Z.allows).length : Rat) ≤ ((group.length : Int) : Rat) := by
        exact_mod_cast List.length_filter_le _ _
      rw [if_pos rfl, mul_one, strategyBound]
      split
      · exact hfree
      · exact hlength

end Points

/-- A point that stands for a strategy ties the path variables to the decisions. -/
theorem linked_of_encodes (h : dia.WellFormed) (hfixed : fixed.Within dia.S) (hZ : Z.Fits dia)
    (hnodes : Z.nodes = dia.D)
    (hpoint : Encodes (dia.D.map dia.decisionBlock) (dia.pathBlock rules fixed) point Z) :
    dia.Linked rules fixed point := by
  obtain ⟨hcells, hshares⟩ := (encodes_iff hnodes).1 hpoint
  constructor
  · intro d hd index hindex
    obtain ⟨z, hz, rfl⟩ := hZ.exists_part hd
    obtain ⟨b, -, hchoice⟩ := hcells z hz index hindex
    rw [hchoice]
    cases b with
    | false => exact Or.inl rfl
    | true => exact Or.inr rfl
  · intro s hs
    rw [hshares s hs]
    split
    · exact ⟨zero_le_one, le_rfl⟩
    · exact ⟨le_rfl, zero_le_one⟩
  · intro d hd info hinfo
    obtain ⟨z, hz, rfl⟩ := hZ.exists_part hd
    exact sum_choices_eq_one h hZ hz (hcells z hz) hinfo
  · intro d hd index hindex hne
    obtain ⟨z, hz, rfl⟩ := hZ.exists_part hd
    obtain ⟨b, hb, hchoice⟩ := hcells z hz index hindex
    rw [hchoice, h.staged.pathBound_eq hd (h.info_nodup _ (List.mem_append_right _ hd))]
    exact sum_shares_le h hfixed hZ hshares hz hb hne

/-- A point that stands for a strategy whose paths have variables is a solution. -/
theorem solution_of_encodes (h : dia.WellFormed) (hfixed : fixed.Within dia.S)
    (hZ : Z.Admissible dia (dia.pathBlock rules fixed))
    (hpoint : Encodes (dia.D.map dia.decisionBlock) (dia.pathBlock rules fixed) point Z) :
    dia.Solution rules fixed point := by
  refine ⟨linked_of_encodes h hfixed hZ.fits hZ.nodes_eq hpoint, ?_⟩
  have hmembers := hZ.members
  rw [paths_pathBlock] at hmembers
  have htotal := sum_members_allowed_eq h hfixed hmembers fun _ => 1
  simp only [mul_one] at htotal
  rw [h.sum_prob_allowed hZ.fits] at htotal
  rw [← htotal]
  congr 1
  apply List.map_congr_left
  intro s hs
  rw [((encodes_iff hZ.nodes_eq).1 hpoint).2 s hs, mul_ite, mul_one, mul_zero]

/-- Without rules and fixed states no path of positive probability is missing. -/
theorem admissible_unrestricted (hZ : Z.Fits dia) (hnodes : Z.nodes = dia.D) :
    Z.Admissible dia (dia.pathBlock [] .empty) := by
  refine ⟨hZ, hnodes, ?_⟩
  intro s hs hpos
  rw [paths_pathBlock]
  refine List.mem_filter.2 ⟨List.mem_of_mem_filter hs, ?_⟩
  rw [hasVariable, decide_eq_true hpos]
  rfl

/-- The feasible points are those that stand for a strategy whose paths have variables. -/
theorem solution_iff_exists_encodes (h : dia.WellFormed) (hfixed : fixed.Within dia.S) :
    dia.Solution rules fixed point ↔ ∃ Z : Strategy, Z.Admissible dia (dia.pathBlock rules fixed) ∧
      Encodes (dia.D.map dia.decisionBlock) (dia.pathBlock rules fixed) point Z := by
  constructor
  · intro hsol
    exact ⟨_, hsol.exists_encodes h hfixed⟩
  · rintro ⟨Z, hZ, hpoint⟩
    exact solution_of_encodes h hfixed hZ hpoint

end Diagram
end InfluenceDiagrams
