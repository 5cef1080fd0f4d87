import Mathlib.Algebra.BigOperators.Ring.Finset
import Mathlib.Algebra.Order.Ring.Rat
import Mathlib.Tactic.NormNum
import InfluenceDiagrams.Model.PathVariables
import InfluenceDiagrams.Proofs.Probability.TotalProbability

/-!
# `InfluenceDiagrams.Proofs.Model.Bound` — how many paths lead through a decision

Once all decisions are taken, the paths through one of them differ in the chance nodes that it does not
observe. The bound on the paths that can be taken together is a quotient of products of state counts. In a
well-formed diagram it is the product of the counts of these chance nodes, and no strategy allows more paths
through the decision.

## Contents
- **`nodeShape`** — the state counts of what a decision node observes and of the node itself.
- **`freeCount`** — the product of the counts of the chance nodes outside some nodes.
- **`pathBound`**, **`theoreticalBound_eq`** — the bound as a quotient, and that it is computed.
- **`pathBound_eq`** — the bound is the product.
- **`length_allowed_agreeing`**, **`length_allowed_le`** — so many paths of a strategy have the same states at the
  chance nodes among some nodes, and no more have them at all of these.
-/

namespace InfluenceDiagrams

/-- The observed nodes of a node and the node itself. -/
def InfoNode.scope (d : InfoNode) : List Node := d.info ++ [d.index]

/-- The state counts of the scope of a node. -/
def nodeShape (S : StateCounts) (d : InfoNode) : StateCounts := d.scope.map (entry S)

theorem nodeShape_eq (S : StateCounts) (d : InfoNode) :
    nodeShape S d = d.info.map (entry S) ++ [entry S d.index] := by
  rw [nodeShape, InfoNode.scope, List.map_append]
  rfl

theorem dropLast_nodeShape (S : StateCounts) (d : InfoNode) :
    (nodeShape S d).dropLast = d.info.map (entry S) := by
  rw [nodeShape_eq, List.dropLast_concat]

theorem getLast?_nodeShape (S : StateCounts) (d : InfoNode) :
    (nodeShape S d).getLast?.getD 0 = entry S d.index := by
  rw [nodeShape_eq, List.getLast?_concat]
  rfl

/-- The product of the state counts of the chance nodes that are not among some nodes. -/
def freeCount {α : Type} (dia : Diagram α) (nodes : List Node) : Int :=
  (((dia.indices .chance).filter fun c => !nodes.contains c).map (entry dia.S)).prod

/-- The bound on the paths through a decision: the size of the state space, divided by the counts of the scope
and by those of the decision nodes outside it. -/
def pathBound {α : Type} (dia : Diagram α) (d : InfoNode) : Rat :=
  (dia.S.prod : Rat) / (nodeShape dia.S d).prod /
    (((dia.indices .decision).filter fun k => !d.scope.contains k).map (entry dia.S)).prod

/-- In exact arithmetic the coefficient is the lesser of the two numbers. -/
theorem strategyBound_eq_min (count : Nat) (bound : Rat) : strategyBound count bound = min (count : Rat) bound := by
  rw [min_comm, min_def_lt]
  rfl

theorem prod_entry_pos {S : StateCounts} (hpos : ∀ n ∈ S, 1 ≤ n) {nodes : List Node}
    (hn : ∀ k ∈ nodes, InRange S.length k) : 0 < (nodes.map (entry S)).prod := by
  apply List.prod_pos
  intro x hx
  obtain ⟨k, hk, rfl⟩ := List.mem_map.1 hx
  have := entry_pos hpos (hn k hk)
  omega

namespace Diagram.Accepted

variable {α : Type} {d : InfoNode}

theorem scope_inRange {dia : Diagram α} (h : dia.Accepted) (hd : d ∈ dia.C ++ dia.D) :
    ∀ k ∈ d.scope, InRange dia.S.length k := by
  intro k hk
  rcases List.mem_append.1 hk with hk | hk
  · exact h.info_inRange_of_mem hd k hk
  · rw [List.mem_singleton.1 hk]
    exact h.index_inRange hd

theorem decisionShape?_eq {dia : Diagram α} (h : dia.Accepted) (hd : d ∈ dia.C ++ dia.D) :
    decisionShape? dia.S d = some (nodeShape dia.S d) :=
  mapM_eq_pure fun k hk => nth?_eq_entry (h.scope_inRange hd k hk)

/-- A path in space leads through an index over the scope of every node. -/
theorem scope_mem_nodeShape {dia : Diagram α} (h : dia.Accepted) (hd : d ∈ dia.C ++ dia.D) {s : Path}
    (hs : InSpace dia.S s) : d.scope.map (entry s) ∈ paths (nodeShape dia.S d) .empty := by
  rw [paths_empty, mem_choices, nodeShape, List.map_map, List.forall₂_map_left_iff, List.forall₂_map_right_iff,
    List.forall₂_same]
  intro k hk
  exact mem_statesBelow.2 (hs.inRange_entry k (h.scope_inRange hd k hk))

/-- The bound is computed if every node has a state. -/
theorem theoreticalBound_eq {dia : Diagram Rat} (h : dia.Accepted) (hpos : ∀ n ∈ dia.S, 1 ≤ n) (hd : d ∈ dia.D)
    (z : List (Path × Variable Rat)) :
    theoreticalBound dia.S dia.D ⟨d, nodeShape dia.S d, z⟩ = .ok (pathBound dia d) := by
  let others := (dia.indices .decision).filter fun k => !d.scope.contains k
  have hothers : ∀ k ∈ others, InRange dia.S.length k := by
    intro k hk
    exact h.decision_inRange (List.mem_of_mem_filter hk)
  have hscopePos : (nodeShape dia.S d).prod ≠ 0 :=
    ne_of_gt (prod_entry_pos hpos (h.scope_inRange (List.mem_append_right _ hd)))
  have hothersPos : ((others.map (entry dia.S)).prod : Rat) ≠ 0 :=
    Int.cast_ne_zero.2 (ne_of_gt (prod_entry_pos hpos hothers))
  have hcounts : others.mapM (nth? dia.S) = some (others.map (entry dia.S)) :=
    mapM_eq_pure fun k hk => nth?_eq_entry (hothers k hk)
  have hshared : Scalar.ratio? (α := Rat) (numPaths dia.S .empty) (numPaths (nodeShape dia.S d) .empty) =
      some ((dia.S.prod : Rat) / (nodeShape dia.S d).prod) := by
    rw [numPaths_empty, numPaths_empty, Scalar.ratio?, if_neg hscopePos]
    exact congrArg some (Rat.divInt_eq_div _ _)
  have hdivisor : finiteInt (α := Rat) (numPaths (others.map (entry dia.S)) .empty) =
      .ok ((others.map (entry dia.S)).prod : Rat) := by
    rw [numPaths_empty]
    rfl
  have hquotient : ∀ x : Rat, Scalar.quotient? x ((others.map (entry dia.S)).prod : Rat) =
      some (x / ((others.map (entry dia.S)).prod : Rat)) := by
    intro x
    rw [Scalar.quotient?, if_neg fun heq => hothersPos (beq_iff_eq.1 heq)]
  -- neither divisor is zero
  unfold theoreticalBound
  dsimp only
  rw [hshared]
  show (do
    let counts ← orFault .outOfRange (others.mapM (nth? dia.S))
    let divisor ← finiteInt (numPaths counts .empty)
    orFault .zeroDivisor (Scalar.quotient? _ divisor) : Except (Fault Rat) Rat) = _
  rw [hcounts]
  show (do
    let divisor ← finiteInt (numPaths (others.map (entry dia.S)) .empty)
    orFault .zeroDivisor (Scalar.quotient? _ divisor) : Except (Fault Rat) Rat) = _
  rw [hdivisor]
  show orFault .zeroDivisor (Scalar.quotient? _ _) = _
  rw [hquotient]
  rfl

/-- If every node has a state, the bound is positive. -/
theorem pathBound_pos {dia : Diagram Rat} (h : dia.Accepted) (hpos : ∀ n ∈ dia.S, 1 ≤ n) (hd : d ∈ dia.D) :
    0 < pathBound dia d := by
  have hstates : 0 < dia.S.prod := List.prod_pos fun n hn => Int.lt_of_lt_of_le Int.zero_lt_one (hpos n hn)
  have hscope : 0 < (nodeShape dia.S d).prod := prod_entry_pos hpos (h.scope_inRange (List.mem_append_right _ hd))
  have hothers : 0 < (((dia.indices .decision).filter fun k => !d.scope.contains k).map (entry dia.S)).prod :=
    prod_entry_pos hpos fun _ hk => h.decision_inRange (List.mem_of_mem_filter hk)
  exact div_pos (div_pos (Int.cast_pos.2 hstates) (Int.cast_pos.2 hscope)) (Int.cast_pos.2 hothers)

end Diagram.Accepted

namespace Diagram.Staged

variable {dia : Diagram Rat} {d : InfoNode}

theorem scope_nodup (h : dia.Staged) (hd : d ∈ dia.C ++ dia.D) (hinfo : d.info.Nodup) : d.scope.Nodup := by
  rw [InfoNode.scope, List.nodup_append]
  refine ⟨hinfo, List.nodup_singleton _, ?_⟩
  intro i hi j hj
  rw [List.mem_singleton.1 hj]
  exact ne_of_lt (h.info_before hd i hi).2

/-- The size of the state space splits into the counts of a scope, of the chance nodes outside it and of
the other decision nodes. -/
theorem prod_counts (h : dia.Staged) (hd : d ∈ dia.C ++ dia.D) (hinfo : d.info.Nodup) :
    dia.S.prod = (nodeShape dia.S d).prod *
      (freeCount dia d.scope *
        (((dia.indices .decision).filter fun k => !d.scope.contains k).map (entry dia.S)).prod) := by
  have hall : dia.S.prod = (((dia.C ++ dia.D).map InfoNode.index).map (entry dia.S)).prod := by
    rw [(h.accepted.indices_perm.map (entry dia.S)).prod_eq, map_entry_statesBelow]
  have hsplit := List.prod_map_filter_mul_prod_map_filter_not (fun k => k ∈ d.scope) (entry dia.S)
    ((dia.C ++ dia.D).map InfoNode.index)
  -- the scope has each of its nodes once, so that its counts are multiplied once
  have hscope : (((dia.C ++ dia.D).map InfoNode.index).filter fun k => k ∈ d.scope).Perm d.scope := by
    rw [List.perm_ext_iff_of_nodup (h.accepted.indices_nodup.filter _) (h.scope_nodup hd hinfo)]
    intro k
    rw [List.mem_filter, decide_eq_true_eq, h.accepted.indices_perm.mem_iff, mem_statesBelow]
    exact and_iff_right_of_imp (h.accepted.scope_inRange hd k)
  have hrest : (((dia.C ++ dia.D).map InfoNode.index).filter fun k => ¬k ∈ d.scope) =
      ((dia.indices .chance).filter fun k => !d.scope.contains k) ++
        (dia.indices .decision).filter fun k => !d.scope.contains k := by
    rw [List.map_append, List.filter_append]
    simp only [List.contains_eq_mem, ← decide_not, Diagram.indices]
  rw [hall, ← hsplit, (hscope.map (entry dia.S)).prod_eq, hrest, List.map_append, List.prod_append]
  rfl

/-- The bound on the paths through a decision is the number of ways to choose the chance states outside its
scope. -/
theorem pathBound_eq (h : dia.Staged) (hd : d ∈ dia.D) (hinfo : d.info.Nodup) :
    pathBound dia d = (freeCount dia d.scope : Rat) := by
  have hn : d ∈ dia.C ++ dia.D := List.mem_append_right _ hd
  let others := (dia.indices .decision).filter fun k => !d.scope.contains k
  have hothers : ∀ k ∈ others, InRange dia.S.length k := by
    intro k hk
    exact h.accepted.decision_inRange (List.mem_of_mem_filter hk)
  have hscopePos : ((nodeShape dia.S d).prod : Rat) ≠ 0 :=
    Int.cast_ne_zero.2 (ne_of_gt (prod_entry_pos h.counts_pos (h.accepted.scope_inRange hn)))
  have hothersPos : ((others.map (entry dia.S)).prod : Rat) ≠ 0 :=
    Int.cast_ne_zero.2 (ne_of_gt (prod_entry_pos h.counts_pos hothers))
  -- both divisions are exact
  calc pathBound dia d
      = ((nodeShape dia.S d).prod * (freeCount dia d.scope * (others.map (entry dia.S)).prod) : Rat) /
          (nodeShape dia.S d).prod / (others.map (entry dia.S)).prod := by
        rw [pathBound, h.prod_counts hn hinfo, Int.cast_mul, Int.cast_mul]
    _ = freeCount dia d.scope := by
        rw [mul_div_cancel_left₀ _ hscopePos, mul_div_cancel_right₀ _ hothersPos]

end Diagram.Staged

/-! ## Paths through a decision -/

namespace Diagram

/-- Whether a path has the state of a given path at a chance node, as far as the node is among some
nodes. -/
def agreementFactor (nodes : List Node) (t : Path) (c : Node) : Factor :=
  ⟨c, fun s => if c ∈ nodes then if entry s c = entry t c then 1 else 0 else 1⟩

/-- The factors of some chance nodes multiply to the indicator of the paths that have the states of the given one at
all of them that are among the nodes. -/
theorem product_agreementFactor (nodes : List Node) (t s : Path) (cs : List Node) :
    Factor.product (cs.map (agreementFactor nodes t)) s =
      if ∀ c ∈ cs, c ∈ nodes → entry s c = entry t c then 1 else 0 := by
  induction cs with
  | nil => simp [Factor.product]
  | cons c cs ih =>
      rw [List.map_cons, ← List.singleton_append, Factor.product_append, ih]
      simp only [List.forall_mem_cons]
      by_cases hc : c ∈ nodes <;> by_cases heq : entry s c = entry t c <;>
        simp [Factor.product, agreementFactor, hc, heq]

namespace Staged

variable {dia : Diagram Rat} {Z : Strategy} {t : Path} (h : dia.Staged) (hZ : Z.Fits dia) (ht : InSpace dia.S t)

include h ht

theorem agreementFactor_sumsTo {c : Node} (hc : InRange dia.S.length c) (nodes : List Node) :
    (agreementFactor nodes t c).SumsTo dia.S (if c ∈ nodes then 1 else (entry dia.S c : Rat)) := by
  constructor
  · intro s s' heq
    show (if c ∈ nodes then if entry s c = entry t c then (1 : Rat) else 0 else 1) =
      if c ∈ nodes then if entry s' c = entry t c then 1 else 0 else 1
    rw [heq c hc.1 le_rfl]
  · intro s hs
    have hown : ∀ k, entry (s ++ [k]) c = k := fun k =>
      (map_entry_append_singleton (n := ⟨c, []⟩) hc (fun i hi => absurd hi List.not_mem_nil) hs k).2
    show ((statesBelow (entry dia.S c)).map fun k =>
      if c ∈ nodes then if entry (s ++ [k]) c = entry t c then (1 : Rat) else 0 else 1).sum = _
    simp only [hown]
    -- one state agrees at a node of the scope, all of them at another one
    by_cases hmem : c ∈ nodes
    · simp only [if_pos hmem]
      rw [List.sum_map_ite_eq, (statesBelow_nodup _).count,
        if_pos (mem_statesBelow.2 (ht.inRange_entry c hc))]
      simp
    · simp only [if_neg hmem]
      have hpos := entry_pos h.counts_pos hc
      rw [List.map_const', List.sum_replicate, length_statesBelow, nsmul_one]
      exact_mod_cast Int.toNat_of_nonneg (by omega)

include hZ

theorem sum_agreement (nodes : List Node) :
    ((dia.allowedPaths Z).map
      (Factor.product ((dia.indices .chance).map (agreementFactor nodes t)))).sum = freeCount dia nodes := by
  rw [h.sum_product_allowed hZ (w := fun c => if c ∈ nodes then 1 else (entry dia.S c : Rat)) ?_ ?_]
  · rw [List.prod_map_ite, List.map_const', List.prod_replicate, one_pow, one_mul, freeCount,
      Int.cast_list_prod, List.map_map]
    simp only [List.contains_eq_mem, ← decide_not]
    rfl
  · rw [List.map_map]
    exact List.map_id _
  · intro φ hφ
    obtain ⟨c, hc, rfl⟩ := List.mem_map.1 hφ
    exact h.agreementFactor_sumsTo ht (h.accepted.chance_inRange hc) nodes

/-- As many allowed paths as there are ways to choose the chance states outside some nodes have the states of a path at
the chance nodes among them. -/
theorem length_allowed_agreeing (nodes : List Node) :
    (((dia.allowedPaths Z).filter fun s =>
      decide (∀ c ∈ dia.indices .chance, c ∈ nodes → entry s c = entry t c)).length : Rat) = freeCount dia nodes := by
  rw [length_filter_eq_sum, ← h.sum_agreement hZ ht nodes]
  simp only [decide_eq_true_eq]
  exact congrArg List.sum (List.map_congr_left fun s _ => (product_agreementFactor nodes t s _).symm)

/-- No strategy allows more paths with the same states in a scope than there are ways to choose the chance
states outside. -/
theorem length_allowed_le (nodes : List Node) :
    (((dia.allowedPaths Z).filter fun s => nodes.map (entry s) == nodes.map (entry t)).length : Rat) ≤
      freeCount dia nodes := by
  rw [← h.length_allowed_agreeing hZ ht nodes, Nat.cast_le]
  refine (List.monotone_filter_right _ fun s heq => ?_).length_le
  have hsame := List.map_inj_left.1 (eq_of_beq heq)
  exact decide_eq_true fun c _ hc => hsame c hc

end Staged
end Diagram
end InfluenceDiagrams
