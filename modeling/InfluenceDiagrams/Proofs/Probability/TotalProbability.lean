import Mathlib.Algebra.Order.BigOperators.Group.List
import Mathlib.Algebra.Order.BigOperators.GroupWithZero.List
import InfluenceDiagrams.Proofs.Numeric.Sums
import InfluenceDiagrams.Proofs.Probability.Elimination
import InfluenceDiagrams.Proofs.Program.Outcomes
import InfluenceDiagrams.Proofs.Strategy.Completion

/-!
# `InfluenceDiagrams.Proofs.Probability.TotalProbability` — the allowed paths have probability one

In a well-formed diagram every path has a probability and a utility, which is the product of table entries
and the sum of table entries. A line of a probability table sums up to one, and so does the indicator of
the state that a decision selects. By elimination, the probabilities of the paths that a strategy allows
sum up to one, however chance and decision nodes are interleaved.

## Contents
- **`Diagram.prob`, `Diagram.utility`** — the two as total functions; `WellFormed.eval_prob`,
  `Accepted.eval_utility`.
- **`ProbabilityTables.chanceFactor`, `LocalStrategy.decisionFactor`** — the factors of an allowed path.
- **`PathProbability.Nonneg`**, **`Nonneg.prob_nonneg`** — without negative entries no probability is negative.
- **`Tabulated.eval_entries`, `Tabulated.prob_nonneg`, `Tabulated.prob_pos`** — what needs no more than tables that
  match.
- **`Staged.sum_product_allowed`** — what needs no tables: the sum over the allowed paths of a product of factors of the
  chance nodes.
- **`WellFormed.sum_prob_allowed`** — their sum is one.
-/

namespace InfluenceDiagrams

/-! ## Probability and utility as functions -/

/-- The probability of a path, zero where the tables give none. -/
def Diagram.prob (dia : Diagram Rat) (s : Path) : Rat := (dia.P.eval s).toOption.getD 0

theorem Diagram.eval_eq_prob {dia : Diagram Rat} {s : Path} (h : ∃ p, dia.P.eval s = .ok p) :
    dia.P.eval s = .ok (dia.prob s) := by
  obtain ⟨p, hp⟩ := h
  rw [Diagram.prob, hp]
  rfl

/-- The utility of a path, zero where the tables give none. -/
def Diagram.utility (dia : Diagram Rat) (s : Path) : Rat := (dia.U.eval s).toOption.getD 0

/-- The paths that a strategy allows. -/
def Diagram.allowedPaths (dia : Diagram Rat) (Z : Strategy) : List Path :=
  (paths dia.S .empty).filter Z.allows

theorem Diagram.inSpace_of_allowed {dia : Diagram Rat} {Z : Strategy} {s : Path}
    (hs : s ∈ dia.allowedPaths Z) : InSpace dia.S s :=
  mem_paths_empty.1 (List.mem_of_mem_filter hs)

namespace ProbabilityTables

/-- The entry of a table that a path selects. -/
def entryAt (part : InfoNode × Table Rat) (s : Path) : Rat :=
  (part.2.get? (part.1.info.map (entry s) ++ [entry s part.1.index])).getD 0

/-- The probability of the state of a chance node, as a factor. -/
def chanceFactor (part : InfoNode × Table Rat) : Factor := ⟨part.1.index, entryAt part⟩

theorem indexOf_own {S : StateCounts} {s : Path} (hs : InSpace S s) {c : InfoNode}
    (hinfo : ∀ i ∈ c.info, InRange S.length i) (hindex : InRange S.length c.index) :
    Table.IndexOf ((c.info ++ [c.index]).map (Table.extent S)) (c.info.map (entry s) ++ [entry s c.index]) := by
  have hnodes : ∀ i ∈ c.info ++ [c.index], InRange S.length i := by
    intro i hi
    rcases List.mem_append.1 hi with hi | hi
    · exact hinfo i hi
    · rw [List.mem_singleton.1 hi]
      exact hindex
  have h := Table.indexOf_map hs hnodes
  rwa [List.map_append (f := entry s)] at h

theorem get?_own {S : StateCounts} {s : Path} (hs : InSpace S s) {part : InfoNode × Table Rat}
    (hover : part.2.Over S (part.1.info ++ [part.1.index]))
    (hinfo : ∀ i ∈ part.1.info, InRange S.length i) (hindex : InRange S.length part.1.index) :
    part.2.get? (part.1.info.map (entry s) ++ [entry s part.1.index]) = some (entryAt part s) := by
  obtain ⟨x, hx⟩ := Table.get?_of_inRange (t := part.2) (hover ▸ indexOf_own hs hinfo hindex)
  rw [entryAt, hx]
  rfl

theorem factor_eq {S : StateCounts} {s : Path} (hs : InSpace S s) {part : InfoNode × Table Rat}
    (hover : part.2.Over S (part.1.info ++ [part.1.index]))
    (hinfo : ∀ i ∈ part.1.info, InRange S.length i) (hindex : InRange S.length part.1.index) :
    factor (α := Rat) s part.1 part.2 = .ok (entryAt part s) := by
  rw [factor, hs.subPath? hinfo, hs.nth? hindex]
  exact Table.lookup_of_get? (get?_own hs hover hinfo hindex)

/-- The early exit at a zero factor does not change the product. -/
theorem product_eq {s : Path} {f : InfoNode × Table Rat → Rat} {parts : List (InfoNode × Table Rat)}
    (h : ∀ part ∈ parts, factor (α := Rat) s part.1 part.2 = .ok (f part)) (p : Rat) :
    product s p parts = .ok (p * (parts.map f).prod) := by
  induction parts generalizing p with
  | nil => rw [product, List.map_nil, List.prod_nil, mul_one]
  | cons part parts ih =>
      have hfirst := h part List.mem_cons_self
      rw [product, hfirst, List.map_cons, List.prod_cons, ← mul_assoc]
      show (if (p * f part == 0) = true then Except.ok 0 else product s (p * f part) parts) = _
      -- at zero the program stops, and the product is zero whatever factors are left
      by_cases hzero : p * f part = 0
      · rw [if_pos (beq_iff_eq.2 hzero), hzero, zero_mul]
      · rw [if_neg (by rwa [beq_iff_eq])]
        exact ih (fun q hq => h q (List.mem_cons_of_mem _ hq)) _

end ProbabilityTables

namespace PathUtility

variable {α : Type} [Scalar α]

theorem sumSelections_eq {S : StateCounts} {s : Path} (hs : InSpace S s)
    {parts : List (InfoNode × Table α)} (hover : ∀ part ∈ parts, part.2.Over S part.1.info)
    (hinfo : ∀ part ∈ parts, ∀ i ∈ part.1.info, InRange S.length i) (acc : α) :
    ∃ x, sumSelections s (.entry acc) parts = .ok (.entry x) := by
  induction parts generalizing acc with
  | nil => exact ⟨acc, rfl⟩
  | cons part parts ih =>
      have hpart := hinfo part List.mem_cons_self
      have hshape := hover part List.mem_cons_self
      have hindex := Table.indexOf_map hs hpart
      rw [← hshape] at hindex
      obtain ⟨x, hx⟩ := Table.get?_of_inRange hindex
      obtain ⟨y, hy⟩ := ih (fun q hq => hover q (List.mem_cons_of_mem _ hq))
        (fun q hq => hinfo q (List.mem_cons_of_mem _ hq)) (acc + x)
      refine ⟨y, ?_⟩
      have hterm : term s part.1 part.2 = .ok (.entry x) := by
        have hrank : (part.1.info.map (entry s)).length = part.2.rank := by
          rw [Table.rank, hshape, List.length_map, List.length_map]
        rw [term, hs.subPath? hpart]
        show part.2.selected (part.1.info.map (entry s)) = _
        rw [Table.selected, Table.select?, if_pos hrank, hx]
        rfl
      rw [sumSelections, hterm]
      exact hy

theorem eval_ok {S : StateCounts} {V : List InfoNode} {s : Path} (hs : InSpace S s)
    (hinfo : ∀ v ∈ V, ∀ i ∈ v.info, InRange S.length i) :
    ∀ {U : PathUtility α}, U.Fits S V → ∃ u, U.eval s = .ok u
  | .tables parts t, h => by
      have hpart : ∀ part ∈ parts, ∀ i ∈ part.1.info, InRange S.length i := by
        intro part hpart
        exact hinfo part.1 (h.1 ▸ List.mem_map_of_mem hpart)
      obtain ⟨x, hx⟩ := sumSelections_eq hs h.2 hpart 0
      refine ⟨x + t, ?_⟩
      rw [eval, total, hx]
      rfl
  | .shifted inner t, h => by
      obtain ⟨u, hu⟩ := eval_ok hs hinfo (U := inner) h
      refine ⟨u + t, ?_⟩
      rw [eval, hu]
      rfl

end PathUtility

/-- A path in space has a utility. -/
theorem Diagram.Accepted.eval_utility {dia : Diagram Rat} (h : dia.Accepted) (hutility : dia.U.Fits dia.S dia.V)
    {s : Path} (hs : InSpace dia.S s) : dia.U.eval s = .ok (dia.utility s) := by
  obtain ⟨u, hu⟩ := PathUtility.eval_ok hs
    (fun v hv => h.info_inRange v (List.mem_append_right _ hv)) hutility
  rw [Diagram.utility, hu]
  rfl

/-! ## The factors of an allowed path -/

namespace LocalStrategy

/-- Whether a path has the selected state at a decision node, as a factor. -/
def decisionFactor (z : LocalStrategy) : Factor :=
  ⟨z.node.index, fun s =>
    if z.choose? (z.node.info.map (entry s)) = some (entry s z.node.index) then 1 else 0⟩

/-- The factors of some decision nodes multiply to the indicator of the paths with the selected states at all
of them. -/
theorem product_decisionFactor (parts : List LocalStrategy) (s : Path) :
    Factor.product (parts.map decisionFactor) s =
      if ∀ z ∈ parts, z.choose? (z.node.info.map (entry s)) = some (entry s z.node.index) then 1 else 0 := by
  induction parts with
  | nil => simp [Factor.product]
  | cons z parts ih =>
      rw [List.map_cons, ← List.singleton_append, Factor.product_append, ih]
      simp only [List.forall_mem_cons]
      by_cases hz : z.choose? (z.node.info.map (entry s)) = some (entry s z.node.index) <;>
        simp [Factor.product, decisionFactor, hz]

end LocalStrategy

section Sums

variable {S : StateCounts} {n : InfoNode}

/-- A path that is cut off somewhere has states for the nodes before. -/
theorem indexOf_take {cut : Nat} {nodes : List Node} (hnodes : ∀ i ∈ nodes, InRange S.length i ∧ i < cut)
    {s : Path} (hs : InSpace (S.take cut) s) :
    Table.IndexOf (nodes.map (Table.extent S)) (nodes.map (entry s)) := by
  have hrange : ∀ i ∈ nodes, InRange (S.take cut).length i := by
    intro i hi
    obtain ⟨⟨h0, hlen⟩, hcut⟩ := hnodes i hi
    rw [List.length_take]
    exact ⟨h0, by lia⟩
  have hextent : nodes.map (Table.extent S) = nodes.map (Table.extent (S.take cut)) := by
    apply List.map_congr_left
    intro i hi
    rw [Table.extent, Table.extent, ← entry_append_left (hrange i hi) (S.drop cut), List.take_append_drop]
  rw [hextent]
  exact Table.indexOf_map hs hrange

/-- A path that is cut off before a node has the states that the node observes. -/
theorem indexOf_before (hindex : InRange S.length n.index)
    (hinfo : ∀ i ∈ n.info, InRange S.length i ∧ i < n.index) {s : Path}
    (hs : InSpace (S.take n.index.toNat) s) :
    Table.IndexOf (n.info.map (Table.extent S)) (n.info.map (entry s)) := by
  refine indexOf_take (fun i hi => ⟨(hinfo i hi).1, ?_⟩) hs
  rw [Int.toNat_of_nonneg hindex.1]
  exact (hinfo i hi).2

theorem map_entry_append_singleton (hindex : InRange S.length n.index)
    (hinfo : ∀ i ∈ n.info, InRange S.length i ∧ i < n.index) {s : Path}
    (hs : InSpace (S.take n.index.toNat) s) (k : State) :
    n.info.map (entry (s ++ [k])) = n.info.map (entry s) ∧ entry (s ++ [k]) n.index = k := by
  -- the state that is appended stands at the place of the node
  have hlen : (s.length : Int) = n.index := by
    rw [hs.length_eq, List.length_take, min_eq_left (le_of_lt hindex.toNat_lt)]
    exact Int.toNat_of_nonneg hindex.1
  constructor
  · apply List.map_congr_left
    intro i hi
    apply entry_append_left
    rw [hlen]
    exact ⟨(hinfo i hi).1.1, (hinfo i hi).2⟩
  · rw [← hlen]
    exact entry_append_self s k

theorem map_entry_congr (hinfo : ∀ i ∈ n.info, InRange S.length i ∧ i < n.index)
    {s t : Path} (h : ∀ i, 0 ≤ i → i ≤ n.index → entry s i = entry t i) :
    n.info.map (entry s) = n.info.map (entry t) := by
  apply List.map_congr_left
  intro i hi
  exact h i (hinfo i hi).1.1 (le_of_lt (hinfo i hi).2)

theorem entry_eq_extent (hpos : ∀ n ∈ S, 1 ≤ n) {k : Int} (hk : InRange S.length k) :
    entry S k = (Table.extent S k : Nat) := by
  have := entry_pos hpos hk
  rw [Table.extent, Int.toNat_of_nonneg (by omega)]

/-- The paths over the state counts of some nodes are the indices of a table over these nodes, in order. -/
theorem paths_map_entry (hpos : ∀ n ∈ S, 1 ≤ n) {nodes : List Node} (hn : ∀ k ∈ nodes, InRange S.length k) :
    paths (nodes.map (entry S)) .empty = Table.indexPaths (nodes.map (Table.extent S)) := by
  have hcounts : nodes.map (entry S) = (nodes.map (Table.extent S)).map Int.ofNat := by
    rw [List.map_map]
    exact List.map_congr_left fun k hk => entry_eq_extent hpos (hn k hk)
  rw [hcounts]
  rfl

/-- The probabilities of the states of a chance node sum up to one. -/
theorem ProbabilityTables.chanceFactor_sumsTo (hpos : ∀ n ∈ S, 1 ≤ n) {part : InfoNode × Table Rat}
    (hindex : InRange S.length part.1.index)
    (hinfo : ∀ i ∈ part.1.info, InRange S.length i ∧ i < part.1.index)
    (hover : part.2.Over S (part.1.info ++ [part.1.index])) (hstochastic : part.2.Stochastic) :
    (chanceFactor part).SumsTo S 1 := by
  constructor
  · intro s t h
    show entryAt part s = entryAt part t
    rw [entryAt, entryAt, map_entry_congr hinfo h, h _ hindex.1 le_rfl]
  · intro s hs
    obtain ⟨row, hrow, -, hlen, hcells⟩ := Table.row?_spec hover.shape_append (indexOf_before hindex hinfo hs)
    -- the entries for the states of the node make up a line of its table
    have hline : (statesBelow (entry S part.1.index)).map (fun k => entryAt part (s ++ [k])) = row := by
      rw [entry_eq_extent hpos hindex]
      apply Table.map_statesBelow_eq hlen
      intro k hk
      obtain ⟨hpast, hown⟩ := map_entry_append_singleton hindex hinfo hs k
      have hk' : k.toNat < row.length := hlen ▸ hk.toNat_lt
      rw [entryAt, hpast, hown, hcells k hk, List.getElem?_eq_getElem hk']
      rfl
    show ((statesBelow (entry S part.1.index)).map fun k => entryAt part (s ++ [k])).sum = 1
    rw [hline]
    exact (hstochastic row hrow).2

/-- Of the indicators of the states of a decision node one is one, and the others are zero. -/
theorem LocalStrategy.decisionFactor_sumsTo (hpos : ∀ n ∈ S, 1 ≤ n) {z : LocalStrategy} (hz : z.Fits S)
    (hindex : InRange S.length z.node.index)
    (hinfo : ∀ i ∈ z.node.info, InRange S.length i ∧ i < z.node.index) :
    z.decisionFactor.SumsTo S 1 := by
  constructor
  · intro s t h
    show (if z.choose? (z.node.info.map (entry s)) = some (entry s z.node.index) then (1 : Rat) else 0) =
      if z.choose? (z.node.info.map (entry t)) = some (entry t z.node.index) then 1 else 0
    rw [map_entry_congr hinfo h, h _ hindex.1 le_rfl]
  · intro s hs
    obtain ⟨k, hk, hrange, -⟩ := choose?_spec hz (indexOf_before hindex hinfo hs)
    -- the earlier states fix the selected state, and one of those that follow is that state
    have hvalue : ∀ i, z.decisionFactor.value (s ++ [i]) = if i = k then 1 else 0 := by
      intro i
      obtain ⟨hpast, hown⟩ := map_entry_append_singleton hindex hinfo hs i
      show (if z.choose? (z.node.info.map (entry (s ++ [i]))) = some (entry (s ++ [i]) z.node.index)
        then (1 : Rat) else 0) = _
      rw [hpast, hown, hk]
      simp [eq_comm]
    have hmem : k ∈ statesBelow (entry S z.node.index) := by
      rw [mem_statesBelow, entry_eq_extent hpos hindex]
      exact hrange
    show ((statesBelow (entry S z.node.index)).map fun i => z.decisionFactor.value (s ++ [i])).sum = 1
    simp only [hvalue]
    rw [List.sum_map_ite_eq, (statesBelow_nodup _).count, if_pos hmem]
    simp

end Sums

/-! ## Probabilities that are not negative -/

/-- No probability is negative: no entry of a table, and no value of a function. -/
def PathProbability.Nonneg : PathProbability Rat → Prop
  | .tables P => ∀ part ∈ P.parts, ∀ x ∈ part.2.entries, 0 ≤ x
  | .function f => ∀ s p, f s = .ok p → 0 ≤ p

namespace ProbabilityTables

theorem factor_yields_nonneg (s : Path) (c : InfoNode) {t : Table Rat} (h : ∀ x ∈ t.entries, 0 ≤ x) :
    Yields (factor s c t) (0 ≤ ·) fun _ => True := by
  unfold factor
  refine (orFault_yields trivial).bind fun observed _ => ?_
  refine (orFault_yields trivial).bind fun own _ => ?_
  refine Yields.mono (orFault_yields trivial) (fun x _ hx => ?_) fun _ hf => hf
  obtain ⟨i, -, hi⟩ := Option.bind_eq_some_iff.1 hx
  exact h x (List.mem_of_getElem? hi)

theorem product_yields_nonneg (s : Path) {parts : List (InfoNode × Table Rat)}
    (h : ∀ part ∈ parts, ∀ x ∈ part.2.entries, 0 ≤ x) {p : Rat} (hp : 0 ≤ p) :
    Yields (product s p parts) (0 ≤ ·) fun _ => True := by
  induction parts generalizing p with
  | nil => exact hp
  | cons part parts ih =>
      obtain ⟨hfirst, hrest⟩ := List.forall_mem_cons.1 h
      refine (factor_yields_nonneg s part.1 hfirst).bind fun f hf => ?_
      split
      · exact le_rfl
      · exact ih hrest (mul_nonneg hp hf)

end ProbabilityTables

/-- Then no path has a negative probability. -/
theorem PathProbability.Nonneg.prob_nonneg {dia : Diagram Rat} (h : dia.P.Nonneg) (s : Path) : 0 ≤ dia.prob s := by
  have heval : Yields (dia.P.eval s) (0 ≤ ·) fun _ => True := by
    cases hP : dia.P with
    | tables P =>
        rw [hP] at h
        exact ProbabilityTables.product_yields_nonneg s h zero_le_one
    | function f =>
        rw [hP] at h
        show Yields (f s) _ _
        cases hf : f s with
        | ok p => exact h s p hf
        | error e => trivial
  rw [Diagram.prob]
  cases hp : dia.P.eval s with
  | ok p => exact heval.of_ok hp
  | error e => exact le_rfl

/-! ## Tables that match -/

namespace Diagram.Tabulated

variable {dia : Diagram Rat}

/-- The probability of a path in space is the product of the entries that it selects. -/
theorem eval_entries (h : dia.Tabulated) {P : ProbabilityTables Rat} (hP : dia.P = .tables P)
    (hshaped : P.Shaped dia.S dia.C) {s : Path} (hs : InSpace dia.S s) :
    dia.P.eval s = .ok (P.parts.map fun part => ProbabilityTables.entryAt part s).prod := by
  have hfactor : ∀ part ∈ P.parts,
      ProbabilityTables.factor (α := Rat) s part.1 part.2 = .ok (ProbabilityTables.entryAt part s) := by
    intro part hpart
    have hn : part.1 ∈ dia.C ++ dia.D := List.mem_append_left _ (hshaped.mem_chance hpart)
    exact ProbabilityTables.factor_eq hs (hshaped.shaped part hpart) (h.accepted.info_inRange_of_mem hn)
      (h.accepted.index_inRange hn)
  rw [hP]
  show P.eval s = _
  rw [ProbabilityTables.eval, ProbabilityTables.product_eq hfactor, one_mul]

/-- A path in space has a probability. -/
theorem eval_prob (h : dia.Tabulated) {s : Path} (hs : InSpace dia.S s) :
    dia.P.eval s = .ok (dia.prob s) := by
  obtain ⟨P, hP, hshaped⟩ := h.probability
  rw [Diagram.prob, h.eval_entries hP hshaped hs]
  rfl

theorem nonneg (h : dia.Tabulated) (hnonneg : dia.NonnegTables) : dia.P.Nonneg := by
  obtain ⟨P, hP, -⟩ := h.probability
  rw [hP]
  exact hnonneg P hP

/-- Without negative entries no path has a negative probability. -/
theorem prob_nonneg (h : dia.Tabulated) (hnonneg : dia.NonnegTables) (s : Path) : 0 ≤ dia.prob s :=
  (h.nonneg hnonneg).prob_nonneg s

/-- With positive entries only, every path in space has a positive probability. -/
theorem prob_pos (h : dia.Tabulated) (hpositive : dia.PositiveTables) {s : Path} (hs : InSpace dia.S s) :
    0 < dia.prob s := by
  obtain ⟨P, hP, hshaped⟩ := h.probability
  rw [Diagram.prob, h.eval_entries hP hshaped hs]
  show 0 < (P.parts.map fun part => ProbabilityTables.entryAt part s).prod
  apply List.prod_pos
  intro x hx
  obtain ⟨part, hpart, rfl⟩ := List.mem_map.1 hx
  have hn : part.1 ∈ dia.C ++ dia.D := List.mem_append_left _ (hshaped.mem_chance hpart)
  have hcell := ProbabilityTables.get?_own hs (hshaped.shaped part hpart) (h.accepted.info_inRange_of_mem hn)
    (h.accepted.index_inRange hn)
  obtain ⟨i, -, hi⟩ := Option.bind_eq_some_iff.1 hcell
  exact hpositive P hP part hpart _ (List.mem_of_getElem? hi)

end Diagram.Tabulated

/-! ## The decisions of a strategy as factors -/

namespace Diagram.Staged

variable {dia : Diagram Rat}

theorem index_inRange (h : dia.Staged) {n : InfoNode} (hn : n ∈ dia.C ++ dia.D) :
    InRange dia.S.length n.index :=
  h.accepted.index_inRange hn

theorem info_before (h : dia.Staged) {n : InfoNode} (hn : n ∈ dia.C ++ dia.D) :
    ∀ i ∈ n.info, InRange dia.S.length i ∧ i < n.index :=
  fun i hi => ⟨h.accepted.info_inRange_of_mem hn i hi, h.info_lt n hn i hi⟩

/-- The indicators of all decisions multiply to the indicator of an allowed path. -/
theorem product_decisionFactor (h : dia.Staged) {Z : Strategy} (hZ : Z.Fits dia) {s : Path}
    (hs : InSpace dia.S s) :
    Factor.product (Z.parts.map LocalStrategy.decisionFactor) s = if Z.allows s = true then 1 else 0 := by
  rw [LocalStrategy.product_decisionFactor]
  apply if_congr _ rfl rfl
  rw [Strategy.allows, List.all_eq_true]
  refine forall₂_congr fun z hz => ?_
  have hn : z.node ∈ dia.C ++ dia.D := List.mem_append_right _ (hZ.mem_decision hz)
  rw [LocalStrategy.agrees_iff hs (fun i hi => (h.info_before hn i hi).1) (h.index_inRange hn)]

theorem decisionFactors_sumsTo (h : dia.Staged) {Z : Strategy} (hZ : Z.Fits dia) :
    ∀ φ ∈ Z.parts.map LocalStrategy.decisionFactor, φ.SumsTo dia.S 1 := by
  intro φ hφ
  obtain ⟨z, hz, rfl⟩ := List.mem_map.1 hφ
  have hn : z.node ∈ dia.C ++ dia.D := List.mem_append_right _ (hZ.mem_decision hz)
  exact LocalStrategy.decisionFactor_sumsTo h.counts_pos (hZ.parts z hz) (h.index_inRange hn) (h.info_before hn)

/-- With factors for the chance nodes and the indicators of the decisions there is one factor for each node. -/
theorem map_node_factors_perm (h : dia.Staged) {Z : Strategy} (hZ : Z.Fits dia) {chance : List Factor}
    (hnodes : chance.map Factor.node = dia.indices .chance) :
    ((chance ++ Z.parts.map LocalStrategy.decisionFactor).map Factor.node).Perm
      (statesBelow dia.S.length) := by
  refine List.Perm.trans ?_ h.accepted.indices_perm
  rw [List.map_append, List.map_append, hnodes]
  refine List.Perm.append_left _ ?_
  rw [List.map_map]
  exact hZ.indices_perm

/-- What is summed over the allowed paths may be any product with one factor for each chance node. -/
theorem sum_product_allowed (h : dia.Staged) {Z : Strategy} (hZ : Z.Fits dia) {chance : List Factor}
    (hnodes : chance.map Factor.node = dia.indices .chance) {w : Node → Rat}
    (hsum : ∀ φ ∈ chance, φ.SumsTo dia.S (w φ.node)) :
    ((dia.allowedPaths Z).map (Factor.product chance)).sum = ((dia.indices .chance).map w).prod := by
  let decisions := Z.parts.map LocalStrategy.decisionFactor
  let weight : Node → Rat := fun k => if k ∈ dia.indices .chance then w k else 1
  -- no decision node has the number of a chance node
  have hweight : ∀ d ∈ dia.D, weight d.index = 1 := by
    intro d hd
    apply if_neg
    intro hmem
    obtain ⟨c, hc, heq⟩ := List.mem_map.1 hmem
    exact h.accepted.chance_ne_decision hc hd heq
  have hfactors : ∀ φ ∈ chance ++ decisions, φ.SumsTo dia.S (weight φ.node) := by
    intro φ hφ
    rcases List.mem_append.1 hφ with hφ | hφ
    · have hmem : φ.node ∈ dia.indices .chance := hnodes ▸ List.mem_map_of_mem hφ
      rw [show weight φ.node = w φ.node from if_pos hmem]
      exact hsum φ hφ
    · have hone := h.decisionFactors_sumsTo hZ φ hφ
      obtain ⟨z, hz, rfl⟩ := List.mem_map.1 hφ
      rwa [show weight z.decisionFactor.node = 1 from hweight z.node (hZ.mem_decision hz)]
  calc ((dia.allowedPaths Z).map (Factor.product chance)).sum
      = ((paths dia.S .empty).map (Factor.product (chance ++ decisions))).sum := by
        rw [Diagram.allowedPaths, sum_map_filter]
        congr 1
        apply List.map_congr_left
        intro s hs
        rw [Factor.product_append, h.product_decisionFactor hZ (mem_paths_empty.1 hs), mul_ite, mul_one,
          mul_zero]
    _ = ((statesBelow dia.S.length).map weight).prod :=
        sum_product_factors weight (h.map_node_factors_perm hZ hnodes) hfactors
    _ = (((dia.C ++ dia.D).map InfoNode.index).map weight).prod :=
        ((h.accepted.indices_perm.map weight).prod_eq).symm
    _ = ((dia.indices .chance).map w).prod := by
        rw [List.map_append, List.map_append, List.prod_append, List.map_map (l := dia.D),
          List.prod_eq_one (l := dia.D.map _) ?_, mul_one]
        · congr 1
          apply List.map_congr_left
          intro k hk
          exact if_pos hk
        · intro x hx
          obtain ⟨d, hd, rfl⟩ := List.mem_map.1 hx
          exact hweight d hd

end Diagram.Staged

/-! ## Diagrams with stochastic tables -/

namespace Diagram.Ordered

variable {dia : Diagram Rat}

theorem index_inRange (h : dia.Ordered) {n : InfoNode} (hn : n ∈ dia.C ++ dia.D) :
    InRange dia.S.length n.index :=
  h.staged.index_inRange hn

theorem info_before (h : dia.Ordered) {n : InfoNode} (hn : n ∈ dia.C ++ dia.D) :
    ∀ i ∈ n.info, InRange dia.S.length i ∧ i < n.index :=
  h.staged.info_before hn

/-- The probability of a path in space is the product of its factors. -/
theorem eval_product (h : dia.Ordered) {P : ProbabilityTables Rat} (hP : dia.P = .tables P)
    (hfits : P.Fits dia.S dia.C) {s : Path} (hs : InSpace dia.S s) :
    dia.P.eval s = .ok (Factor.product (P.parts.map ProbabilityTables.chanceFactor) s) := by
  rw [h.tabulated.eval_entries hP hfits.toShaped hs, Factor.product, List.map_map]
  rfl

/-- A path in space has a probability. -/
theorem eval_prob (h : dia.Ordered) {s : Path} (hs : InSpace dia.S s) :
    dia.P.eval s = .ok (dia.prob s) :=
  h.tabulated.eval_prob hs

theorem eval_utility (h : dia.Ordered) {s : Path} (hs : InSpace dia.S s) :
    dia.U.eval s = .ok (dia.utility s) :=
  h.accepted.eval_utility h.utility hs

theorem prob_nonneg (h : dia.Ordered) (s : Path) : 0 ≤ dia.prob s :=
  h.tabulated.prob_nonneg h.nonnegTables s

/-- The entries that a path selects are factors of the chance nodes, in their order. -/
theorem map_node_chanceFactor {P : ProbabilityTables Rat} (hfits : P.Fits dia.S dia.C) :
    (P.parts.map ProbabilityTables.chanceFactor).map Factor.node = dia.indices .chance := by
  rw [List.map_map, Diagram.indices, ← hfits.nodes, List.map_map]
  rfl

theorem chanceFactors_sumsTo (h : dia.Ordered) {P : ProbabilityTables Rat} (hfits : P.Fits dia.S dia.C) :
    ∀ φ ∈ P.parts.map ProbabilityTables.chanceFactor, φ.SumsTo dia.S 1 := by
  intro φ hφ
  obtain ⟨part, hpart, rfl⟩ := List.mem_map.1 hφ
  have hn : part.1 ∈ dia.C ++ dia.D := List.mem_append_left _ (hfits.mem_chance hpart)
  exact ProbabilityTables.chanceFactor_sumsTo h.counts_pos (h.index_inRange hn) (h.info_before hn)
    (hfits.shaped part hpart) (hfits.stochastic part hpart)

/-- **Total probability.** The probabilities of the paths that a strategy allows sum up to one. -/
theorem sum_prob_allowed (h : dia.Ordered) {Z : Strategy} (hZ : Z.Fits dia) :
    ((dia.allowedPaths Z).map dia.prob).sum = 1 := by
  obtain ⟨P, hP, hfits⟩ := h.probability
  have htotal :=
    h.staged.sum_product_allowed hZ (map_node_chanceFactor hfits) (w := fun _ => 1) (h.chanceFactors_sumsTo hfits)
  rw [List.map_const', List.prod_replicate, one_pow] at htotal
  rw [← htotal]
  congr 1
  apply List.map_congr_left
  intro s hs
  rw [Diagram.prob, h.eval_product hP hfits (Diagram.inSpace_of_allowed hs)]
  rfl

end Diagram.Ordered

/-! ## Well-formed diagrams -/

namespace Diagram.WellFormed

variable {dia : Diagram Rat} {Z : Strategy} {n : InfoNode} {s : Path} (h : dia.WellFormed)

include h

theorem index_inRange (hn : n ∈ dia.C ++ dia.D) : InRange dia.S.length n.index :=
  h.ordered.index_inRange hn

theorem info_before (hn : n ∈ dia.C ++ dia.D) : ∀ i ∈ n.info, InRange dia.S.length i ∧ i < n.index :=
  h.ordered.info_before hn

theorem eval_prob (hs : InSpace dia.S s) : dia.P.eval s = .ok (dia.prob s) := h.ordered.eval_prob hs

theorem eval_utility (hs : InSpace dia.S s) : dia.U.eval s = .ok (dia.utility s) := h.ordered.eval_utility hs

theorem prob_nonneg (s : Path) : 0 ≤ dia.prob s := h.ordered.prob_nonneg s

theorem sum_prob_allowed (hZ : Z.Fits dia) : ((dia.allowedPaths Z).map dia.prob).sum = 1 :=
  h.ordered.sum_prob_allowed hZ

end Diagram.WellFormed
end InfluenceDiagrams
