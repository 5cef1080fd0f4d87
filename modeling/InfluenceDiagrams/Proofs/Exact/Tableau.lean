import Mathlib.Algebra.BigOperators.Field
import Mathlib.Algebra.BigOperators.Intervals
import Mathlib.Algebra.Order.Field.Rat
import Mathlib.Data.List.GetD
import Mathlib.Tactic.FieldSimp
import Mathlib.Tactic.Linarith
import Mathlib.Tactic.Ring
import InfluenceDiagrams.Exact.DualSimplex
import InfluenceDiagrams.Proofs.Numeric.Sums

/-!
# `InfluenceDiagrams.Proofs.Exact.Tableau` — repairs keep the equations

A repair exchanges two variables of a tableau. It does not change which values of all variables satisfy the equations,
nor the bounds of a variable, and a variable that is held at a bound stays inside of its bounds. So when no row is
violated any more, the values of the tableau are inside of all bounds, and satisfy the equations that it started with.

## Contents
- **`dot`** — the value of a combination; **`dot_solveFor`**, **`dot_substitute`** — an exchange in a combination.
- **`Between`**, **`Tableau.entries`**, **`Tableau.Solves`** — bounds, and values that satisfy the equations.
- **`violated?_eq_none`, `violated?_eq_some`, `entering?_eq_some`** — what is repaired, and by what.
- **`Tableau.Follows`** — what repairs preserve; **`Follows.entries_pivot`, `Follows.solves_pivot`** — the variables and the
  equations of one repair; **`Follows.pivot`**, **`Follows.run`** — one repair, and all of them.
- **`Tableau.Follows.exists_values`** — where no row is violated.
-/

namespace InfluenceDiagrams.Exact

/-- What is violated by nothing is accepted where no violation is. -/
theorem Tolerance.at_eq_zero {tol : Tolerance Rat} (h : tol.feasible = 0) (bound : Rat) : tol.at bound = 0 := by
  rw [Tolerance.at, h]
  exact zero_mul _

/-- A number between two bounds, either of which may be absent. -/
structure Between (low high : Option Rat) (x : Rat) : Prop where
  low_le : ∀ l, low = some l → l ≤ x
  le_high : ∀ h, high = some h → x ≤ h

/-! ## Combinations -/

/-- The value of a combination of things that have values by position. -/
def dot (coeffs : List Rat) (v : Nat → Rat) : Rat := ∑ i ∈ Finset.range coeffs.length, coeffs.getD i 0 * v i

theorem dot_congr {coeffs : List Rat} {v w : Nat → Rat} (h : ∀ i < coeffs.length, v i = w i) :
    dot coeffs v = dot coeffs w :=
  Finset.sum_congr rfl fun i hi => by rw [h i (Finset.mem_range.1 hi)]

/-- One position, and the others. -/
theorem dot_eq_add {coeffs : List Rat} {j : Nat} (hj : j < coeffs.length) (v : Nat → Rat) : dot coeffs v =
    coeffs.getD j 0 * v j + ∑ i ∈ (Finset.range coeffs.length).erase j, coeffs.getD i 0 * v i :=
  (Finset.add_sum_erase _ _ (Finset.mem_range.2 hj)).symm

theorem sum_zipWith_eq_dot {β : Type} (f : β → Rat) : ∀ {coeffs : List Rat} {xs : List β},
    coeffs.length = xs.length →
      (List.zipWith (fun a x => a * f x) coeffs xs).sum = dot coeffs fun i => (xs.map f).getD i 0
  | [], [], _ => rfl
  | a :: coeffs, x :: xs, h => by
      rw [List.zipWith_cons_cons, List.sum_cons, sum_zipWith_eq_dot f (Nat.succ.inj h), dot, dot, List.length_cons,
        Finset.sum_range_succ', add_comm]
      rfl

namespace Tableau

theorem length_solveFor (j : Nat) (coeffs : List Rat) : (solveFor j coeffs).length = coeffs.length := by
  rw [solveFor, List.length_map, List.length_zipIdx]

theorem getD_solveFor {j i : Nat} {coeffs : List Rat} (hi : i < coeffs.length) : (solveFor j coeffs).getD i 0 =
    if i = j then 1 / coeffs.getD j 0 else -(coeffs.getD i 0 / coeffs.getD j 0) := by
  rw [solveFor, List.getD_eq_getElem?_getD, List.getElem?_map, List.getElem?_zipIdx, List.getElem?_eq_getElem hi,
    List.getD_eq_getElem _ _ hi]
  simp

theorem length_substitute {j : Nat} {solved coeffs : List Rat} (h : solved.length = coeffs.length) :
    (substitute j solved coeffs).length = coeffs.length := by
  rw [substitute, List.length_zipWith, List.length_zipIdx, h, Nat.min_self]

theorem getD_substitute {j i : Nat} {solved coeffs : List Rat} (h : solved.length = coeffs.length)
    (hi : i < coeffs.length) : (substitute j solved coeffs).getD i 0 =
      if i = j then coeffs.getD j 0 * solved.getD i 0 else coeffs.getD i 0 + coeffs.getD j 0 * solved.getD i 0 := by
  have hlen := length_substitute (j := j) h
  rw [List.getD_eq_getElem _ _ (hlen ▸ hi), List.getD_eq_getElem solved _ (h ▸ hi),
    List.getD_eq_getElem (n := i) coeffs _ hi]
  simp only [substitute, List.getElem_zipWith, List.getElem_zipIdx, Nat.zero_add]

/-- If the column at a position has the value of the solved combination, the combination has the value that took the
place of the column. -/
theorem dot_solveFor {j : Nat} {coeffs : List Rat} {v w : Nat → Rat} (hj : j < coeffs.length)
    (ha : coeffs.getD j 0 ≠ 0) (hw : ∀ i, i ≠ j → w i = v i) (h : v j = dot (solveFor j coeffs) w) :
    dot coeffs v = w j := by
  have hlen := length_solveFor j coeffs
  have hothers : ∑ i ∈ (Finset.range coeffs.length).erase j, (solveFor j coeffs).getD i 0 * w i =
      -(∑ i ∈ (Finset.range coeffs.length).erase j, coeffs.getD i 0 * v i) / coeffs.getD j 0 := by
    rw [neg_div, Finset.sum_div, ← Finset.sum_neg_distrib]
    refine Finset.sum_congr rfl fun i hi => ?_
    obtain ⟨hne, hi⟩ := Finset.mem_erase.1 hi
    rw [getD_solveFor (Finset.mem_range.1 hi), if_neg hne, hw i hne]
    ring
  rw [dot_eq_add (hlen ▸ hj), hlen, hothers, getD_solveFor hj, if_pos rfl] at h
  rw [dot_eq_add hj, h]
  field_simp
  ring

/-- Then putting the solved combination in the place of the column does not change a combination. -/
theorem dot_substitute {j : Nat} {solved coeffs : List Rat} {v w : Nat → Rat} (hlen : solved.length = coeffs.length)
    (hj : j < coeffs.length) (hw : ∀ i, i ≠ j → w i = v i) (h : v j = dot solved w) :
    dot (substitute j solved coeffs) w = dot coeffs v := by
  have hothers : ∑ i ∈ (Finset.range coeffs.length).erase j, (substitute j solved coeffs).getD i 0 * w i =
      ∑ i ∈ (Finset.range coeffs.length).erase j, coeffs.getD i 0 * v i +
        coeffs.getD j 0 * ∑ i ∈ (Finset.range coeffs.length).erase j, solved.getD i 0 * w i := by
    rw [Finset.mul_sum, ← Finset.sum_add_distrib]
    refine Finset.sum_congr rfl fun i hi => ?_
    obtain ⟨hne, hi⟩ := Finset.mem_erase.1 hi
    rw [getD_substitute hlen (Finset.mem_range.1 hi), if_neg hne, hw i hne]
    ring
  rw [dot_eq_add (hlen ▸ hj), hlen] at h
  have hsub := length_substitute (j := j) hlen
  rw [dot_eq_add (hsub ▸ hj), hsub, hothers, getD_substitute hlen hj, if_pos rfl, dot_eq_add hj, h]
  ring

theorem valueOf_eq_dot {t : Tableau Rat} {coeffs : List Rat} (h : coeffs.length = t.columns.length) :
    t.valueOf coeffs = dot coeffs fun i => (t.columns.map Column.value).getD i 0 :=
  (scalarSum_eq_sum _).trans (sum_zipWith_eq_dot Column.value h)

/-! ## Choosing a repair -/

variable {tol : Tolerance Rat} {t : Tableau Rat}

theorem violation?_eq_none (htol : tol.feasible = 0) {b : Basic Rat} {x : Rat} (h : violation? tol b x = none) :
    Between b.low b.high x := by
  unfold violation? at h
  obtain ⟨habove, hbelow⟩ := Option.or_eq_none_iff.1 h
  constructor
  · intro l hl
    rw [hl, Option.bind_some, Tolerance.at_eq_zero htol] at hbelow
    by_contra hlt
    rw [if_pos (by linarith)] at hbelow
    cases hbelow
  · intro u hu
    rw [hu, Option.bind_some, Tolerance.at_eq_zero htol] at habove
    by_contra hlt
    rw [if_pos (by linarith)] at habove
    cases habove

theorem violation?_eq_some {b : Basic Rat} {x bound : Rat} {grow : Bool} (h : violation? tol b x = some (bound, grow)) :
    b.low = some bound ∨ b.high = some bound := by
  unfold violation? at h
  rcases Option.or_eq_some_iff.1 h with habove | ⟨-, hbelow⟩
  · obtain ⟨u, hu, habove⟩ := Option.bind_eq_some_iff.1 habove
    split at habove
    · cases habove
      exact Or.inr hu
    · cases habove
  · obtain ⟨l, hl, hbelow⟩ := Option.bind_eq_some_iff.1 hbelow
    split at hbelow
    · cases hbelow
      exact Or.inl hl
    · cases hbelow

/-- What is kept by going through basic variables in search of a violation. -/
theorem foldl_violated (bs : List (Basic Rat)) (best : Option (Basic Rat × Rat × Bool)) :
    (bs.foldl (t.firstViolation tol) best = none →
      best = none ∧ ∀ b ∈ bs, violation? tol b (t.valueOf b.coeffs) = none) ∧
    ∀ x, bs.foldl (t.firstViolation tol) best = some x →
      best = some x ∨ x.1 ∈ bs ∧ violation? tol x.1 (t.valueOf x.1.coeffs) = some x.2 := by
  induction bs generalizing best with
  | nil => exact ⟨fun h => ⟨h, fun b hb => absurd hb List.not_mem_nil⟩, fun x h => Or.inl h⟩
  | cons b bs ih =>
      refine ⟨fun h => ?_, fun x h => ?_⟩
      · obtain ⟨hstep, hrest⟩ := (ih _).1 h
        unfold firstViolation at hstep
        split at hstep
        · next hany =>
            rw [hstep] at hany
            cases hany
        · obtain ⟨hb, hbest⟩ := Option.or_eq_none_iff.1 hstep
          exact ⟨hbest, List.forall_mem_cons.2 ⟨Option.map_eq_none_iff.1 hb, hrest⟩⟩
      · rcases (ih _).2 x h with hstep | ⟨hx, hviolated⟩
        · unfold firstViolation at hstep
          split at hstep
          · exact Or.inl hstep
          · rcases Option.or_eq_some_iff.1 hstep with hb | ⟨-, hbest⟩
            · obtain ⟨y, hy, rfl⟩ := Option.map_eq_some_iff.1 hb
              exact Or.inr ⟨List.mem_cons_self, hy⟩
            · exact Or.inl hbest
        · exact Or.inr ⟨List.mem_cons_of_mem _ hx, hviolated⟩

/-- Where no row is violated, no basic variable is outside of its bounds. -/
theorem violated?_eq_none (h : t.violated? tol = none) :
    ∀ b ∈ t.basics, violation? tol b (t.valueOf b.coeffs) = none :=
  ((foldl_violated t.basics none).1 h).2

/-- What is repaired is a basic variable, and it goes to one of its bounds. -/
theorem violated?_eq_some {b : Basic Rat} {bound : Rat} {grow : Bool} (h : t.violated? tol = some (b, bound, grow)) :
    b ∈ t.basics ∧ (b.low = some bound ∨ b.high = some bound) := by
  rcases (foldl_violated t.basics none).2 _ h with hnone | ⟨hb, hviolated⟩
  · cases hnone
  · exact ⟨hb, violation?_eq_some hviolated⟩

theorem foldl_better_mem (e : Entering Rat) (rest : List (Entering Rat)) :
    rest.foldl Entering.better e ∈ e :: rest := by
  induction rest generalizing e with
  | nil => exact List.mem_cons_self
  | cons f rest ih =>
      rw [List.foldl_cons]
      have hbetter : Entering.better e f = e ∨ Entering.better e f = f := by
        unfold Entering.better
        split
        · exact Or.inl rfl
        · exact Or.inr rfl
      rcases List.mem_cons.1 (ih (Entering.better e f)) with hmem | hmem
      · rw [hmem]
        rcases hbetter with heq | heq
        · rw [heq]
          exact List.mem_cons_self
        · rw [heq]
          exact List.mem_cons_of_mem _ List.mem_cons_self
      · exact List.mem_cons_of_mem _ (List.mem_cons_of_mem _ hmem)

/-- What repairs a combination is a column that occurs in it. -/
theorem entering?_eq_some (htol : tol.feasible = 0) {grow : Bool} {coeffs : List Rat} {j : Nat}
    (h : t.entering? tol grow coeffs = some j) : j < t.columns.length ∧ coeffs.getD j 0 ≠ 0 := by
  unfold entering? at h
  dsimp only at h
  split at h
  · cases h
  · next e rest hcandidates =>
      obtain rfl := Option.some.inj h
      have hmem := foldl_better_mem e rest
      rw [← hcandidates, List.mem_filterMap] at hmem
      obtain ⟨candidate, hcandidate, hsome⟩ := hmem
      obtain ⟨k, hk, hget⟩ := List.getElem_of_mem hcandidate
      rw [List.getElem_zipWith, show candidate = some _ from hsome] at hget
      rw [List.length_zipWith, List.length_zipIdx] at hk
      split at hget
      · next hhelps =>
          obtain ⟨-, hpos⟩ := Bool.and_eq_true_iff.1 hhelps
          have hposition := congrArg Entering.position (Option.some.inj hget)
          rw [List.getElem_zipIdx] at hposition
          obtain rfl : k = (rest.foldl Entering.better e).position := (Nat.zero_add k).symm.trans hposition
          refine ⟨lt_of_lt_of_le hk (Nat.min_le_right _ _), ?_⟩
          rw [List.getD_eq_getElem _ _ (lt_of_lt_of_le hk (Nat.min_le_left _ _))]
          intro hzero
          rw [hzero, htol] at hpos
          exact absurd (of_decide_eq_true hpos) (by decide +kernel)
      · cases hget

end Tableau

/-! ## What repairs preserve -/

/-- The number of a variable and its bounds. -/
abbrev Entry := Nat × Option Rat × Option Rat

/-- The number and the bounds of a column. -/
def Column.entry (c : Column Rat) : Entry := (c.id, c.low, c.high)

/-- The number and the bounds of a basic variable. -/
def Basic.entry (b : Basic Rat) : Entry := (b.id, b.low, b.high)

theorem find?_of_nodup {β : Type} {f : β → Nat} {xs : List β} {x : β} (hnodup : (xs.map f).Nodup) (hx : x ∈ xs) :
    xs.find? (fun y => f y == f x) = some x := by
  cases hfind : xs.find? fun y => f y == f x with
  | none => exact absurd (beq_self_eq_true (f x)) (List.find?_eq_none.1 hfind x hx)
  | some y =>
      have hy : (f y == f x) = true := List.find?_some (p := fun y => f y == f x) hfind
      rw [List.inj_on_of_nodup_map hnodup (List.mem_of_find?_eq_some hfind) hx (eq_of_beq hy)]

/-- Two entries change their places. -/
theorem perm_exchange {xs ys : List Entry} {x y : Entry} {j : Nat} (hx : xs[j]? = some x) (hy : y ∈ ys)
    (hnodup : (ys.map Prod.fst).Nodup) :
    (xs.set j y ++ ys.map fun e => if e.1 = y.1 then x else e).Perm (xs ++ ys) := by
  obtain ⟨hj, rfl⟩ := List.getElem?_eq_some_iff.1 hx
  obtain ⟨before, behind, rfl⟩ := List.append_of_mem hy
  rw [List.map_append, List.map_cons, List.nodup_append, List.nodup_cons] at hnodup
  obtain ⟨-, ⟨hbehind, -⟩, hbefore⟩ := hnodup
  have hkeep : ∀ es : List Entry, y.1 ∉ es.map Prod.fst → (es.map fun e => if e.1 = y.1 then xs[j] else e) = es := by
    intro es hes
    refine (List.map_congr_left fun e he => if_neg fun heq => hes ?_).trans (List.map_id es)
    exact heq ▸ List.mem_map_of_mem he
  rw [List.map_append, List.map_cons, if_pos rfl, hkeep behind hbehind,
    hkeep before fun hmem => hbefore _ hmem _ List.mem_cons_self rfl, List.set_eq_take_append_cons_drop, if_pos hj]
  conv_rhs => rw [← List.take_append_drop j xs, List.drop_eq_getElem_cons hj]
  refine List.perm_iff_count.2 fun e => ?_
  simp only [List.count_append, List.count_cons]
  omega

namespace Tableau

variable {tol : Tolerance Rat} {s t : Tableau Rat} {b : Basic Rat} {bound : Rat} {j : Nat}

/-- The numbers of all variables of a tableau, with their bounds. -/
def entries (t : Tableau Rat) : List Entry := t.columns.map Column.entry ++ t.basics.map Basic.entry

/-- The number of the column at a position. -/
def idAt (t : Tableau Rat) (i : Nat) : Nat := (t.columns.map Column.id).getD i 0

/-- Values of all variables satisfy the equations of a tableau. -/
def Solves (t : Tableau Rat) (x : Nat → Rat) : Prop := ∀ b ∈ t.basics, x b.id = dot b.coeffs fun i => x (t.idAt i)

/-- One tableau comes from another by repairs: it is about the same variables, its columns are inside of their bounds,
and what satisfies its equations satisfies those of the other. -/
structure Follows (s t : Tableau Rat) : Prop where
  entries_perm : t.entries.Perm s.entries
  coeffs_length : ∀ b ∈ t.basics, b.coeffs.length = t.columns.length
  inside : ∀ c ∈ t.columns, Between c.low c.high c.value
  solves : ∀ x, t.Solves x → s.Solves x

theorem map_zipWith_cost {γ : Type} {f : Column Rat → γ} (hf : ∀ c cost, f { c with cost := cost } = f c) :
    ∀ {cs : List (Column Rat)} {costs : List Rat}, costs.length = cs.length →
      (List.zipWith (fun (c : Column Rat) cost => { c with cost := cost }) cs costs).map f = cs.map f
  | [], [], _ => rfl
  | c :: cs, cost :: costs, h => by
      rw [List.zipWith_cons_cons, List.map_cons, hf, map_zipWith_cost hf (Nat.succ.inj h), List.map_cons]

/-- A repair puts a basic variable, at a bound, in the place of a column. -/
theorem map_columns_pivot (bound : Rat) (hj : j < t.columns.length) (hlen : b.coeffs.length = t.columns.length) :
    ((t.pivot b bound j).columns.map fun c => (c.entry, c.value)) =
      (t.columns.map fun c => (c.entry, c.value)).set j (b.entry, bound) := by
  have hcosts : (substitute j (solveFor j b.coeffs) (t.columns.map Column.cost)).length = t.columns.length := by
    rw [length_substitute (by rw [length_solveFor, List.length_map, hlen]), List.length_map]
  rw [pivot, List.getElem?_eq_getElem hj]
  exact List.map_set.trans (congrArg (List.set · j _) (map_zipWith_cost (fun _ _ => rfl) hcosts))

/-- And it puts the column in the place of the basic variable, and what it is equal to into the other equations. -/
theorem basics_pivot (hj : j < t.columns.length) : (t.pivot b bound j).basics = t.basics.map fun o =>
    if o.id = b.id then
      ⟨t.columns[j].id, t.columns[j].low, t.columns[j].high, solveFor j b.coeffs⟩
    else { o with coeffs := substitute j (solveFor j b.coeffs) o.coeffs } := by
  rw [pivot, List.getElem?_eq_getElem hj]

theorem length_columns_pivot (hj : j < t.columns.length) (hlen : b.coeffs.length = t.columns.length) :
    (t.pivot b bound j).columns.length = t.columns.length := by
  have h := congrArg List.length (map_columns_pivot bound hj hlen)
  rwa [List.length_map, List.length_set, List.length_map] at h

theorem idAt_pivot (hj : j < t.columns.length) (hlen : b.coeffs.length = t.columns.length) (i : Nat) :
    (t.pivot b bound j).idAt i = if i = j then b.id else t.idAt i := by
  have h := congrArg (List.map fun x => x.1.1) (map_columns_pivot bound hj hlen)
  rw [List.map_map, List.map_set, List.map_map] at h
  have hids : (t.pivot b bound j).columns.map Column.id = (t.columns.map Column.id).set j b.id := h
  rw [idAt, hids, idAt, List.getD_eq_getElem?_getD, List.getElem?_set, List.length_map, if_pos hj]
  by_cases hi : i = j
  · rw [if_pos hi.symm, if_pos hi]
    rfl
  · rw [if_neg (Ne.symm hi), if_neg hi, List.getD_eq_getElem?_getD]

namespace Follows

theorem ids_nodup (h : Follows s t) (hs : (s.entries.map Prod.fst).Nodup) : (t.entries.map Prod.fst).Nodup :=
  (h.entries_perm.map Prod.fst).nodup_iff.2 hs

theorem basics_nodup (h : Follows s t) (hs : (s.entries.map Prod.fst).Nodup) : (t.basics.map Basic.id).Nodup := by
  have hids := h.ids_nodup hs
  rw [entries, List.map_append, List.map_map, List.map_map] at hids
  exact (List.nodup_append.1 hids).2.1

theorem eq_of_id (h : Follows s t) (hs : (s.entries.map Prod.fst).Nodup) {o : Basic Rat} (ho : o ∈ t.basics)
    (hb : b ∈ t.basics) (hid : o.id = b.id) : o = b :=
  List.inj_on_of_nodup_map (h.basics_nodup hs) ho hb hid

section Repairs

variable (h : Follows s t) (hs : (s.entries.map Prod.fst).Nodup) (hb : b ∈ t.basics) (hj : j < t.columns.length)

include h hs hb hj

/-- A repair exchanges two variables. -/
theorem entries_pivot : (t.pivot b bound j).entries.Perm t.entries := by
  have hfirst := congrArg (List.map Prod.fst) (map_columns_pivot bound hj (h.coeffs_length b hb))
  rw [List.map_map, List.map_set, List.map_map] at hfirst
  have hentries : (t.pivot b bound j).columns.map Column.entry = (t.columns.map Column.entry).set j b.entry := hfirst
  have hget : (t.columns.map Column.entry)[j]? = some t.columns[j].entry := by
    rw [List.getElem?_map, List.getElem?_eq_getElem hj]
    rfl
  have hnodup : ((t.basics.map Basic.entry).map Prod.fst).Nodup := by
    rw [List.map_map]
    exact h.basics_nodup hs
  have hperm := perm_exchange hget (List.mem_map_of_mem (f := Basic.entry) hb) hnodup
  rw [List.map_map] at hperm
  rw [entries, hentries, basics_pivot hj, List.map_map]
  refine (List.Perm.of_eq (congrArg _ (List.map_congr_left fun o _ => ?_))).trans hperm
  show Basic.entry (if _ then _ else _) = if o.id = b.id then _ else _
  split
  · rfl
  · rfl

/-- What satisfies the equations after a repair satisfies those before it. -/
theorem solves_pivot (ha : b.coeffs.getD j 0 ≠ 0) {x : Nat → Rat} (hx : (t.pivot b bound j).Solves x) : t.Solves x := by
  have hlen := h.coeffs_length b hb
  have hsolved : (solveFor j b.coeffs).length = t.columns.length := (length_solveFor j b.coeffs).trans hlen
  have hswap : ∀ i, i ≠ j → x ((t.pivot b bound j).idAt i) = x (t.idAt i) := fun i hi => by
    rw [idAt_pivot hj hlen, if_neg hi]
  have hplace : x ((t.pivot b bound j).idAt j) = x b.id := by rw [idAt_pivot hj hlen, if_pos rfl]
  -- the equation of the repaired row, solved for the column
  have hcolumn : x (t.idAt j) = dot (solveFor j b.coeffs) fun i => x ((t.pivot b bound j).idAt i) := by
    have hmem : (⟨t.columns[j].id, t.columns[j].low, t.columns[j].high, solveFor j b.coeffs⟩ : Basic Rat) ∈
        (t.pivot b bound j).basics := by
      rw [basics_pivot hj]
      exact List.mem_map.2 ⟨b, hb, if_pos rfl⟩
    have hid : t.idAt j = t.columns[j].id := by
      rw [idAt, List.getD_eq_getElem?_getD, List.getElem?_map, List.getElem?_eq_getElem hj]
      rfl
    rw [hid]
    exact hx _ hmem
  intro o ho
  by_cases hid : o.id = b.id
  · obtain rfl := h.eq_of_id hs ho hb hid
    rw [← hplace]
    exact (dot_solveFor (hlen ▸ hj) ha hswap hcolumn).symm
  · have hmem : { o with coeffs := substitute j (solveFor j b.coeffs) o.coeffs } ∈ (t.pivot b bound j).basics := by
      rw [basics_pivot hj]
      exact List.mem_map.2 ⟨o, ho, if_neg hid⟩
    have holen := h.coeffs_length o ho
    exact (hx _ hmem).trans (dot_substitute (hsolved.trans holen.symm) (holen ▸ hj) hswap hcolumn)

/-- **One repair.** -/
theorem pivot (hbound : Between b.low b.high bound) (ha : b.coeffs.getD j 0 ≠ 0) : Follows s (t.pivot b bound j) := by
  have hlen := h.coeffs_length b hb
  have hcolumns := map_columns_pivot bound hj hlen
  refine ⟨(h.entries_pivot hs hb hj).trans h.entries_perm, fun o ho => ?_, fun c hc => ?_, fun x hx =>
    h.solves x (h.solves_pivot hs hb hj ha hx)⟩
  · rw [basics_pivot hj] at ho
    obtain ⟨a, hmem, rfl⟩ := List.mem_map.1 ho
    have hsolved : (solveFor j b.coeffs).length = a.coeffs.length :=
      (length_solveFor j b.coeffs).trans (hlen.trans (h.coeffs_length a hmem).symm)
    rw [length_columns_pivot hj hlen]
    split
    · exact (length_solveFor j b.coeffs).trans hlen
    · exact (length_substitute hsolved).trans (h.coeffs_length a hmem)
  · have hinside : ∀ e : Entry × Rat, e ∈ (t.columns.map fun c => (c.entry, c.value)).set j (b.entry, bound) →
        Between e.1.2.1 e.1.2.2 e.2 := by
      intro e he
      rcases List.mem_or_eq_of_mem_set he with hold | rfl
      · obtain ⟨a, ha, rfl⟩ := List.mem_map.1 hold
        exact h.inside a ha
      · exact hbound
    exact hinside (c.entry, c.value) (hcolumns ▸ List.mem_map_of_mem (f := fun c : Column Rat => (c.entry, c.value)) hc)

end Repairs

/-- The bounds of a variable are those that it started with. -/
theorem entry_mem (h : Follows s t) {e : Entry} (he : e ∈ t.entries) : e ∈ s.entries := h.entries_perm.mem_iff.1 he

/-- **All repairs.** -/
theorem run (htol : tol.feasible = 0) (hs : (s.entries.map Prod.fst).Nodup)
    (hproper : ∀ e ∈ s.entries, ∀ l u, e.2.1 = some l → e.2.2 = some u → l ≤ u) {n : Nat} {t' : Tableau Rat}
    (h : Follows s t) (hrun : Tableau.run tol n t = some t') : Follows s t' ∧ t'.violated? tol = none := by
  induction n generalizing t with
  | zero => cases hrun
  | succ n ih =>
      rw [Tableau.run] at hrun
      split at hrun
      · next hnone =>
          obtain rfl := Option.some.inj hrun
          exact ⟨h, hnone⟩
      · next b bound grow hviolated =>
          obtain ⟨j, hentering, hrest⟩ := Option.bind_eq_some_iff.1 hrun
          obtain ⟨hb, hside⟩ := violated?_eq_some hviolated
          obtain ⟨hj, ha⟩ := entering?_eq_some htol hentering
          have hentry := hproper b.entry (h.entry_mem (List.mem_append_right _ (List.mem_map_of_mem hb)))
          have hbound : Between b.low b.high bound := by
            rcases hside with hlow | hhigh
            · refine ⟨fun l hl => ?_, fun u hu => hentry bound u hlow hu⟩
              exact le_of_eq (Option.some.inj (hl.symm.trans hlow))
            · refine ⟨fun l hl => hentry l bound hl hhigh, fun u hu => ?_⟩
              exact le_of_eq (Option.some.inj (hhigh.symm.trans hu))
          exact ih (h.pivot hs hb hj hbound ha) hrest

theorem value?_column (h : Follows s t) (hs : (s.entries.map Prod.fst).Nodup) {c : Column Rat} (hc : c ∈ t.columns) :
    t.value? c.id = some c.value := by
  have hids := h.ids_nodup hs
  rw [entries, List.map_append, List.map_map, List.map_map] at hids
  rw [value?, find?_of_nodup (f := Column.id) (List.nodup_append.1 hids).1 hc]
  rfl

theorem value?_basic (h : Follows s t) (hs : (s.entries.map Prod.fst).Nodup) (hb : b ∈ t.basics) :
    t.value? b.id = some (t.valueOf b.coeffs) := by
  have hids := h.ids_nodup hs
  rw [entries, List.map_append, List.map_map, List.map_map] at hids
  have hnone : t.columns.find? (fun c => c.id == b.id) = none := by
    rw [List.find?_eq_none]
    intro c hc heq
    exact (List.nodup_append.1 hids).2.2 c.id (List.mem_map_of_mem (f := Prod.fst ∘ Column.entry) hc) b.id
      (List.mem_map_of_mem (f := Prod.fst ∘ Basic.entry) hb) (eq_of_beq heq)
  rw [value?, hnone, find?_of_nodup (f := Basic.id) (h.basics_nodup hs) hb]
  rfl

theorem value?_eq_none (h : Follows s t) {id : Nat} (hid : id ∉ s.entries.map Prod.fst) : t.value? id = none := by
  rw [← (h.entries_perm.map Prod.fst).mem_iff, entries, List.map_append, List.map_map, List.map_map,
    List.mem_append, not_or] at hid
  have hcolumn : t.columns.find? (fun c => c.id == id) = none :=
    List.find?_eq_none.2 fun c hc heq => hid.1 (List.mem_map.2 ⟨c, hc, eq_of_beq heq⟩)
  have hbasic : t.basics.find? (fun b => b.id == id) = none :=
    List.find?_eq_none.2 fun b hb heq => hid.2 (List.mem_map.2 ⟨b, hb, eq_of_beq heq⟩)
  rw [value?, hcolumn, hbasic]
  rfl

/-- **Where no row is violated**, the values of a tableau are inside of all bounds that it started with, and satisfy the
equations that it started with. -/
theorem exists_values (h : Follows s t) (htol : tol.feasible = 0) (hs : (s.entries.map Prod.fst).Nodup)
    (hdone : t.violated? tol = none) :
    ∃ x : Nat → Rat, (∀ e ∈ s.entries, t.value? e.1 = some (x e.1) ∧ Between e.2.1 e.2.2 (x e.1)) ∧ s.Solves x := by
  let x : Nat → Rat := fun id => (t.value? id).getD 0
  have hcolumn : ∀ c ∈ t.columns, x c.id = c.value := fun c hc => by
    show (t.value? c.id).getD 0 = _
    rw [h.value?_column hs hc, Option.getD_some]
  have hbasic : ∀ b ∈ t.basics, x b.id = t.valueOf b.coeffs := fun b hb => by
    show (t.value? b.id).getD 0 = _
    rw [h.value?_basic hs hb, Option.getD_some]
  refine ⟨x, fun e he => ?_, h.solves x fun b hb => ?_⟩
  · rcases List.mem_append.1 (h.entries_perm.mem_iff.2 he) with hmem | hmem
    · obtain ⟨c, hc, rfl⟩ := List.mem_map.1 hmem
      have hvalue := hcolumn c hc
      exact ⟨(h.value?_column hs hc).trans (congrArg some hvalue.symm), hvalue ▸ h.inside c hc⟩
    · obtain ⟨b, hb, rfl⟩ := List.mem_map.1 hmem
      have hvalue := hbasic b hb
      have hbetween := violation?_eq_none htol (violated?_eq_none hdone b hb)
      exact ⟨(h.value?_basic hs hb).trans (congrArg some hvalue.symm), hvalue ▸ hbetween⟩
  · have hlen := h.coeffs_length b hb
    rw [hbasic b hb, valueOf_eq_dot hlen]
    refine dot_congr fun i hi => ?_
    have hi : i < t.columns.length := hlen ▸ hi
    rw [idAt, List.getD_eq_getElem _ _ (by rwa [List.length_map]), List.getD_eq_getElem _ _ (by rwa [List.length_map]),
      List.getElem_map, List.getElem_map]
    exact (hcolumn _ (List.getElem_mem hi)).symm

end Follows
end Tableau
end InfluenceDiagrams.Exact
