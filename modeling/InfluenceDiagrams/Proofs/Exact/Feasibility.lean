import Mathlib.Data.Rat.Floor
import InfluenceDiagrams.Exact.Search
import InfluenceDiagrams.Proofs.Exact.Narrowing

/-!
# `InfluenceDiagrams.Proofs.Exact.Feasibility` — the answers of the exact solver are feasible

Whatever order variables are held in and boxes are left in, the search keeps the best point of a box that lies inside of
the box of the program and in which every integer variable is held. Such a point satisfies the program.

## Contents
- **`integerValues_mem`**, **`Box.isHeld_spec`** — the integers between two bounds.
- **`branches_spec`** — a branch narrows the box and holds the variable.
- **`Reached`** — the point kept so far; **`search_reached`, `dive_reached`, `explore_reached`** — it stays one.
- **`BoxProgram.FeasibleAt`**, **`optimum_feasible`** — the point of a program that is found.
-/

namespace InfluenceDiagrams.Exact

variable {tol : Tolerance Rat} {p : BoxProgram Rat} {g : Guide Rat} {b c : Box Rat} {best : Option (Incumbent Rat)}

/-! ## Integers between bounds -/

theorem integerValues_mem (hint : tol.integral = 0) {i : Nat} {n : Int} (h : n ∈ integerValues tol b i) :
    b.low i ≤ n ∧ (n : Rat) ≤ b.high i := by
  have hvalues : integerValues tol b i =
      (List.range (⌊b.high i⌋ + ⌊-b.low i⌋ + 1).toNat).map fun k : Nat => ⌊b.high i⌋ - (k : Int) := by
    have hhigh : Scalar.floor? (b.high i + tol.integral) = some ⌊b.high i⌋ := by
      rw [hint]
      exact congrArg (fun x : Rat => some ⌊x⌋) (add_zero _)
    have hlow : Scalar.floor? (tol.integral - b.low i) = some ⌊-b.low i⌋ := by
      rw [hint]
      exact congrArg (fun x : Rat => some ⌊x⌋) (zero_sub _)
    rw [integerValues, hhigh, hlow]
  rw [hvalues, List.mem_map] at h
  obtain ⟨k, hk, rfl⟩ := h
  have hk := List.mem_range.1 hk
  have hle : -⌊-b.low i⌋ ≤ ⌊b.high i⌋ - (k : Int) := by omega
  constructor
  · have hlow : -b.low i ≥ ⌊-b.low i⌋ := Int.floor_le _
    have hcast : -(⌊-b.low i⌋ : Rat) ≤ ((⌊b.high i⌋ - (k : Int) : Int) : Rat) := by exact_mod_cast hle
    linarith
  · have hhigh : (⌊b.high i⌋ : Rat) ≤ b.high i := Int.floor_le _
    have hcast : ((⌊b.high i⌋ - (k : Int) : Int) : Rat) ≤ ⌊b.high i⌋ := by
      exact_mod_cast sub_le_self _ (Int.natCast_nonneg k)
    linarith

theorem Box.isHeld_spec (hint : tol.integral = 0) {i : Nat} (h : b.isHeld tol i = true) : b.Held i := by
  obtain ⟨hmeet, hone⟩ := Bool.and_eq_true_iff.1 h
  have hmeet : b.low i = b.high i := eq_of_beq hmeet
  obtain ⟨n, hn⟩ := List.length_eq_one_iff.1 (eq_of_beq hone)
  have hmem := integerValues_mem hint (hn ▸ List.mem_singleton_self n)
  exact ⟨n, by linarith, by linarith⟩

/-- A branch lies inside of the box, and holds the variable. -/
theorem branches_spec (htol : tol.feasible = 0) (hint : tol.integral = 0) (hb : b.Proper) {i : Nat} {y : Rat × Box Rat}
    (h : y ∈ branches tol p g b i) : b.Narrows y.2 ∧ (i < b.lows.size → y.2.Held i) := by
  rw [branches, List.mem_mergeSort, List.mem_filterMap] at h
  obtain ⟨n, hn, hsome⟩ := h
  obtain ⟨c, hc, hbound⟩ := Option.bind_eq_some_iff.1 hsome
  obtain ⟨x, -, rfl⟩ := Option.map_eq_some_iff.1 hbound
  obtain ⟨hlow, hhigh⟩ := integerValues_mem hint hn
  have hhold := Box.narrows_hold hb hlow hhigh
  have hc := propagate_narrows htol hhold.proper hc
  exact ⟨hhold.trans hc, fun hi => hc.held (Box.held_hold hb hi n)⟩

/-! ## The search -/

/-- The integer variables of a program are held in a box, but for some. -/
def HeldBut (p : BoxProgram Rat) (rest : List Nat) (b : Box Rat) : Prop := ∀ i ∈ p.integers, i ∉ rest → b.Held i

/-- What is kept, if anything, is the best point of a box inside of another in which all integer variables are held. -/
def Reached (tol : Tolerance Rat) (p : BoxProgram Rat) (b : Box Rat) (best : Option (Incumbent Rat)) : Prop :=
  ∀ incumbent ∈ best, ∃ c, b.Narrows c ∧ HeldBut p [] c ∧ bestPoint tol p c = some incumbent.point

theorem HeldBut.narrows {rest : List Nat} (h : HeldBut p rest b) (hc : b.Narrows c) : HeldBut p rest c :=
  fun i hi hnot => hc.held (h i hi hnot)

/-- One variable more is held. -/
theorem HeldBut.tail {i : Nat} {rest : List Nat} (h : HeldBut p (i :: rest) b) (hi : i ∈ p.integers → b.Held i) :
    HeldBut p rest b := by
  intro k hk hnot
  by_cases heq : k = i
  · subst heq
    exact hi hk
  · exact h k hk fun hmem => (List.mem_cons.1 hmem).elim heq hnot

theorem Reached.none : Reached tol p b none := fun _ h => nomatch h

theorem settle_reached (hc : b.Narrows c) (hheld : HeldBut p [] c) (h : Reached tol p b best) :
    Reached tol p b (settle tol p c best) := by
  unfold settle
  cases hpoint : bestPoint tol p c with
  | none => exact h
  | some point =>
      dsimp only
      split
      · intro incumbent hbest
        obtain rfl := Option.some.inj hbest
        exact ⟨c, hc, hheld, hpoint⟩
      · exact h

section Programs

variable (htol : tol.feasible = 0) (hint : tol.integral = 0) (hp : p.integral.size = b.lows.size)

include htol hint hp

/-- A branch of a box inside of the box of the program. -/
theorem HeldBut.branch {i : Nat} {rest : List Nat} (h : HeldBut p (i :: rest) c) (hc : b.Narrows c)
    {y : Rat × Box Rat} (hy : y ∈ branches tol p g c i) : b.Narrows y.2 ∧ HeldBut p rest y.2 := by
  obtain ⟨hnarrow, hheld⟩ := branches_spec htol hint hc.proper hy
  refine ⟨hc.trans hnarrow, (h.narrows hnarrow).tail fun hi => hheld ?_⟩
  rw [hc.size_eq, ← hp]
  exact List.mem_range.1 (List.mem_filter.1 hi).1

/-- **Within one box.** -/
theorem search_reached {rest : List Nat} (hc : b.Narrows c) (hheld : HeldBut p rest c) (h : Reached tol p b best) :
    Reached tol p b (search tol p g rest c best) := by
  induction rest generalizing c best with
  | nil => exact settle_reached hc hheld h
  | cons i rest ih =>
      unfold search
      split
      · next hi => exact ih hc (hheld.tail fun _ => Box.isHeld_spec hint hi) h
      · have hfold : ∀ (ys : List (Rat × Box Rat)) (best : Option (Incumbent Rat)),
            (∀ y ∈ ys, y ∈ branches tol p g c i) → Reached tol p b best →
            Reached tol p b (ys.foldl (fun best y =>
              if beats tol y.1 best then search tol p g rest y.2 best else best) best) := by
          intro ys
          induction ys with
          | nil => exact fun _ _ h => h
          | cons y ys ihys =>
              intro best hys h
              obtain ⟨hy, hys⟩ := List.forall_mem_cons.1 hys
              obtain ⟨hnarrow, hrest⟩ := hheld.branch htol hint hp hc hy
              rw [List.foldl_cons]
              refine ihys _ hys ?_
              split
              · exact ih hnarrow hrest h
              · exact h
        exact hfold _ best (fun _ hy => hy) h

/-- **The first point.** -/
theorem dive_reached {rest : List Nat} (hc : b.Narrows c) (hheld : HeldBut p rest c) :
    Reached tol p b (dive tol p g rest c) := by
  induction rest generalizing c with
  | nil => exact settle_reached hc hheld .none
  | cons i rest ih =>
      unfold dive
      split
      · next hi => exact ih hc (hheld.tail fun _ => Box.isHeld_spec hint hi)
      · intro incumbent hbest
        obtain ⟨y, hy, hsome⟩ := List.exists_of_findSome?_eq_some hbest
        obtain ⟨hnarrow, hrest⟩ := hheld.branch htol hint hp hc hy
        exact ih hnarrow hrest incumbent hsome

end Programs

/-! ## Boxes that wait -/

theorem Pending.mem_insert {x y : Pending Rat} {queue : List (Pending Rat)} :
    y ∈ x.insert tol queue ↔ y = x ∨ y ∈ queue := by
  induction queue with
  | nil => rw [Pending.insert, List.mem_singleton, or_iff_left List.not_mem_nil]
  | cons z queue ih =>
      rw [Pending.insert]
      split
      · rw [List.mem_cons, ih, List.mem_cons, or_left_comm]
      · rw [List.mem_cons]

theorem Pending.mem_foldl_insert {y : Pending Rat} {next queue : List (Pending Rat)} :
    y ∈ next.foldl (fun queue x => x.insert tol queue) queue ↔ y ∈ next ∨ y ∈ queue := by
  induction next generalizing queue with
  | nil => exact (or_iff_right List.not_mem_nil).symm
  | cons x next ih => rw [List.foldl_cons, ih, Pending.mem_insert, List.mem_cons, or_assoc, or_left_comm]

/-- Boxes that wait lie inside of a box, and the integer variables are held in them, but for the inner ones and for those
that they list. -/
def Waiting (p : BoxProgram Rat) (inner : List Nat) (b : Box Rat) (queue : List (Pending Rat)) : Prop :=
  ∀ x ∈ queue, b.Narrows x.box ∧ HeldBut p (x.rest ++ inner) x.box

/-- **Among boxes.** -/
theorem explore_reached (htol : tol.feasible = 0) (hint : tol.integral = 0) (hp : p.integral.size = b.lows.size)
    {inner : List Nat} {fuel : Nat} {queue : List (Pending Rat)} (hqueue : Waiting p inner b queue)
    (h : Reached tol p b best) : Reached tol p b (explore tol p g inner fuel queue best) := by
  induction fuel generalizing queue best with
  | zero => exact h
  | succ fuel ih =>
      cases queue with
      | nil => exact h
      | cons x queue =>
          obtain ⟨bound, rest, c⟩ := x
          obtain ⟨⟨hx, hheld⟩, hothers⟩ := List.forall_mem_cons.1 hqueue
          rw [explore]
          split
          · cases rest with
            | nil => exact ih hothers (search_reached htol hint hp hx hheld h)
            | cons i rest =>
                refine ih (fun y hy => ?_) h
                rcases Pending.mem_foldl_insert.1 hy with hnext | hold
                · split at hnext
                  · next hi =>
                      obtain rfl := List.mem_singleton.1 hnext
                      exact ⟨hx, hheld.tail fun _ => Box.isHeld_spec hint hi⟩
                  · obtain ⟨z, hz, rfl⟩ := List.mem_map.1 hnext
                    exact hheld.branch htol hint hp hx hz
                · exact hothers y hold
          · exact h

/-! ## Programs -/

/-- A program whose box is not empty, with rows that name a variable once. -/
structure BoxProgram.Regular (p : BoxProgram Rat) : Prop where
  proper : p.box.Proper
  size_eq : p.integral.size = p.box.lows.size
  rows : ∀ r ∈ p.rows, r.Regular p.box.lows.size

/-- A point satisfies a program: it is inside of all bounds, an integer where it has to be, and satisfies all rows. -/
structure BoxProgram.FeasibleAt (p : BoxProgram Rat) (point : Array Rat) : Prop where
  size_eq : point.size = p.box.lows.size
  inside : ∀ i < p.box.lows.size, p.box.low i ≤ point.getD i 0 ∧ point.getD i 0 ≤ p.box.high i
  integers : ∀ i ∈ p.integers, ∃ n : Int, point.getD i 0 = n
  rows : ∀ r ∈ p.rows, Between r.low r.high (r.sumAt fun i => point.getD i 0)

theorem Reached.feasibleAt (htol : tol.feasible = 0) (hp : p.Regular) (h : Reached tol p p.box best)
    {incumbent : Incumbent Rat} (hbest : best = some incumbent) : p.FeasibleAt incumbent.point := by
  obtain ⟨c, hc, hheld, hpoint⟩ := h incumbent hbest
  have hrows : ∀ r ∈ p.rows, r.Regular c.lows.size := fun r hr => hc.size_eq ▸ hp.rows r hr
  obtain ⟨hsize, hinside, hbetween⟩ := bestPoint_spec htol hc.proper hrows hpoint
  rw [hc.size_eq] at hsize hinside
  refine ⟨hsize, fun i hi => ?_, fun i hi => ?_, hbetween⟩
  · exact ⟨(hc.low_le i).trans (hinside i hi).1, (hinside i hi).2.trans (hc.high_le i)⟩
  · obtain ⟨n, hlow, hhigh⟩ := hheld i hi List.not_mem_nil
    have hlt : i < p.box.lows.size := hp.size_eq ▸ List.mem_range.1 (List.mem_filter.1 hi).1
    exact ⟨n, le_antisymm (hhigh ▸ (hinside i hlt).2) (hlow ▸ (hinside i hlt).1)⟩

/-- **What is found is feasible.** Without tolerances for rows and integers, the point of a program that is found
satisfies it. -/
theorem optimum_feasible (htol : tol.feasible = 0) (hint : tol.integral = 0) (hp : p.Regular)
    {incumbent : Incumbent Rat} (h : optimum tol p = some incumbent) : p.FeasibleAt incumbent.point := by
  obtain ⟨b, hb, h⟩ := Option.bind_eq_some_iff.1 h
  obtain ⟨first, hfirst, h⟩ := Option.bind_eq_some_iff.1 h
  obtain ⟨bound, -, h⟩ := Option.bind_eq_some_iff.1 h
  have hb := propagate_narrows htol hp.proper hb
  generalize p.alternatives tol passes = alternatives at hfirst h
  generalize innerOrder p alternatives = inner at hfirst h
  -- every integer variable is an inner or an outer one
  have hall : ∀ i ∈ p.integers, i ∈ inner ∨ i ∈ p.integers.filter fun i => !inner.contains i := by
    intro i hi
    by_cases hinner : i ∈ inner
    · exact Or.inl hinner
    · exact Or.inr (List.mem_filter.2 ⟨hi, by simpa using hinner⟩)
  have hdive : Reached tol p p.box (some first) := by
    rw [← hfirst]
    refine dive_reached htol hint hp.size_eq hb fun i hi hnot => ?_
    exact absurd (List.mem_append.2 (hall i hi)) hnot
  refine (explore_reached htol hint hp.size_eq ?_ hdive).feasibleAt htol hp h
  intro x hx
  rw [List.mem_singleton.1 hx]
  exact ⟨hb, fun i hi hnot => absurd (List.mem_append.2 (hall i hi).symm) hnot⟩

end InfluenceDiagrams.Exact
