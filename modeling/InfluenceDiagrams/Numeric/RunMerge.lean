/-!
# `InfluenceDiagrams.Numeric.RunMerge` — merging two neighbouring runs

Two runs in ascending order are merged by comparing their heads. After one of them has won several
comparisons in a row, the entries of either run that go before the head of the other are counted by
galloping: in strides that double, and then by bisection. How many wins it takes is carried from one
merge to the next. The shorter run is held and the longer one is free, so a merge goes on from the front
or from the back.

The test whether one entry is below another is only asked, never assumed to be an order. Which entries
are compared is therefore part of every definition: an entry that is incomparable to the others, such as
a NaN, still has a definite place.

## Contents
- **`Side`, `leading`** — the end from which a merge goes, and the entries there that have a property.
- **`Merge`, `Merge.passHeld`, `Merge.passFree`, `Merge.run`** — a merge under way, and its steps.
- **`mergeRuns`** — one merge; **`mergeRuns_perm`**: nothing is lost.
-/

namespace InfluenceDiagrams

variable {β : Type}

/-! ## Galloping -/

/-- The end from which a merge goes. -/
inductive Side where
  | front
  | back
  deriving Repr, DecidableEq

/-- Half of a width; from the back, the middle one of an odd number of places is met from behind. -/
def Side.half : Side → Nat → Nat
  | front, width => width / 2
  | back, width => (width - 1) / 2

theorem Side.half_lt (side : Side) {width : Nat} (h : 0 < width) : side.half width < width := by
  cases side <;> simp only [Side.half] <;> omega

/-- Bisection between two places for the first one at which a test fails, if it fails from there on. -/
def bisect (side : Side) (holds : Nat → Bool) (low high : Nat) : Nat :=
  if low < high then
    if holds (low + side.half (high - low)) then
      bisect side holds (low + side.half (high - low) + 1) high
    else bisect side holds low (low + side.half (high - low))
  else low
termination_by high - low
decreasing_by
  · omega
  · rename_i h _
    have := side.half_lt (Nat.sub_pos_of_lt h)
    omega

/-- Go on in strides that double as long as a test holds: the last place where it did, and the place
after that, which is at most `limit`. -/
def stride (holds : Nat → Bool) (limit last next : Nat) : Nat × Nat :=
  if next < limit then
    if holds next then stride holds limit next (2 * next + 1) else (last, next)
  else (last, limit)
termination_by limit - next

/-- How many entries at the head of a list have a property, if those that have it come first. -/
def leading (side : Side) (holds : β → Bool) (xs : List β) : Nat :=
  let holdsAt := fun i => (xs[i]?).any holds
  if holdsAt 0 then
    let (last, next) := stride holdsAt xs.length 0 1
    bisect side holdsAt (last + 1) next
  else 0

/-! ## A merge under way -/

/-- What is left of the two runs, and what has been merged, the latest first. Lists start at the end from
which the merge goes. -/
structure Merge (β : Type) where
  held : List β
  free : List β
  merged : List β

/-- How a merge goes on: entry by entry, when one run has won so many comparisons in a row, or galloping. -/
inductive Pace where
  | racing (freeWon : Bool) (streak : Nat)
  | galloping

namespace Merge

/-- Whether nothing is left to compare: the free run is used up, or one entry of the held run is left,
which goes last. -/
def isOver (m : Merge β) : Bool := m.free.isEmpty || decide (m.held.length ≤ 1)

/-- The merged list when nothing is left to compare. -/
def result (m : Merge β) : List β := m.merged.reverse ++ (m.free ++ m.held)

/-- Merge some entries of the held run. -/
def takeHeld (m : Merge β) (k : Nat) : Merge β :=
  ⟨m.held.drop k, m.free, (m.held.take k).reverse ++ m.merged⟩

/-- Merge some entries of the free run. -/
def takeFree (m : Merge β) (k : Nat) : Merge β :=
  ⟨m.held, m.free.drop k, (m.free.take k).reverse ++ m.merged⟩

variable (below : β → β → Bool)

/-- Whether an entry of the free run goes before one of the held run. Of equal entries, the one that came
first does. -/
def freeGoesFirst (side : Side) (free held : β) : Bool :=
  match side with
  | .front => below free held
  | .back => below held free

/-- Whether the head of the free run goes first. -/
def freeWins (side : Side) (m : Merge β) : Bool :=
  match m.free, m.held with
  | y :: _, x :: _ => freeGoesFirst below side y x
  | _, _ => true

/-- Merge the entries of the held run that go before the head of the free run, and then that head; also
how many there were. -/
def passHeld (side : Side) (m : Merge β) : Merge β × Nat :=
  match m.free with
  | [] => (m, 0)
  | y :: _ =>
      let k := leading side (fun x => !freeGoesFirst below side y x) m.held
      let m := m.takeHeld k
      (if m.isOver then m else m.takeFree 1, k)

/-- Merge the entries of the free run that go before the head of the held run, and then that head; also
how many there were. -/
def passFree (side : Side) (m : Merge β) : Merge β × Nat :=
  match m.held with
  | [] => (m, 0)
  | x :: _ =>
      let k := leading side (fun y => freeGoesFirst below side y x) m.free
      let m := m.takeFree k
      (if m.isOver then m else m.takeHeld 1, k)

/-- The pass over the left run, which comes first whichever end a merge goes from. -/
def firstPass (side : Side) (m : Merge β) : Merge β × Nat :=
  match side with
  | .front => m.passHeld below side
  | .back => m.passFree below side

/-- The pass over the right run. -/
def secondPass (side : Side) (m : Merge β) : Merge β × Nat :=
  match side with
  | .front => m.passFree below side
  | .back => m.passHeld below side

/-- So many entries in one pass make galloping worth while. -/
def minGallop : Nat := 7

/-- Merge to the end. `left` bounds the steps to come, and `wins` says how many wins in a row it takes to
gallop; the result has that number as the merge leaves it. -/
def run (side : Side) : (left : Nat) → Pace → (wins : Nat) → Merge β → List β × Nat
  | 0, _, wins, m => (m.result, wins)
  | left + 1, pace, wins, m =>
      if m.isOver then (m.result, wins)
      else
        match pace with
        | .racing freeWon streak =>
            let free := m.freeWins below side
            let streak := if free = freeWon then streak + 1 else 1
            let m := if free then m.takeFree 1 else m.takeHeld 1
            run side left (if wins ≤ streak then .galloping else .racing free streak) wins m
        | .galloping =>
            let (m, j) := m.firstPass below side
            if m.isOver then (m.result, wins)
            else
              let (m, k) := m.secondPass below side
              if m.isOver then (m.result, wins)
              else if minGallop ≤ j ∨ minGallop ≤ k then run side left .galloping (max (wins - 1) 1) m
              else run side left (.racing false 0) (wins + 1) m

end Merge

/-! ## One merge -/

variable (below : β → β → Bool)

/-- Merge two neighbouring runs that have no entries to leave in place at either end. The head of the
free run is known to go first. -/
def mergeInner (wins : Nat) (a b : List β) : List β × Nat :=
  if a.length ≤ b.length then
    Merge.run below .front (a.length + b.length) (.racing false 0) wins ((Merge.mk a b []).takeFree 1)
  else
    let (merged, wins) := Merge.run below .back (a.length + b.length) (.racing false 0) wins
      ((Merge.mk b.reverse a.reverse []).takeFree 1)
    (merged.reverse, wins)

/-- How many entries of the left run stay in place: those that go before the head of the right run. -/
def leftInPlace (a b : List β) : Nat :=
  match b with
  | [] => a.length
  | y :: _ => leading .front (fun x => !below y x) a

/-- How many entries of the right run are merged: the others go behind the last entry of the left run. -/
def rightMerged (a b : List β) : Nat :=
  match a.getLast? with
  | none => 0
  | some x => b.length - leading .back (fun y => !below y x) b.reverse

/-- Merge two neighbouring runs. `wins` says how many wins in a row it takes to gallop. -/
def mergeRuns (wins : Nat) (a b : List β) : List β × Nat :=
  let i := leftInPlace below a b
  let j := rightMerged below (a.drop i) b
  if j = 0 then (a ++ b, wins)
  else
    let (merged, wins) := mergeInner below wins (a.drop i) (b.take j)
    (a.take i ++ (merged ++ b.drop j), wins)

/-! ## Nothing is lost -/

namespace Merge

theorem result_takeHeld (m : Merge β) (k : Nat) : (m.takeHeld k).result.Perm m.result := by
  simp only [result, takeHeld, List.reverse_append, List.reverse_reverse, List.append_assoc]
  refine List.Perm.append_left _ ?_
  rw [← List.append_assoc]
  refine (List.perm_append_comm.append_right _).trans ?_
  rw [List.append_assoc, List.take_append_drop]

theorem result_takeFree (m : Merge β) (k : Nat) : (m.takeFree k).result.Perm m.result := by
  simp only [result, takeFree, List.reverse_append, List.reverse_reverse, List.append_assoc]
  refine List.Perm.append_left _ ?_
  rw [← List.append_assoc, List.take_append_drop]

theorem result_passHeld (side : Side) (m : Merge β) : (m.passHeld below side).1.result.Perm m.result := by
  unfold passHeld
  split
  · exact .refl _
  · dsimp only
    split
    · exact result_takeHeld m _
    · exact (result_takeFree _ 1).trans (result_takeHeld m _)

theorem result_passFree (side : Side) (m : Merge β) : (m.passFree below side).1.result.Perm m.result := by
  unfold passFree
  split
  · exact .refl _
  · dsimp only
    split
    · exact result_takeFree m _
    · exact (result_takeHeld _ 1).trans (result_takeFree m _)

theorem result_firstPass (side : Side) (m : Merge β) :
    (m.firstPass below side).1.result.Perm m.result := by
  cases side
  · exact result_passHeld below _ m
  · exact result_passFree below _ m

theorem result_secondPass (side : Side) (m : Merge β) :
    (m.secondPass below side).1.result.Perm m.result := by
  cases side
  · exact result_passFree below _ m
  · exact result_passHeld below _ m

theorem run_perm (side : Side) (left : Nat) :
    ∀ (pace : Pace) (wins : Nat) (m : Merge β), (run below side left pace wins m).1.Perm m.result := by
  induction left with
  | zero => exact fun _ _ m => .refl _
  | succ left ih =>
      intro pace wins m
      unfold run
      split
      · exact .refl _
      · cases pace with
        | racing freeWon streak =>
            refine (ih _ _ _).trans ?_
            split
            · exact result_takeFree m 1
            · exact result_takeHeld m 1
        | galloping =>
            have hfirst := result_firstPass below side m
            dsimp only
            split
            · exact hfirst
            · have hsecond := (result_secondPass below side (m.firstPass below side).1).trans hfirst
              split
              · exact hsecond
              · split
                · exact (ih _ _ _).trans hsecond
                · exact (ih _ _ _).trans hsecond

end Merge

theorem mergeInner_perm (wins : Nat) (a b : List β) :
    (mergeInner below wins a b).1.Perm (a ++ b) := by
  unfold mergeInner
  split
  · refine (Merge.run_perm below _ _ _ _ _).trans ((Merge.result_takeFree _ 1).trans ?_)
    exact (List.perm_append_comm : (b ++ a).Perm (a ++ b))
  · refine (List.reverse_perm _).trans
      ((Merge.run_perm below _ _ _ _ _).trans ((Merge.result_takeFree _ 1).trans ?_))
    exact (List.reverse_perm a).append (List.reverse_perm b)

/-- A merge has the entries of both runs. -/
theorem mergeRuns_perm (wins : Nat) (a b : List β) : (mergeRuns below wins a b).1.Perm (a ++ b) := by
  unfold mergeRuns
  dsimp only
  split
  · exact .refl _
  · refine (((mergeInner_perm below wins _ _).append_right _).append_left _).trans ?_
    rw [List.append_assoc, List.take_append_drop, ← List.append_assoc, List.take_append_drop]

end InfluenceDiagrams
