import InfluenceDiagrams.Numeric.RunMerge

/-!
# `InfluenceDiagrams.Numeric.Ascending` — ascending order, also of incomparable entries

A list is put into ascending order by a test whether one entry is below another; equal entries keep
their order. Where every two entries compare, that says all there is to say. A NaN compares with nothing:
then the place of every entry depends on the comparisons that are made, and these are those of sorting by
runs. The list is cut into runs that are in order already, falling ones being reversed and short ones
extended by binary insertion, and neighbouring runs are merged in an order given by their boundaries.

## Contents
- **`headRun`, `insertAscending`, `firstRun`** — cutting a run off the head of a list.
- **`boundaryPower`, `Run`, `push`, `finish`** — which runs are merged when.
- **`sortRuns`** — sorting by runs; **`sortRuns_perm`**: nothing is lost.
- **`ascending`** — the list in ascending order.
-/

namespace InfluenceDiagrams

variable {β : Type} (below : β → β → Bool)

/-! ## Runs -/

/-- Split off the longest head in which no entry is below the one before it. -/
def risingRun : List β → List β × List β
  | x :: y :: rest =>
      if below y x then ([x], y :: rest)
      else
        let (run, tail) := risingRun (y :: rest)
        (x :: run, tail)
  | xs => (xs, [])

/-- Split off the longest head in which every entry is below the one before it. -/
def fallingRun : List β → List β × List β
  | x :: y :: rest =>
      if below y x then
        let (run, tail) := fallingRun (y :: rest)
        (x :: run, tail)
      else ([x], y :: rest)
  | xs => (xs, [])

/-- Split off the run at the head of a list; a falling one is reversed. -/
def headRun : List β → List β × List β
  | x :: y :: rest =>
      if below y x then
        let (run, tail) := fallingRun below (x :: y :: rest)
        (run.reverse, tail)
      else risingRun below (x :: y :: rest)
  | xs => (xs, [])

/-- Binary search between two places: left when the entry is below the middle one, right otherwise. -/
def placeFor (x : β) (xs : List β) (low high : Nat) : Nat :=
  if low < high then
    let middle := (low + high) / 2
    match xs[middle]? with
    | some y =>
        if below x y then placeFor x xs low middle else placeFor x xs (middle + 1) high
    | none => low
  else low
termination_by high - low

/-- Insert an entry at the place that binary search finds. -/
def insertAscending (xs : List β) (x : β) : List β :=
  let i := placeFor below x xs 0 xs.length
  xs.take i ++ x :: xs.drop i

/-- The length that runs of a list of `n` entries are extended to. A list of fewer than 64 entries is one
run; otherwise the lengths are such that there are a little fewer runs than a power of two. -/
def runLength (n carry : Nat) : Nat :=
  if n < 64 then n + carry else runLength (n / 2) (max carry (n % 2))

/-- Split off the run at the head of a list, extended to a length if the list is long enough. -/
def firstRun (length : Nat) (xs : List β) : List β × List β :=
  let (run, tail) := headRun below xs
  let missing := length - run.length
  ((tail.take missing).foldl (insertAscending below) run, tail.drop missing)

/-! ## Pending runs -/

/-- A run with the place of its first entry, and the power of the boundary behind it. -/
structure Run (β : Type) where
  start : Nat
  entries : List β
  power : Nat

/-- The power of the boundary between runs of lengths `m` and `k`, the first one from place `start` on, in
a list of `n` entries: the least number of binary places in which the middles of the two runs, as
fractions of the list, differ. -/
def boundaryPower (n start m k : Nat) : Nat :=
  let a := 2 * start + m
  let b := a + m + k
  1 + ((List.range n).find? fun i => a * Nat.pow 2 i / n != b * Nat.pow 2 i / n).getD n

/-- Merge a run with the one before it. -/
def Run.mergeWith (wins : Nat) (before after : Run β) : Run β × Nat :=
  let (entries, wins) := mergeRuns below wins before.entries after.entries
  ({ before with entries := entries }, wins)

/-- Merge a run with those before it, as long as the boundary between them has a greater power. -/
def collapse (power wins : Nat) (top : Run β) : List (Run β) → List (Run β) × Nat
  | [] => ([{ top with power := power }], wins)
  | run :: rest =>
      if power < run.power then
        let (top, wins) := run.mergeWith below wins top
        collapse power wins top rest
      else ({ top with power := power } :: run :: rest, wins)

/-- Put a further run behind some pending ones, the last of which come first in the list. -/
def push (n wins : Nat) (entries : List β) : List (Run β) → List (Run β) × Nat
  | [] => ([⟨0, entries, 0⟩], wins)
  | top :: rest =>
      let power := boundaryPower n top.start top.entries.length entries.length
      let (runs, wins) := collapse below power wins top rest
      (⟨top.start + top.entries.length, entries, 0⟩ :: runs, wins)

/-- Cut a list of `n` entries into runs, each put behind the pending ones. `left` bounds the runs to
come. -/
def collect (n : Nat) : (left wins : Nat) → List (Run β) → List β → List (Run β) × Nat
  | 0, wins, runs, rest => push below n wins rest runs
  | _ + 1, wins, runs, [] => (runs, wins)
  | left + 1, wins, runs, x :: rest =>
      let (run, tail) := firstRun below (runLength n 0) (x :: rest)
      let (runs, wins) := push below n wins run runs
      collect n left wins runs tail

/-- The entries of pending runs in the order of their places. -/
def pendingEntries (runs : List (Run β)) : List β := runs.reverse.flatMap Run.entries

/-- Merge pending runs until one is left: the last two, unless the last one is longer than the third from
the end, which is then merged with the second. `left` bounds the merges. -/
def finish : (left wins : Nat) → List (Run β) → List β
  | left + 1, wins, top :: second :: third :: rest =>
      if third.entries.length < top.entries.length then
        let (run, wins) := third.mergeWith below wins second
        finish left wins (top :: run :: rest)
      else
        let (run, wins) := second.mergeWith below wins top
        finish left wins (run :: third :: rest)
  | _ + 1, wins, [top, second] => (second.mergeWith below wins top).1.entries
  | _, _, runs => pendingEntries runs

/-- Sort by runs. -/
def sortRuns (xs : List β) : List β :=
  let (runs, wins) := collect below xs.length (xs.length + 1) Merge.minGallop [] xs
  finish below runs.length wins runs

/-- The list in ascending order. `compares` says which entries compare with all others; as long as all
do, the order is that of any sorting that keeps equal entries in order. -/
def ascending (compares : β → Bool) (xs : List β) : List β :=
  if xs.all compares then xs.mergeSort fun a b => !below b a else sortRuns below xs

/-! ## Nothing is lost -/

theorem insertAscending_perm (xs : List β) (x : β) :
    (insertAscending below xs x).Perm (x :: xs) := by
  simp only [insertAscending]
  refine List.perm_middle.trans (List.Perm.cons x ?_)
  rw [List.take_append_drop]

theorem foldl_insertAscending_perm (xs : List β) :
    ∀ run : List β, (xs.foldl (insertAscending below) run).Perm (run ++ xs) := by
  induction xs with
  | nil => intro run; rw [List.append_nil]; exact .refl _
  | cons x xs ih =>
      intro run
      refine (ih _).trans ((insertAscending_perm below run x).append_right xs |>.trans ?_)
      exact List.perm_middle.symm

theorem risingRun_append : ∀ xs : List β, (risingRun below xs).1 ++ (risingRun below xs).2 = xs
  | [] => rfl
  | [_] => rfl
  | x :: y :: rest => by
      unfold risingRun
      split
      · rfl
      · exact congrArg (x :: ·) (risingRun_append (y :: rest))

theorem fallingRun_append : ∀ xs : List β, (fallingRun below xs).1 ++ (fallingRun below xs).2 = xs
  | [] => rfl
  | [_] => rfl
  | x :: y :: rest => by
      unfold fallingRun
      split
      · exact congrArg (x :: ·) (fallingRun_append (y :: rest))
      · rfl

theorem headRun_perm (xs : List β) : ((headRun below xs).1 ++ (headRun below xs).2).Perm xs := by
  unfold headRun
  split
  · split
    · refine ((List.reverse_perm _).append_right _).trans ?_
      rw [fallingRun_append]
    · rw [risingRun_append]
  · rw [List.append_nil]

theorem firstRun_perm (length : Nat) (xs : List β) :
    ((firstRun below length xs).1 ++ (firstRun below length xs).2).Perm xs := by
  unfold firstRun
  dsimp only
  refine ((foldl_insertAscending_perm below _ _).append_right _).trans ?_
  rw [List.append_assoc, List.take_append_drop]
  exact headRun_perm below xs

theorem pendingEntries_cons (run : Run β) (runs : List (Run β)) :
    pendingEntries (run :: runs) = pendingEntries runs ++ run.entries := by
  simp [pendingEntries]

theorem mergeWith_perm (wins : Nat) (before after : Run β) :
    (before.mergeWith below wins after).1.entries.Perm (before.entries ++ after.entries) :=
  mergeRuns_perm below wins _ _

theorem collapse_perm (power : Nat) (rest : List (Run β)) :
    ∀ (wins : Nat) (top : Run β), (pendingEntries (collapse below power wins top rest).1).Perm
      (pendingEntries (top :: rest)) := by
  induction rest with
  | nil => exact fun _ _ => .refl _
  | cons run rest ih =>
      intro wins top
      unfold collapse
      split
      · refine (ih _ _).trans ?_
        rw [pendingEntries_cons, pendingEntries_cons, pendingEntries_cons, List.append_assoc]
        exact (mergeWith_perm below wins run top).append_left _
      · rw [pendingEntries_cons, pendingEntries_cons (top : Run β)]

theorem push_perm (n wins : Nat) (entries : List β) (runs : List (Run β)) :
    (pendingEntries (push below n wins entries runs).1).Perm (pendingEntries runs ++ entries) := by
  cases runs with
  | nil => simp [push, pendingEntries]
  | cons top rest =>
      unfold push
      dsimp only
      rw [pendingEntries_cons]
      exact (collapse_perm below _ rest wins top).append_right _

theorem collect_perm (n left : Nat) : ∀ (wins : Nat) (runs : List (Run β)) (xs : List β),
    (pendingEntries (collect below n left wins runs xs).1).Perm (pendingEntries runs ++ xs) := by
  induction left with
  | zero => exact fun wins runs xs => push_perm below n wins xs runs
  | succ left ih =>
      intro wins runs xs
      cases xs with
      | nil => rw [List.append_nil]; exact .refl _
      | cons x rest =>
          unfold collect
          dsimp only
          refine (ih _ _ _).trans (((push_perm below n wins _ runs).append_right _).trans ?_)
          rw [List.append_assoc]
          exact (firstRun_perm below _ _).append_left _

theorem finish_perm (left : Nat) : ∀ (wins : Nat) (runs : List (Run β)),
    (finish below left wins runs).Perm (pendingEntries runs) := by
  induction left with
  | zero => intro wins runs; unfold finish; exact .refl _
  | succ left ih =>
      intro wins runs
      match runs with
      | [] => unfold finish; exact .refl _
      | [_] => unfold finish; exact .refl _
      | [top, second] =>
          unfold finish
          refine (mergeWith_perm below wins second top).trans ?_
          simp [pendingEntries]
      | top :: second :: third :: rest =>
          unfold finish
          split
          · refine (ih _ _).trans ?_
            simp only [pendingEntries_cons, List.append_assoc]
            refine List.Perm.append_left _ ?_
            refine ((mergeWith_perm below wins third second).append_right _).trans ?_
            rw [List.append_assoc]
          · refine (ih _ _).trans ?_
            simp only [pendingEntries_cons, List.append_assoc]
            exact ((mergeWith_perm below wins second top).append_left _).append_left _

/-- Sorting by runs has the entries of the list. -/
theorem sortRuns_perm (xs : List β) : (sortRuns below xs).Perm xs := by
  unfold sortRuns
  dsimp only
  refine (finish_perm below _ _ _).trans ((collect_perm below _ _ _ _ _).trans ?_)
  simp [pendingEntries]

/-- The list in ascending order has the entries of the list. -/
theorem ascending_perm (compares : β → Bool) (xs : List β) :
    (ascending below compares xs).Perm xs := by
  unfold ascending
  split
  · exact List.mergeSort_perm _ _
  · exact sortRuns_perm below xs

end InfluenceDiagrams
