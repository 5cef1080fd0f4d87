import InfluenceDiagrams.Strategy.Basic
import InfluenceDiagrams.Path.Listing

/-!
# `InfluenceDiagrams.Strategy.Compatible` — the paths that a strategy allows

A path is compatible with a strategy when every decision state is the one that the strategy selects in
the path's information state. Compatible paths are found by enumerating the chance states and filling
in the decisions, in the order of the decision nodes.

One vector of states is filled again and again. It starts with zeros and is kept from one path to the
next, so a decision that observes itself or a later decision sees the state of the path before.

## Contents
- **`CompatiblePaths`** — a state space, its chance nodes, a strategy and fixed chance states.
- **`CompatiblePaths.make`** — checks the fixed states.
- **`CompatiblePaths.toList`, `CompatiblePaths.length`** — the paths in order, and how many.
- **`CompatiblePaths.foldPaths`** — going through the paths with a state; **`foldPaths_eq`**: as over the
  list.
-/

namespace InfluenceDiagrams

/-- The paths of a state space that a strategy allows, with some chance states fixed. Chance nodes and
local strategies are in ascending order of the nodes. -/
structure CompatiblePaths where
  S : StateCounts
  C : List Node
  parts : List LocalStrategy
  fixed : FixedStates

namespace CompatiblePaths

variable {α : Type} [Lengths]

/-- Check fixed states in order: the node is a chance node and the state is one of its states. -/
def checkFixed (S : StateCounts) (C : List Node) : List (Node × State) → Except (Fault α) Unit
  | [] => .ok ()
  | (k, state) :: rest =>
      if C.contains k then
        match nth? S k with
        | none => .error .outOfRange
        | some n =>
            if 0 ≤ state ∧ state < n then checkFixed S C rest
            else .error (.invalidFixedState k (.outside state n))
      else .error (.invalidFixedState k .notChance)

/-- The compatible paths of a strategy over a state space with given chance nodes. -/
def make (S : StateCounts) (C : List Node) (Z : Strategy) (fixed : FixedStates) :
    Except (Fault α) CompatiblePaths :=
  (checkFixed S C fixed.pairs).map fun _ =>
    ⟨S, C.mergeSort fun a b => decide (a ≤ b),
      Z.parts.mergeSort fun a b => decide (a.node.index ≤ b.node.index), fixed⟩

/-- The compatible paths of a strategy for a diagram. -/
def ofDiagram (dia : Diagram α) (Z : Strategy) (fixed : FixedStates) :
    Except (Fault α) CompatiblePaths :=
  make dia.S (dia.indices .chance) Z fixed

/-! ## Enumeration -/

/-- The state counts of the chance nodes that are not fixed. -/
def freeCounts? (cp : CompatiblePaths) : Option (List Int) :=
  (cp.C.filter fun c => !cp.fixed.fixes c).mapM (nth? cp.S)

/-- The states that a chance node takes: the fixed one, or all. -/
def chanceDomain? (cp : CompatiblePaths) (c : Node) : Option (List State) :=
  match cp.fixed.state? c with
  | some s => some [s]
  | none => (nth? cp.S c).map statesBelow

/-- All ways to choose the states of the chance nodes, in lexicographic order. All counts are looked up
before the states of any node are listed. -/
def chanceStates (cp : CompatiblePaths) : Except (Fault α) (List (List State)) := do
  let counts ← orFault .outOfRange cp.freeCounts?
  checkCounts .empty 0 counts
  let domains ← orFault .outOfRange (cp.C.mapM cp.chanceDomain?)
  .ok (choices domains)

/-- Write states at nodes, in order. -/
def setStates? (v : Path) : List (Node × State) → Option Path
  | [] => some v
  | (k, s) :: rest => (replace? v k s).bind fun v => setStates? v rest

/-- Let the decision nodes select their states, in order. -/
def selectStates (v : Path) : List LocalStrategy → Except (Fault α) Path
  | [] => .ok v
  | z :: rest => do
      let info ← orFault .outOfRange (subPath? v z.node.info)
      let state ← z.choose info
      let v ← orFault .outOfRange (replace? v z.node.index state)
      selectStates v rest

/-- The next path: the vector with new chance states and the decisions that follow from them. -/
def next (cp : CompatiblePaths) (v : Path) (chance : List State) : Except (Fault α) Path := do
  let v ← orFault .outOfRange (setStates? v (cp.C.zip chance))
  selectStates v cp.parts

/-- The vector of states at the start. -/
def start (cp : CompatiblePaths) : Path := List.replicate cp.S.length 0

/-- The paths for a list of chance states, starting from a vector of states. -/
def pathsFrom (cp : CompatiblePaths) (v : Path) : List (List State) → Except (Fault α) (List Path)
  | [] => .ok []
  | chance :: rest => do
      let v ← cp.next v chance
      let ss ← cp.pathsFrom v rest
      .ok (v :: ss)

/-- All compatible paths, in lexicographic order of the chance states. -/
def toList (cp : CompatiblePaths) : Except (Fault α) (List Path) := do
  let chance ← cp.chanceStates
  cp.pathsFrom cp.start chance

/-- Go through the paths for a list of chance states, starting from a vector of states. -/
def foldFrom {σ : Type} (cp : CompatiblePaths) (step : σ → Path → Except (Fault α) σ) (v : Path)
    (acc : σ) : List (List State) → Except (Fault α) σ
  | [] => .ok acc
  | chance :: rest => do
      let v ← cp.next v chance
      let acc ← step acc v
      cp.foldFrom step v acc rest

/-- Go through all compatible paths in order. Each path is dealt with before the next one is looked for,
which decides between the faults of the two. -/
def foldPaths {σ : Type} (cp : CompatiblePaths) (step : σ → Path → Except (Fault α) σ) (init : σ) :
    Except (Fault α) σ := do
  let chance ← cp.chanceStates
  cp.foldFrom step cp.start init chance

omit [Lengths] in
theorem foldFrom_eq {σ : Type} (cp : CompatiblePaths) (step : σ → Path → Except (Fault α) σ)
    (chance : List (List State)) : ∀ (v : Path) (acc : σ) (ss : List Path),
    cp.pathsFrom (α := α) v chance = .ok ss → cp.foldFrom step v acc chance = ss.foldlM step acc := by
  induction chance with
  | nil =>
      intro v acc ss h
      obtain rfl : [] = ss := Except.ok.inj h
      rfl
  | cons c rest ih =>
      intro v acc ss h
      unfold pathsFrom at h
      unfold foldFrom
      cases hv : cp.next (α := α) v c with
      | error f => rw [hv] at h; cases h
      | ok w =>
          rw [hv] at h
          change (cp.pathsFrom w rest).bind (fun ss => Except.ok (w :: ss)) = .ok ss at h
          change (step acc w).bind (fun acc => cp.foldFrom step w acc rest) = _
          cases hr : cp.pathsFrom (α := α) w rest with
          | error f => rw [hr] at h; cases h
          | ok tail =>
              rw [hr] at h
              obtain rfl : w :: tail = ss := Except.ok.inj h
              rw [List.foldlM_cons]
              cases step acc w with
              | error f => rfl
              | ok acc => exact ih w acc tail hr

/-- Where the paths can be listed, going through them is going through the list. -/
theorem foldPaths_eq {σ : Type} {cp : CompatiblePaths} {ss : List Path}
    (h : cp.toList (α := α) = .ok ss) (step : σ → Path → Except (Fault α) σ) (init : σ) :
    cp.foldPaths step init = ss.foldlM step init := by
  unfold toList at h
  unfold foldPaths
  cases hc : cp.chanceStates (α := α) with
  | error f => rw [hc] at h; cases h
  | ok chance =>
      rw [hc] at h
      exact foldFrom_eq cp step chance _ _ _ h

/-- The product of the state counts of the chance nodes that are not fixed. -/
def count? (cp : CompatiblePaths) : Option Int :=
  cp.freeCounts?.map fun counts => numPaths counts .empty

/-- How many paths there are. A negative product of state counts is no number of paths, and a product may be
too large for a length. -/
def length (cp : CompatiblePaths) : Except (Fault α) Nat := do
  let n ← orFault .outOfRange cp.count?
  if n < 0 then .error .negativeCount
  else if Lengths.admits n then .ok n.toNat
  else .error .overflow

/-- The compatible paths as one line of text. -/
def describe (cp : CompatiblePaths) : String :=
  "CompatiblePaths(S=" ++ tupleText cp.S ++ ", C=" ++ tupleText cp.C ++ ", fixed="
    ++ Text.braced (cp.fixed.pairs.map fun p => toString p.1 ++ ": " ++ toString p.2) ++ ")"

end CompatiblePaths
end InfluenceDiagrams
