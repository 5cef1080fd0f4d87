import InfluenceDiagrams.Path.Position
import InfluenceDiagrams.Path.Keyed

/-!
# `InfluenceDiagrams.Path.Basic` — paths over the state space of a diagram

A path gives every chance and decision node a state. The state space is given by the number of states
of each node; a count that is not positive leaves no state. Paths are listed in ascending
lexicographic order, the last node varying fastest.

## Contents
- **`Node`, `State`, `Path`, `StateCounts`** — the nouns.
- **`FixedStates`** — nodes held at one state; a node outside the state space is ignored.
- **`choices`** — all ways to take one entry from each of a list of lists, in order.
- **`paths`, `numPaths`** — the paths that agree with fixed states, and how many there are.
- **`subPath?`, `agreesWith?`, `groupBy?`, `pathToken`** — parts, tests, groups and names of paths.
-/

namespace InfluenceDiagrams

/-- A node is known by its position in the state space. -/
abbrev Node := Int

/-- A state of a node, counted from zero. -/
abbrev State := Int

/-- One state for every node. -/
abbrev Path := List State

/-- The number of states of every node. -/
abbrev StateCounts := List Int

/-! ## Fixed states -/

/-- Nodes held at one state, each once, in the order in which they were given. -/
structure FixedStates where
  pairs : List (Node × State)
  deriving Repr, DecidableEq

namespace FixedStates

/-- No node is fixed. -/
def empty : FixedStates := ⟨[]⟩

/-- Fix the nodes of a list of pairs; a repeated node keeps its place and takes its last state. -/
def ofPairs (pairs : List (Node × State)) : FixedStates := ⟨Keyed.ofPairs pairs⟩

/-- The state a node is fixed to. -/
def state? (fixed : FixedStates) (k : Node) : Option State := Keyed.find? k fixed.pairs

/-- Whether a node is fixed. -/
def fixes (fixed : FixedStates) (k : Node) : Bool := Keyed.hasKey k fixed.pairs

/-- Fix one more node, or fix it to another state. -/
def insert (fixed : FixedStates) (k : Node) (s : State) : FixedStates :=
  ⟨Keyed.upsert k s (fun _ => s) fixed.pairs⟩

end FixedStates

/-! ## Enumeration -/

/-- All lists with one entry from each list, in lexicographic order of the places taken. -/
def choices {β : Type} : List (List β) → List (List β)
  | [] => [[]]
  | xs :: rest =>
      let tails := choices rest
      xs.flatMap fun x => tails.map (x :: ·)

/-- The states `0, 1, …, n - 1`; none when `n` is not positive. -/
def statesBelow (n : Int) : List State := (List.range n.toNat).map Int.ofNat

/-- The states a node may take: its fixed state, or all of them. -/
def domain (fixed : FixedStates) (k : Node) (n : Int) : List State :=
  match fixed.state? k with
  | some s => [s]
  | none => statesBelow n

/-- The domains of the nodes from `first` on. -/
def domains (fixed : FixedStates) (first : Nat) : StateCounts → List (List State)
  | [] => []
  | n :: rest => domain fixed first n :: domains fixed (first + 1) rest

/-- The paths over a state space that agree with fixed states. The fixed states themselves are taken
as they are, in range or not. -/
def paths (S : StateCounts) (fixed : FixedStates) : List Path := choices (domains fixed 0 S)

/-- The product of the counts of the nodes from `first` on that are not fixed. -/
def countFrom (fixed : FixedStates) (first : Nat) : StateCounts → Int
  | [] => 1
  | n :: rest => (if fixed.fixes first then 1 else n) * countFrom fixed (first + 1) rest

/-- The product of the counts of the nodes that are not fixed. -/
def numPaths (S : StateCounts) (fixed : FixedStates) : Int := countFrom fixed 0 S

/-! ## Parts of paths -/

/-- The states of some nodes, in the order of the nodes; none when a node is out of range. -/
def subPath? (s : Path) (nodes : List Node) : Option Path := nodes.mapM (nth? s)

/-- Whether a path agrees with every fixed state. Stops at the first disagreement, so a node out of
range is only met when all nodes before it agree. -/
def agreesWith? (s : Path) (fixed : FixedStates) : Option Bool :=
  go fixed.pairs
where
  /-- The test over the pairs that are left. -/
  go : List (Node × State) → Option Bool
    | [] => some true
    | (k, v) :: rest => (nth? s k).bind fun x => if x = v then go rest else some false

/-- Group paths by their states at some nodes, groups in order of first appearance and paths in the
given order. -/
def groupBy? (keys : List Path) (nodes : List Node) : Option (List (Path × List Path)) :=
  keys.foldlM (fun groups s =>
    (subPath? s nodes).map fun part => Keyed.upsert part [s] (· ++ [s]) groups) []

/-- The states of a path joined by underscores, for use in names. -/
def pathToken (s : Path) : String := String.intercalate "_" (s.map toString)

end InfluenceDiagrams
