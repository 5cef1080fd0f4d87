import InfluenceDiagrams.Analysis.Distribution

/-!
# `InfluenceDiagrams.Analysis.StateProbabilities` — how likely each state of each node is

Under a strategy, the probability of a state is the total probability of the compatible paths through
it. Chance states may be fixed one after the other; then the probabilities are those given everything
fixed so far, and the probability of the event fixed so far is carried along.

## Contents
- **`StateProbabilities`** — the probabilities, the fixed states and the probability of the event.
- **`stateTotals`** — the probabilities of the compatible paths, summed state by state.
- **`StateProbabilities.unconditional`, `StateProbabilities.given`** — without and with a fixed state.
- **`stateProbabilities`** — either of the two, the earlier result being optional.
-/

namespace InfluenceDiagrams

variable {α : Type}

/-- The probability of every state of every node, given the fixed states, whose own probability is
`event`. -/
structure StateProbabilities (α : Type) where
  probs : List (List α)
  fixed : FixedStates
  event : α

variable [Scalar α] [Lengths]

/-- Add an amount to the entry of each node's list at the node's state. -/
def addAlong? (p : α) : List (List α) → Path → Option (List (List α))
  | row :: rows, k :: s =>
      (nth? row k).bind fun x => (replace? row k (x + p)).bind fun row =>
        (addAlong? p rows s).map (row :: ·)
  | [], _ :: _ => none
  | rows, [] => some rows

/-- A zero for every state of a node. A count that cannot be asked for as a length is too large, even if it
is negative. -/
def zeros (n : Int) : Except (Fault α) (List α) :=
  if Lengths.counts n then .ok (List.replicate n.toNat 0) else .error .overflow

/-- Add the probability of a path, divided by `norm`, at every state on the path. -/
def addPath (dia : Diagram α) (norm : α) (totals : List (List α)) (s : Path) :
    Except (Fault α) (List (List α)) := do
  let p ← dia.P.eval s
  orFault .outOfRange (addAlong? (p / norm) totals s)

/-- The probabilities of the compatible paths, each divided by `norm`, summed up at every state on the
path. There is a place for every state of every node before the first path is looked for. -/
def stateTotals (dia : Diagram α) (cp : CompatiblePaths) (norm : α) :
    Except (Fault α) (List (List α)) := do
  let totals ← dia.S.mapM zeros
  cp.foldPaths (addPath dia norm) totals

namespace StateProbabilities

/-- The probabilities when nothing is fixed. -/
def unconditional (dia : Diagram α) (Z : Strategy) : Except (Fault α) (StateProbabilities α) := do
  let cp ← CompatiblePaths.ofDiagram dia Z .empty
  let probs ← stateTotals dia cp 1
  .ok ⟨probs, .empty, 1⟩

/-- The probability of a state of a node. -/
def prob? (prior : StateProbabilities α) (node : Node) (state : State) : Option α :=
  (nth? prior.probs node).bind (nth? · state)

/-- The probabilities when one more chance state is fixed on top of those of an earlier result. The new
event has the probability of the earlier one times that of the state given it. -/
def given (dia : Diagram α) (Z : Strategy) (prior : StateProbabilities α) (node : Node)
    (state : State) : Except (Fault α) (StateProbabilities α) := do
  let fixed := prior.fixed.insert node state
  let cp ← CompatiblePaths.ofDiagram dia Z fixed
  let p ← orFault .outOfRange (prior.prob? node state)
  let event := prior.event * p
  if event ≤ 0 then .error (.invalidFixedState node (.impossible state))
  else
    let probs ← stateTotals dia cp event
    .ok ⟨probs, fixed, event⟩

end StateProbabilities

/-- State probabilities under a strategy: unconditional without a node, and given a further fixed state
otherwise. Without an earlier result, the unconditional one is the start. -/
def stateProbabilities (dia : Diagram α) (Z : Strategy) (node : Option Node) (state : Option State)
    (prior : Option (StateProbabilities α)) : Except (Fault α) (StateProbabilities α) :=
  match node, state with
  | none, _ => StateProbabilities.unconditional dia Z
  | some _, none => .error .stateRequired
  | some k, some s => do
      let prior ← match prior with
        | some prior => .ok prior
        | none => StateProbabilities.unconditional dia Z
      prior.given dia Z k s

end InfluenceDiagrams
