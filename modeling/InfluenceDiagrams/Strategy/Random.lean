import InfluenceDiagrams.Random.Threefry
import InfluenceDiagrams.Strategy.Basic

/-!
# `InfluenceDiagrams.Strategy.Random` — random strategies

A random strategy selects a state uniformly at random in every information state. Each decision node
takes a fresh key, in the order of the nodes.

## Contents
- **`LocalStrategy.random`** — a random local strategy from a key.
- **`Strategy.random`** — a random strategy from a key.
-/

namespace InfluenceDiagrams

variable {α : Type} [Scalar α]

/-- Whether an integer fits into a signed word of 32 bits. -/
def fitsHalfWord (n : Int) : Bool := decide (-0x80000000 ≤ n) && decide (n < 0x80000000)

/-- Select a state at random in every information state of a decision node. A node without states has
lines that select nothing, which no strategy may have. The state counts may not be negative, that of the
node itself has to fit into 32 bits, and the others have to fit words. -/
def LocalStrategy.random (S : StateCounts) (key : Random.Key) (d : InfoNode) :
    Except (Fault α) LocalStrategy := do
  let lead ← orFault .outOfRange (d.info.mapM (nth? S))
  let n ← orFault .outOfRange (nth? S d.index)
  if fitsHalfWord n then .ok () else .error .overflow
  if lead.any fun k => decide (k < 0) || !fitsSigned k then .error .unusableCount else .ok ()
  if n < 0 then .error .unusableCount else .ok ()
  let span := UInt32.ofNat (max n.toNat 1)
  ofTable d (Table.ofRows (lead.map Int.toNat) n.toNat fun i k =>
    .int (if (key.below span i).toNat = k then 1 else 0))

/-- Random local strategies for some decision nodes; each takes the second of two new keys and passes
the first one on. -/
def Strategy.randomParts (S : StateCounts) (key : Random.Key) :
    List InfoNode → Except (Fault α) (List LocalStrategy)
  | [] => .ok []
  | d :: rest => do
      let (onward, own) := key.split
      let z ← LocalStrategy.random S own d
      let parts ← randomParts S onward rest
      .ok (z :: parts)

/-- A random strategy for a diagram. -/
def Strategy.random (dia : Diagram α) (key : Random.Key) : Except (Fault α) Strategy :=
  (randomParts dia.S key dia.D).map Strategy.mk

end InfluenceDiagrams
