import InfluenceDiagrams.Diagram.Utility

/-!
# `InfluenceDiagrams.Diagram.Basic` — influence diagrams

An influence diagram has chance, decision and value nodes over a state space, a probability and a
utility for every path. Chance and decision nodes are numbered by their place in the state space; value
nodes have no states.

## Contents
- **`Diagram`** — the nodes, the state counts, probability and utility.
- **`Diagram.check`, `Diagram.Accepted`** — every place has one node and information sets stay in range.
- **`Diagram.ofTables`, `Diagram.ofWritten`** — a diagram from nodes with their tables.
- **`Diagram.indices`, `Diagram.roleOf`, `Diagram.wrappedNumPaths?`** — queries.
- **`Diagram.withOffset`, `Diagram.shift`, `Diagram.concealTables`** — other utilities, another
  probability.
-/

namespace InfluenceDiagrams

/-- An influence diagram. -/
structure Diagram (α : Type) where
  S : StateCounts
  C : List InfoNode
  D : List InfoNode
  V : List InfoNode
  P : PathProbability α
  U : PathUtility α

namespace Diagram

variable {α : Type}

/-! ## Acceptance -/

/-- Whether every observed node of the given nodes is one of `count` nodes. -/
def checkInfo (count : Nat) : List InfoNode → Except (Fault α) Unit
  | [] => .ok ()
  | n :: rest =>
      if n.info.all fun i => decide (0 ≤ i) && decide (i < count) then checkInfo count rest
      else .error (.unknownObservation n.index n.info)

/-- The indices of the chance and decision nodes, in ascending order. -/
def sortedIndices (dia : Diagram α) : List Node :=
  ((dia.C ++ dia.D).map InfoNode.index).mergeSort fun a b => decide (a ≤ b)

/-- The diagram, if its chance and decision nodes are numbered by the places of the state space, each
place once, and no node observes a place outside it. -/
def check (dia : Diagram α) : Except (Fault α) (Diagram α) :=
  if dia.sortedIndices = statesBelow dia.S.length then
    (checkInfo dia.S.length (dia.C ++ dia.D ++ dia.V)).map fun _ => dia
  else .error (.nodeIndices dia.S.length dia.sortedIndices)

/-- A diagram that passes the check. -/
def Accepted (dia : Diagram α) : Prop := ∃ d, dia.check = .ok d

/-- A diagram from chance and value nodes with their tables. Tables are checked before indices. -/
def ofTables [Zero α] (S : StateCounts) (chance : List (InfoNode × Table α)) (decision : List InfoNode)
    (value : List (InfoNode × Table α)) : Except (Fault α) (Diagram α) := do
  let C := chance.map Prod.fst
  let V := value.map Prod.fst
  let P ← ProbabilityTables.ofTables C (chance.map Prod.snd)
  let U ← PathUtility.ofTables V (value.map Prod.snd) 0
  check ⟨S, C, decision, V, .tables P, U⟩

/-- A diagram from chance and value nodes with their tables as they are written. The probability tables
are read and checked before the utility tables are read. -/
def ofWritten [Scalar α] (S : StateCounts) (chance : List (InfoNode × Written α))
    (decision : List InfoNode) (value : List (InfoNode × Written α)) : Except (Fault α) (Diagram α) := do
  let C := chance.map Prod.fst
  let V := value.map Prod.fst
  let P ← ProbabilityTables.ofWritten C (chance.map Prod.snd)
  let U ← PathUtility.ofWritten V (value.map Prod.snd) 0
  check ⟨S, C, decision, V, .tables P, U⟩

/-! ## Queries -/

/-- The nodes of a role, in the order given. -/
def indices (dia : Diagram α) : Role → List Node
  | .chance => dia.C.map InfoNode.index
  | .decision => dia.D.map InfoNode.index
  | .value => dia.V.map InfoNode.index

/-- The indices of the nodes of the role that a tag names. -/
def indicesOfTag (dia : Diagram α) (tag : RoleTag α) : Except (Fault α) (List Node) :=
  match Role.ofTag? tag with
  | some r => .ok (dia.indices r)
  | none => .error (.unknownRole tag)

/-- The role of a node: chance nodes are searched first, then decision nodes, then value nodes. -/
def roleOf (dia : Diagram α) (j : Node) : Except (Fault α) Role :=
  if (dia.indices .chance).contains j then .ok .chance
  else if (dia.indices .decision).contains j then .ok .decision
  else if (dia.indices .value).contains j then .ok .value
  else .error (.unknownNode j)

/-- The number of paths in 64-bit arithmetic, which wraps around; none when a count itself does not
fit into 64 bits. -/
def wrappedNumPaths? (dia : Diagram α) : Option Int :=
  (signedWords? dia.S).map fun words => Int.bmod (numPaths words .empty) 0x10000000000000000

/-- The probability tables, if the probability is given by tables. -/
def tables? (dia : Diagram α) : Option (ProbabilityTables α) :=
  match dia.P with
  | .tables P => some P
  | .function _ => none

/-! ## Other utilities and probabilities -/

/-- The diagram with another utility. -/
def withUtility (dia : Diagram α) (U : PathUtility α) : Diagram α := { dia with U := U }

/-- The diagram whose utility adds a given offset to the sum of the table entries; a utility that is
already shifted is left alone. -/
def withOffset (dia : Diagram α) (t : α) : Diagram α :=
  match dia.U with
  | .tables parts _ => dia.withUtility (.tables parts t)
  | .shifted _ _ => dia

variable [Scalar α] [Lengths]

/-- The diagram with its utility shifted over its own state space. -/
def shift (dia : Diagram α) (direction : Shift) : Except (Fault α) (Diagram α) :=
  (dia.U.shift dia.S direction).map dia.withUtility

/-- The diagram after several shifts, each on top of the one before. -/
def shifts (dia : Diagram α) (directions : List Shift) : Except (Fault α) (Diagram α) :=
  directions.foldlM shift dia

/-- The same diagram with its probability given as a function only. -/
def concealTables (dia : Diagram α) : Diagram α := { dia with P := .function dia.P.eval }

end Diagram
end InfluenceDiagrams
