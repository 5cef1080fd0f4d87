import InfluenceDiagrams.Diagram.Role
import InfluenceDiagrams.Path.Basic
import InfluenceDiagrams.Numeric.Numeral

/-!
# `InfluenceDiagrams.Fault` — why an operation has no result

Every operation that can fail says why with a `Fault`. A fault is a cause with the values that a reader
needs to find it; the wording is in one function, `Fault.message?`. Faults that arise inside a table,
a list or a number have no wording of their own.

## Contents
- **`FixedStateReason`, `RowDefect`, `RiskInterval`** — the details of three kinds of fault.
- **`Fault`** — the causes.
- **`Fault.message?`** — the text of a fault on doubles.
- **`orFault`** — an optional result, with the fault that stands for its absence.
- **`finiteInt`, `Numeral.finite`** — an integer or a numeral as a number, with the fault of one that is
  too large.
-/

namespace InfluenceDiagrams

/-- Why a node cannot be fixed to a state. -/
inductive FixedStateReason where
  /-- The node is not a chance node. -/
  | notChance
  /-- The node is not in the state space. -/
  | noStates
  /-- The state is not one of the `count` states of the node. -/
  | outside (state count : Int)
  /-- The state has probability zero given what is already fixed. -/
  | impossible (state : State)
  deriving Repr, DecidableEq

/-- What is wrong with a strategy table. -/
inductive RowDefect (α : Type) where
  /-- The table has the wrong number of dimensions. -/
  | dimensions (expected got : Nat)
  /-- A row has an entry other than zero and one. -/
  | entries (row : List (Numeral α))
  /-- A row selects this number of states instead of one. -/
  | selected (count : Nat)
  deriving Repr

/-- The risk levels that a measure admits. -/
inductive RiskInterval where
  /-- From zero to one, both included. -/
  | closed
  /-- Above zero and up to one. -/
  | positive
  deriving Repr, DecidableEq

/-- Why an operation has no result. -/
inductive Fault (α : Type) where
  -- tables, lists and numbers
  /-- A position is out of range, or an index has the wrong number of positions. -/
  | outOfRange
  /-- A key is not in a mapping. -/
  | missingKey
  /-- A divisor is zero. -/
  | zeroDivisor
  /-- A number is too large for its type. -/
  | overflow
  /-- An integer that fits no word was to be rounded. -/
  | beyondWords
  /-- Nested lists do not form a table: they are ragged. -/
  | raggedTable
  /-- A table would have more dimensions than a table can have. -/
  | tooManyDimensions
  /-- The root of a negative number was asked for. -/
  | negativeRoot
  /-- The least or greatest of nothing was asked for. -/
  | emptyExtremum
  /-- A tolerance is negative where closeness is tested. -/
  | negativeTolerance
  /-- A value that is not a number has no nearest integer. -/
  | notANumber
  /-- A number of entries or of paths is negative. -/
  | negativeCount
  /-- A state is to be drawn for a number of states that is negative or fits no word. -/
  | unusableCount
  /-- An index leaves dimensions of a table over where one entry is needed. -/
  | dimensionsLeft
  /-- Tables are added whose shapes do not match. -/
  | shapeMismatch
  -- diagrams
  /-- There are not as many probability tables as chance nodes. -/
  | probabilityTableCount (tables nodes : Nat)
  /-- A probability table has the wrong number of dimensions. -/
  | probabilityTableRank (node : Node) (expected got : Nat)
  /-- There are not as many utility tables as value nodes. -/
  | utilityTableCount (tables nodes : Nat)
  /-- The chance and decision nodes do not cover the state space. -/
  | nodeIndices (count : Nat) (found : List Node)
  /-- A node observes a node that does not exist. -/
  | unknownObservation (node : Node) (observed : List Node)
  /-- No node has this index. -/
  | unknownNode (node : Node)
  /-- A tag names no role. -/
  | unknownRole (tag : RoleTag α)
  -- strategies and their analysis
  /-- A node cannot be fixed to a state. -/
  | invalidFixedState (node : Node) (reason : FixedStateReason)
  /-- A node was given without the state to fix it to. -/
  | stateRequired
  /-- A risk level is not admissible. -/
  | riskLevel (level : α) (interval : RiskInterval)
  /-- A strategy table is not one selected state for every information state. -/
  | malformedStrategy (node : Node) (info : List State) (defect : RowDefect α)
  /-- A strategy has no part for a decision node. -/
  | noLocalStrategy (node : Node)
  -- models
  /-- The factor on probabilities is not positive. -/
  | scaleFactor (scale : α)
  /-- The tolerance of the lazy probability cut is negative. -/
  | cutTolerance (tolerance : α)
  /-- A variable has no value in a candidate solution. -/
  | notInCandidate (name : String)
  /-- The active paths cut needs probability tables. -/
  | tablesRequired
  /-- The active paths cut needs tables without zeros. -/
  | structuralZeros
  /-- A tail objective needs at least one path variable. -/
  | noPathVariables
  /-- A coefficient or constant is infinite or not a number. -/
  | notFinite
  /-- A constraint has the name of another one. -/
  | duplicateConstraint (name : String)
  /-- An objective is missing where one is set or evaluated. -/
  | noObjective
  /-- A problem has columns that the solver cannot tell apart or cannot find. -/
  | unreadableProblem
  /-- A text without characters, which names no variable, was looked up in a candidate solution. -/
  | unnamedVariable
  deriving Inhabited

/-! ## Wording -/

/-- A numeral as a message shows it. -/
def Numeral.text : Numeral Float → String
  | int n => toString n
  | bool b => if b then "True" else "False"
  | real x => Binary64.text x

/-- Integers between round brackets. -/
def tupleText (xs : List Int) : String := Text.tuple (xs.map toString)

/-- The wording of a reason. -/
def FixedStateReason.text : FixedStateReason → String
  | notChance => "only chance node states can be fixed"
  | noStates => "node has no state dimension"
  | outside state count => "state " ++ toString state ++ " outside 0.." ++ toString (count - 1)
  | impossible state => "state " ++ toString state ++ " has zero probability"

/-- The wording of a defect. -/
def RowDefect.text : RowDefect Float → String
  | dimensions expected got =>
      "expected " ++ toString expected ++ " dimensions, got " ++ toString got
  | entries row => "entries must be 0 or 1, got " ++ Text.bracketed (row.map Numeral.text)
  | selected count => "exactly one state must be selected, got " ++ toString count

/-- The admissible risk levels as a message shows them. -/
def RiskInterval.text : RiskInterval → String
  | closed => "[0, 1]"
  | positive => "(0, 1]"

namespace Fault

/-- The text of a fault; none for a fault inside a table, a list or a number, and for one of the
underlying linear program. -/
def message? : Fault Float → Option String
  | outOfRange | missingKey | zeroDivisor | overflow | beyondWords | raggedTable
  | tooManyDimensions | negativeRoot | emptyExtremum | negativeTolerance | notANumber | negativeCount
  | unusableCount | dimensionsLeft | shapeMismatch | notFinite | duplicateConstraint _ | noObjective
  | unreadableProblem => none
  | probabilityTableCount tables nodes =>
      some ("Expected one probability table per chance node, got " ++ toString tables ++ " for "
        ++ toString nodes ++ " nodes")
  | probabilityTableRank node expected got =>
      some ("Probability table of node " ++ toString node ++ " must have " ++ toString expected
        ++ " dimensions, got " ++ toString got)
  | utilityTableCount tables nodes =>
      some ("Expected one utility table per value node, got " ++ toString tables ++ " for "
        ++ toString nodes ++ " nodes")
  | nodeIndices count found =>
      some ("Chance and decision nodes must be indexed 0.." ++ toString ((count : Int) - 1)
        ++ ", got " ++ Text.bracketed (found.map toString))
  | unknownObservation node observed =>
      some ("Information set of node " ++ toString node ++ " refers to unknown nodes: "
        ++ tupleText observed)
  | unknownNode node => some ("Unknown node " ++ toString node)
  | unknownRole tag => some ("Unknown node class: " ++ tag.text)
  | invalidFixedState node reason =>
      some ("Invalid fixed state for node " ++ toString node ++ ": " ++ reason.text)
  | stateRequired => some "A state must be given together with the fixed node"
  | riskLevel level interval =>
      some ("alpha must be in " ++ interval.text ++ ", got " ++ Binary64.text level)
  | malformedStrategy node info defect =>
      some ("Malformed strategy at decision node " ++ toString node ++ ", information state "
        ++ tupleText info ++ ": " ++ defect.text)
  | noLocalStrategy node => some ("No local strategy for decision node " ++ toString node)
  | scaleFactor scale =>
      some ("probability_scale_factor must be positive, got " ++ Binary64.text scale)
  | cutTolerance tolerance =>
      some ("cut_tolerance must be non-negative, got " ++ Binary64.text tolerance)
  | notInCandidate name =>
      some ("Variable " ++ name ++ " is not part of the candidate solution")
  | unnamedVariable => some "Variable None is not part of the candidate solution"
  | tablesRequired =>
      some "Active paths cut requires probability tables (DefaultPathProbability)"
  | structuralZeros =>
      some "Cannot use active paths cut: some chance node states have zero probability"
  | noPathVariables => some "Cannot build CVaR without path compatibility variables"

end Fault

/-- An optional result, with the fault that stands for its absence. -/
def orFault {α β : Type} (fault : Fault α) : Option β → Except (Fault α) β
  | some x => .ok x
  | none => .error fault

/-- An integer as a number, unless it is too large. -/
def finiteInt {α : Type} [Scalar α] (n : Int) : Except (Fault α) α :=
  if Scalar.finite (Scalar.ofInt n : α) then .ok (Scalar.ofInt n) else .error .overflow

/-- The number that a numeral stands for, unless it is too large. -/
def Numeral.finite {α : Type} [Scalar α] (e : Numeral α) : Except (Fault α) α :=
  if e.inRange then .ok e.number else .error .overflow

end InfluenceDiagrams
