import InfluenceDiagrams.Model.Basic
import InfluenceDiagrams.Strategy.Basic

/-!
# `InfluenceDiagrams.Model.DecisionVariables` — one binary variable per possible decision

For every decision node, every information state and every own state there is a binary variable, and
in every information state exactly one of them is one. A strategy is read back from the values of the
variables, rounded to integers.

## Contents
- **`DecisionVariables`** — the variables of one decision node.
- **`decisionVariables`** — creates them for all decision nodes, with their constraints.
- **`extractStrategy`** — the strategy that values of the variables describe.
-/

namespace InfluenceDiagrams

variable {α : Type}

/-- The variables of one decision node, one for each index over its information set and itself, in
row-major order. -/
structure DecisionVariables (α : Type) where
  node : InfoNode
  shape : StateCounts
  z : List (Path × Variable α)

/-! ## Creation -/

/-- The state counts of the information set of a node and of the node itself. -/
def decisionShape? (S : StateCounts) (d : InfoNode) : Option StateCounts :=
  (d.info ++ [d.index]).mapM (nth? S)

/-- The variable of a decision node at an index. -/
def decisionVariable [Zero α] [One α] (family : Nat) (d : Node) (index : Path) : Variable α :=
  .binary ("z_" ++ toString d ++ "_" ++ pathToken index) family

/-- The name of the constraint that one decision is taken in an information state. -/
def oneDecisionName (d : Node) (info : Path) : String :=
  if info.isEmpty then "one_decision_" ++ toString d
  else "one_decision_" ++ toString d ++ "_" ++ pathToken info

variable [Scalar α] [Lengths]

/-- Exactly one state is selected in an information state. -/
def oneDecision (family : Nat) (d : Node) (count : Int) (info : Path) : Constraint α :=
  .equals (.sumVars ((statesBelow count).map fun k => decisionVariable family d (info ++ [k]))) 1

/-- The variables of one decision node, and its constraints. -/
def nodeVariables (S : StateCounts) (family : Nat) (d : InfoNode) :
    Build α (DecisionVariables α) := do
  let shape ← Build.lift (orFault .outOfRange (decisionShape? S d))
  let places ← Build.lift (listPaths shape .empty)
  (paths shape.dropLast .empty).forM fun info =>
    Build.addConstraint (some (oneDecisionName d.index info))
      (oneDecision family d.index (shape.getLast?.getD 0) info)
  return ⟨d, shape, places.map fun i => (i, decisionVariable family d.index i)⟩

/-- The variables of all decision nodes of a diagram, in the order of the nodes. -/
def decisionVariables (dia : Diagram α) : Build α (List (DecisionVariables α)) := do
  let family ← Build.freshFamily
  dia.D.mapM (nodeVariables dia.S family)

/-! ## Reading a strategy -/

/-- The integers that a table entry can hold, signed words of 32 bits. -/
def fitsEntry (n : Int) : Bool := decide (-0x80000000 ≤ n) && decide (n < 0x80000000)

/-- An integer as a table entry. -/
def tableEntry (n : Int) : Except (Fault α) (Numeral α) :=
  if fitsEntry n then .ok (.int n) else .error .overflow

/-- A value rounded to the nearest integer. An integer has to fit a word of either kind to be rounded. -/
def roundedEntry (value : Numeral α) : Except (Fault α) (Numeral α) :=
  match value with
  | .int n => if fitsSigned n || fitsUnsigned n then tableEntry n else .error .beyondWords
  | value =>
      let x := value.number
      match Scalar.nearestInt? x with
      | some n => tableEntry n
      | none => if x == x then .error .overflow else .error .notANumber

/-- The rounded value of a variable; no value counts as zero. -/
def roundedValue (point : VarKey → Option (Numeral α)) (v : Variable α) :
    Except (Fault α) (Numeral α) :=
  roundedEntry ((point v.key).getD (.int 0))

/-- The local strategy that the values of the variables of one node describe. There has to be a table of its
shape before the first value is read. -/
def extractLocal (point : VarKey → Option (Numeral α)) (z : DecisionVariables α) :
    Except (Fault α) LocalStrategy := do
  Table.checkRank z.shape.length
  if z.shape.all fun n => decide (0 ≤ n) then
    let entries ← z.z.mapM fun p => roundedValue point p.2
    let shape := z.shape.map Int.toNat
    if h : entries.length = Table.places shape then LocalStrategy.ofTable z.node ⟨shape, entries, h⟩
    else .error .outOfRange
  else .error .negativeCount

/-- The strategy that the values of the variables describe. -/
def extractStrategy (point : VarKey → Option (Numeral α)) (z : List (DecisionVariables α)) :
    Except (Fault α) Strategy :=
  (z.mapM (extractLocal point)).map Strategy.mk

end InfluenceDiagrams
