import InfluenceDiagrams.Diagram.Basic

/-!
# `InfluenceDiagrams.Strategy.Basic` — deterministic decision strategies

A local strategy says what one decision node does: a table of zeros and ones whose every line, one for
each information state, selects exactly one state. A strategy is a list of local strategies.

## Contents
- **`LocalStrategy`** — a decision node with its table of selected states.
- **`RowDefect.ofRow?`** — what is wrong with a line of a table of numbers.
- **`LocalStrategy.ofTable`, `LocalStrategy.ofWritten`** — a table of numbers checked line by line.
- **`LocalStrategy.choose?`, `LocalStrategy.choose`** — the state selected in an information state.
- **`Strategy`**, **`Strategy.part`** — local strategies, and the first one for a node.
-/

namespace InfluenceDiagrams

/-! ## Lines -/

/-- What is wrong with a line: an entry other than zero and one comes before a wrong number of ones. -/
def RowDefect.ofRow? {α : Type} [Scalar α] (row : List (Numeral α)) : Option (RowDefect α) :=
  if row.all fun e => e.isZero || e.isOne then
    if row.countP Numeral.isOne = 1 then none else some (.selected (row.countP Numeral.isOne))
  else some (.entries row)

/-- The place of the first selected state of a line. -/
def selectedState (row : List Bool) : State := row.idxOf true

/-! ## Local strategies -/

/-- What one decision node does: line by line of the table, the states it selects. -/
structure LocalStrategy where
  node : InfoNode
  table : Table Bool

namespace LocalStrategy

variable {α : Type} [Scalar α]

/-- Check the lines of a table of numbers in order, each with its information state. -/
def checkRows (node : Node) : List (List State × List (Numeral α)) → Except (Fault α) Unit
  | [] => .ok ()
  | (info, row) :: rest =>
      match RowDefect.ofRow? row with
      | none => checkRows node rest
      | some defect => .error (.malformedStrategy node info defect)

/-- A local strategy from a table of numbers. The table needs one dimension per observed node and one
for the own state, and each line has to select exactly one state. Without lines, the own state still
needs a place. -/
def ofTable (node : InfoNode) (data : Table (Numeral α)) : Except (Fault α) LocalStrategy := do
  Table.checkRank data.rank
  if data.rank = node.info.length + 1 then
    checkRows node.index ((Table.indices data.rowShape).zip data.rows)
    if data.width = 0 then .error .emptyExtremum
    else .ok ⟨node, data.map Numeral.isOne⟩
  else
    .error (.malformedStrategy node.index [] (.dimensions (node.info.length + 1) data.rank))

/-- A local strategy from a table as it is written. -/
def ofWritten (node : InfoNode) (x : Written α) : Except (Fault α) LocalStrategy := do
  let data ← x.entries
  ofTable node data

/-- The state selected in an information state; none when the information state is not one of the
table. -/
def choose? (z : LocalStrategy) (info : List State) : Option State :=
  (z.table.row? info).map selectedState

/-- The state selected in an information state. One with too few states leaves dimensions of the table
over. -/
def choose (z : LocalStrategy) (info : List State) : Except (Fault α) State :=
  match z.choose? info with
  | some state => .ok state
  | none =>
      if (Table.rest? z.table.rowShape info).isSome then .error .dimensionsLeft
      else .error (indexFault info)

/-- The selected states of all information states, the last index varying fastest. -/
def choices (z : LocalStrategy) : List State := z.table.rows.map selectedState

/-- A local strategy as one line of text. -/
def describe (z : LocalStrategy) : String :=
  "LocalDecisionStrategy(d=" ++ toString z.node.index ++ ", I_d=" ++ tupleText z.node.info
    ++ ", shape=" ++ Text.tuple (z.table.shape.map toString) ++ ")"

end LocalStrategy

/-! ## Strategies -/

/-- One local strategy per decision node. -/
structure Strategy where
  parts : List LocalStrategy

namespace Strategy

/-- The decision nodes, in the order of the parts. -/
def nodes (Z : Strategy) : List InfoNode := Z.parts.map LocalStrategy.node

/-- The first local strategy for a decision node. -/
def part {α : Type} (Z : Strategy) (d : Node) : Except (Fault α) LocalStrategy :=
  orFault (.noLocalStrategy d) (Z.parts.find? fun z => z.node.index == d)

/-- The state that the part for a decision node selects in an information state. -/
def choose {α : Type} (Z : Strategy) (d : Node) (info : List State) : Except (Fault α) State := do
  let z ← Z.part d
  z.choose info

end Strategy
end InfluenceDiagrams
