import InfluenceDiagrams.Analysis.Distribution

/-!
# `InfluenceDiagrams.Strategy.Improvement` — improving a strategy one decision at a time

A sweep goes through every decision node, every information state and every other state that the node
could select there. A change that raises the expected utility by more than a tolerance is kept at once.
Sweeps are repeated until one changes nothing or their number is used up.

A trial reads the part, its table and the state that it selects off the strategy reached. A loop that holds
them in variables of its own does the same: it sets them from the strategy before the trials that use them, and
a change that is kept sets them, together with the strategy, to the part, the table and the state just tried. Such
a loop also makes the changed part anew, from a table of numbers. That never fails, and gives the part that `select`
gives: see `LocalStrategy.ofTable_bits_select`.

## Contents
- **`LocalStrategy.select`, `Strategy.select`** — a strategy with one decision changed.
- **`Search`** — the strategy reached, its expected utility and the history.
- **`Search.tryState`, `Search.tryRow`, `Search.tryPart`, `Search.sweep`** — one change, one information
  state, one node, one sweep.
- **`Strategy.improve`** — the history of a search.
-/

namespace InfluenceDiagrams

/-! ## Changing one decision -/

/-- The local strategy that selects `state` at the information state in place `row`, and is otherwise
the same. -/
def LocalStrategy.select (z : LocalStrategy) (row : Nat) (state : Nat) : LocalStrategy :=
  { z with table := z.table.setRow row ((List.range z.table.width).map (· == state)) }

/-- The strategy whose part in place `k` selects `state` at the information state in place `row`. -/
def Strategy.select (Z : Strategy) (k row state : Nat) : Strategy :=
  ⟨Z.parts.modify k (·.select row state)⟩

/-! ## The search -/

/-- How far a search has come: the strategy reached, its expected utility, every strategy reached with
its expected utility, the latest first, and whether the present sweep has changed anything. -/
structure Search (α : Type) where
  strategy : Strategy
  value : α
  trail : List (Strategy × α)
  changed : Bool

namespace Search

variable {α : Type} [Scalar α] [Lengths]

/-- Keep a change that raises the expected utility by more than the tolerance. A state that is selected
already is passed over. -/
def tryState (dia : Diagram α) (tol : α) (k row : Nat) (search : Search α) (state : Nat) :
    Except (Fault α) (Search α) :=
  let selected := (search.strategy.parts[k]?).map fun z => selectedState (z.table.rowAt row)
  if selected = some (state : Int) then .ok search
  else do
    let candidate := search.strategy.select k row state
    let value ← expectedUtility dia candidate
    if search.value + tol < value then
      .ok ⟨candidate, value, (candidate, value) :: search.trail, true⟩
    else .ok search

/-- Try every state at one information state, in ascending order. -/
def tryRow (dia : Diagram α) (tol : α) (k width : Nat) (search : Search α) (row : Nat) :
    Except (Fault α) (Search α) :=
  (List.range width).foldlM (tryState dia tol k row) search

/-- Try every information state of the part in place `k`, the last index varying fastest. -/
def tryPart (dia : Diagram α) (tol : α) (search : Search α) (k : Nat) :
    Except (Fault α) (Search α) :=
  match search.strategy.parts[k]? with
  | none => .ok search
  | some z => (List.range (Table.places z.table.rowShape)).foldlM (tryRow dia tol k z.table.width) search

/-- One sweep over all parts. -/
def sweep (dia : Diagram α) (tol : α) (search : Search α) : Except (Fault α) (Search α) :=
  (List.range search.strategy.parts.length).foldlM (tryPart dia tol) { search with changed := false }

/-- Up to so many sweeps; the first one that changes nothing is the last. -/
def sweeps (dia : Diagram α) (tol : α) : Nat → Search α → Except (Fault α) (Search α)
  | 0, search => .ok search
  | n + 1, search => do
      let search ← sweep dia tol search
      if search.changed then sweeps dia tol n search else .ok search

end Search

/-- Improve a strategy: the strategies reached with their expected utilities, from the given one to the
best one found. -/
def Strategy.improve {α : Type} [Scalar α] [Lengths] (dia : Diagram α) (Z : Strategy) (maxSweeps : Nat)
    (tol : α) : Except (Fault α) (List (Strategy × α)) := do
  let value ← expectedUtility dia Z
  let search ← Search.sweeps dia tol maxSweeps ⟨Z, value, [(Z, value)], false⟩
  .ok search.trail.reverse

end InfluenceDiagrams
