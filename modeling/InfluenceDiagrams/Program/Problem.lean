import InfluenceDiagrams.Program.LinearExpr

/-!
# `InfluenceDiagrams.Program.Problem` — linear programs

A problem has named constraints in the order in which they were added, an objective and a sense. Its
variables are those that were met in a constraint or, whenever the variables were asked for, in the
objective of that moment; a variable once met stays.

## Contents
- **`Sense`, `Problem`** — the nouns; `Problem.empty` starts a problem.
- **`automaticName`** — the names of constraints that are given none.
- **`Problem.addConstraint`** — adds under a given or an automatic name; names are unique.
- **`Problem.observe`, `Problem.vars`** — the variables of the problem, sorted by name.
- **`Problem.withAnchor`** — gives a problem without objective terms a variable to optimise.
- **`Problem.Feasible`** — the points inside all bounds that satisfy all constraints.
-/

namespace InfluenceDiagrams

/-- Which way the objective is optimised. -/
inductive Sense where
  | maximize
  | minimize
  deriving Repr, DecidableEq

/-- A linear program. `met` lists the variables in the order in which they were met, and `unnamed` is the
number of the last name that was given automatically. -/
structure Problem (α : Type) where
  name : String
  sense : Sense
  objective : Option (LinearExpr α)
  constraints : List (String × Constraint α)
  met : List (Variable α)
  unnamed : Nat

/-- The automatic name with a number. -/
def automaticName (n : Nat) : String := "_C" ++ toString n

namespace Problem

variable {α : Type}

/-- The problem without constraints. Spaces in its name become underscores. -/
def empty (name : String) : Problem α :=
  ⟨String.ofList (name.toList.map fun c => if c = ' ' then '_' else c), .maximize, none, [], [], 0⟩

/-- Remember variables that were not met before. -/
def meet (p : Problem α) (vs : List (Variable α)) : Problem α :=
  { p with met := vs.foldl (fun met v => if met.contains v then met else met ++ [v]) p.met }

/-- Whether a constraint has this name. -/
def hasConstraint (p : Problem α) (name : String) : Bool := p.constraints.any fun c => c.1 == name

/-- Add a constraint under a name that is not taken, and meet its variables. -/
def insert (p : Problem α) (name : String) (c : Constraint α) : Except (Fault α) (Problem α) :=
  if p.hasConstraint name then .error (.duplicateConstraint name)
  else .ok ({ p with constraints := p.constraints ++ [(name, c)] }.meet (c.terms.map Prod.fst))

/-- The number of the next automatic name: the first one after the last such name that no constraint has.
Among one more names than there are constraints, one is free. -/
def nextNumber (p : Problem α) : Nat :=
  ((List.range' (p.unnamed + 1) (p.constraints.length + 1)).find? fun n =>
    !p.hasConstraint (automaticName n)).getD (p.unnamed + 1)

/-- Add a constraint. Without a name it is called `_C1`, `_C2`, … in turn, names that are taken left out. -/
def addConstraint (p : Problem α) (name : Option String) (c : Constraint α) :
    Except (Fault α) (Problem α) :=
  match name with
  | some name => p.insert name c
  | none => { p with unnamed := p.nextNumber }.insert (automaticName p.nextNumber) c

/-- Meet the variables of the objective. -/
def observe (p : Problem α) : Problem α :=
  match p.objective with
  | some e => p.meet (e.terms.map Prod.fst)
  | none => p

/-- The variables met so far, sorted by name, equal names in the order in which they were met. -/
def vars (p : Problem α) : List (Variable α) :=
  p.met.mergeSort fun v w => decide (v.name ≤ w.name)

/-- How many variables were met. -/
def numVariables (p : Problem α) : Nat := p.met.length

/-- How many constraints there are. -/
def numConstraints (p : Problem α) : Nat := p.constraints.length

section Anchor

variable [Scalar α]

/-- The variable that stands in for an objective without terms; it can only be zero. -/
def anchor : Variable α := .real "__dummy" 0 0 0

/-- Whether the objective has no terms. -/
def isUnanchored (p : Problem α) : Bool :=
  match p.objective with
  | some e => e.terms.isEmpty
  | none => true

/-- The problem as a solver sees it: an objective without terms gets the anchor. -/
def withAnchor (p : Problem α) : Problem α :=
  if p.isUnanchored then
    { p with objective := some ((p.objective.getD .zero).addTerm (anchor, 1)) }
  else p

/-- The objective that stays after solving. An objective that got the anchor keeps it with coefficient
zero; a problem without objective still has none. -/
def afterAnchor (p : Problem α) (objective : Option (LinearExpr α)) : Problem α :=
  { p with objective := objective.map fun e =>
      if e.terms.isEmpty then (e.addTerm (anchor, 1)).addTerm (anchor, -1) else e }

end Anchor

/-! ## Points -/

variable [Scalar α]

/-- A point gives a variable an admissible value: within the bounds, and an integer if it has to be. -/
def Admits (point : VarKey → α) (v : Variable α) : Prop :=
  v.low ≤ point v.key ∧ point v.key ≤ v.high ∧
    (v.category = .integer → ∃ n : Int, point v.key = Scalar.ofInt n)

/-- A point is feasible when it satisfies all constraints and gives all their variables admissible
values. -/
def Feasible (p : Problem α) (point : VarKey → α) : Prop :=
  ∀ c ∈ p.constraints, c.2.Holds point ∧ ∀ t ∈ c.2.terms, Admits point t.1

end Problem
end InfluenceDiagrams
