import InfluenceDiagrams.Program.Problem
import InfluenceDiagrams.Path.Forbidden

/-!
# `InfluenceDiagrams.Model.Basic` — a decision model under construction

A decision model is a maximisation problem with what belongs to it: callbacks that may submit one lazy
constraint each, the constraints they have submitted, the records of tail objectives, counters for
fresh names, and the present values of the variables.

Operations on a model run in `Build`. A step that has a fault keeps what was done before it, so the
order of tests and changes is part of every operation.

## Contents
- **`ModelOptions`** — how a model is built, with `ModelOptions.check`.
- **`Candidate`** — the values of variables by name, as lazy callbacks see them.
- **`LazyConstraint`, `LazyCallback`, `TailVariables`, `DecisionModel`** — the model.
- **`Notice`, `Workspace`, `Build`** — the state of construction.
- **`addConstraint`, `freshFamily`, `freshIndex`, `notify`** — the primitive steps.
-/

namespace InfluenceDiagrams

/-! ## Options -/

/-- How a model is built: whether the probability cut is lazy, the factor on probabilities in it, the
tolerance of the lazy cut, and the name of the problem. -/
structure ModelOptions (α : Type) where
  lazyCuts : Bool
  scale : α
  tolerance : α
  name : String

namespace ModelOptions

variable {α : Type} [Scalar α]

/-- The name of a model that is not given one. -/
def defaultName : String := "decision_model"

/-- The tolerance of a lazy probability cut that is not given one, a millionth. -/
def defaultTolerance : α := 1 / Scalar.ofInt 1000000

/-- An eager probability cut without scaling. -/
def default : ModelOptions α := ⟨false, 1, defaultTolerance, defaultName⟩

/-- A factor on probabilities has to be positive. A NaN passes. -/
def checkScale (scale : α) : Except (Fault α) Unit :=
  if scale ≤ 0 then .error (.scaleFactor scale) else .ok ()

/-- Options with a positive factor and a tolerance that is not negative. A NaN passes both tests. -/
def check (o : ModelOptions α) : Except (Fault α) (ModelOptions α) := do
  checkScale o.scale
  if o.tolerance < 0 then .error (.cutTolerance o.tolerance) else .ok o

end ModelOptions

/-! ## Candidates -/

/-- The values of variables by name, as they were given. A variable may be known without having a value. -/
abbrev Candidate (α : Type) := List (String × Option (Numeral α))

namespace Candidate

variable {α : Type}

/-- A candidate from names and values; of values for one name the last one counts. -/
def ofPairs (pairs : List (String × Option (Numeral α))) : Candidate α := Keyed.ofPairs pairs

/-- The value of a variable: zero if it is known without a value, a fault if it is not known. -/
def value [Scalar α] (c : Candidate α) (name : String) : Except (Fault α) α :=
  match Keyed.find? name c with
  | some (some x) => x.finite
  | some none => .ok 0
  | none => .error (.notInCandidate name)

/-- The value of the variable that a text names. -/
def valueOf [Scalar α] (c : Candidate α) (text : String) : Except (Fault α) α :=
  (orFault .unnamedVariable (Variable.nameOf? text)).bind c.value

end Candidate

/-! ## The model -/

/-- A constraint that a callback answers with. It may have a name of its own, which is never without
characters. -/
structure LazyConstraint (α : Type) where
  name : Option String
  constraint : Constraint α

/-- A lazy constraint without a name of its own. -/
def LazyConstraint.unnamed {α : Type} (c : Constraint α) : LazyConstraint α := ⟨none, c⟩

/-- A callback that looks at candidates and may submit one constraint, once. The constraint is recorded under
the name of the callback. To the problem it is added under its own name, or an automatic one if it has none. -/
structure LazyCallback (α : Type) where
  name : String
  evaluate : Candidate α → Except (Fault α) (Option (LazyConstraint α))
  added : Bool

/-- The variables that a tail objective adds for one path. -/
structure TailRow (α : Type) where
  path : Path
  below : Variable α
  atMost : Variable α
  strictMass : Variable α
  mass : Variable α

/-- The variables of one tail objective at a risk level: the quantile, and those of every path. -/
structure TailVariables (α : Type) where
  level : α
  quantile : Variable α
  rows : List (TailRow α)

/-- A problem with its lazy callbacks and the constraints they have submitted, its tail objectives, the
counters of auxiliary names and of families of variables, and the values of the variables. -/
structure DecisionModel (α : Type) where
  problem : Problem α
  callbacks : List (LazyCallback α)
  submitted : List (String × LazyConstraint α)
  tails : List (TailVariables α)
  nextIndex : Nat
  families : Nat
  values : List (VarKey × Option (Numeral α))

namespace DecisionModel

variable {α : Type}

/-- A model without variables. -/
def empty (name : String) : DecisionModel α := ⟨.empty name, [], [], [], 0, 0, []⟩

/-- The present value of a variable, if it has one. -/
def value? (m : DecisionModel α) (key : VarKey) : Option (Numeral α) := (Keyed.find? key m.values).join

/-- Give some variables new values, or none; the others keep theirs. -/
def assign (m : DecisionModel α) (values : List (VarKey × Option (Numeral α))) : DecisionModel α :=
  { m with values := values ++ m.values.filter fun p => !Keyed.hasKey p.1 values }

/-- The present values of the problem's variables by name. -/
def candidate (m : DecisionModel α) : Candidate α :=
  .ofPairs (m.problem.vars.map fun v => (v.name, m.value? v.key))

end DecisionModel

/-! ## Construction -/

/-- What a user should know about a step. -/
inductive Notice where
  /-- Forbidden paths were used. -/
  | forbiddenPaths
  /-- The active paths cut was used. -/
  | activePathsCut
  deriving Repr, DecidableEq

/-- The wording of a notice. -/
def Notice.message : Notice → String
  | forbiddenPaths =>
      "Forbidden paths is an experimental feature and has not been fully validated."
  | activePathsCut =>
      "Active paths cut is an experimental feature and has not been fully validated."

/-- A model with the notices given so far, the latest last. -/
structure Workspace (α : Type) where
  model : DecisionModel α
  notices : List Notice

/-- Steps that change a model and may have a fault; what was done before a fault stays. -/
abbrev Build (α β : Type) := ExceptT (Fault α) (StateM (Workspace α)) β

namespace Build

variable {α β : Type}

/-- Run steps on a workspace. -/
def runOn (steps : Build α β) (w : Workspace α) : Except (Fault α) β × Workspace α :=
  (ExceptT.run steps).run w

/-- A computation that does not touch the model. -/
def lift (x : Except (Fault α) β) : Build α β := ExceptT.mk (pure x)

/-- Go on only if a condition holds. -/
def require (condition : Bool) (fault : Fault α) : Build α Unit :=
  lift (if condition then .ok () else .error fault)

/-- Look at the model. -/
def getModel : Build α (DecisionModel α) := do return (← get).model

/-- Change the model. -/
def modifyModel (f : DecisionModel α → DecisionModel α) : Build α Unit :=
  modify fun w => { w with model := f w.model }

/-- Change the problem of the model. -/
def modifyProblem (f : Problem α → Problem α) : Build α Unit :=
  modifyModel fun m => { m with problem := f m.problem }

/-- Give a notice. -/
def notify (n : Notice) : Build α Unit := modify fun w => { w with notices := w.notices ++ [n] }

/-- Add a constraint to the problem of the model. -/
def addConstraint (name : Option String) (c : Constraint α) : Build α Unit := do
  let m ← getModel
  let p ← lift (m.problem.addConstraint name c)
  modifyProblem fun _ => p

/-- A number for a new family of variables. -/
def freshFamily : Build α Nat := do
  let m ← getModel
  modifyModel fun m => { m with families := m.families + 1 }
  return m.families

/-- A number for the names of auxiliary variables. -/
def freshIndex : Build α Nat := do
  let m ← getModel
  modifyModel fun m => { m with nextIndex := m.nextIndex + 1 }
  return m.nextIndex

/-- Register a lazy callback. -/
def register (callback : LazyCallback α) : Build α Unit :=
  modifyModel fun m => { m with callbacks := m.callbacks ++ [callback] }

/-- Set the objective and its sense. An objective that is missing is a fault, and afterwards the problem
has none.

The problem gets a copy of the expression. A library whose problem refers to the expression of its caller
shows the caller the anchor that a run leaves in an objective without terms; a program that needs the effect
on its own expression reads the objective back after a run. -/
def setObjective (e : Option (LinearExpr α)) (sense : Sense) : Build α Unit := do
  modifyProblem fun p => { p with objective := e, sense := sense }
  require e.isSome .noObjective

end Build
end InfluenceDiagrams
