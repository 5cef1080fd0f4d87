import InfluenceDiagrams.Model.DecisionVariables

/-!
# `InfluenceDiagrams.Model.PathVariables` — one variable per path of positive probability

For every path of positive probability that is neither forbidden nor in conflict with the fixed states
there is a variable between zero and one. Two kinds of constraint tie them to the decisions: the paths
through a decision can only be taken if the decision is, and the probabilities of the paths taken sum
to one.

## Contents
- **`PathVariable`, `PathVariables`** — the variables with their paths and probabilities.
- **`members?`** — the paths that get a variable.
- **`strategyBound`** — how many paths a decision can lead to, however the others are taken.
- **`pathVariables`** — creates the variables and their constraints.
- **`probabilitySum`, `probabilityCut`** — the constraint on the probabilities.
-/

namespace InfluenceDiagrams

variable {α : Type}

/-- A path with its variable and its probability. -/
structure PathVariable (α : Type) where
  path : Path
  var : Variable α
  prob : α

/-- The paths that have a variable, in ascending order, and the states they were made to agree with.
A path that is absent counts as never taken. -/
structure PathVariables (α : Type) where
  members : List (PathVariable α)
  fixed : FixedStates

namespace PathVariables

/-- The member for a path. -/
def find? (x : PathVariables α) (s : Path) : Option (PathVariable α) :=
  x.members.find? fun m => m.path == s

/-- The paths that have a variable. -/
def paths (x : PathVariables α) : List Path := x.members.map PathVariable.path

/-- The variables. -/
def vars (x : PathVariables α) : List (Variable α) := x.members.map PathVariable.var

end PathVariables

/-! ## Membership -/

/-- Check fixed states in order: the node has states, and the state is one of them. -/
def checkFixedStates (S : StateCounts) : List (Node × State) → Except (Fault α) Unit
  | [] => .ok ()
  | (k, state) :: rest =>
      if 0 ≤ k ∧ k < S.length then
        match nth? S k with
        | none => .error .outOfRange
        | some n =>
            if 0 ≤ state ∧ state < n then checkFixedStates S rest
            else .error (.invalidFixedState k (.outside state n))
      else .error (.invalidFixedState k .noStates)

variable [Scalar α] [Lengths]

/-- The probability of a path that gets a variable: it is not forbidden and its probability is not zero
or less. -/
def memberProb (dia : Diagram α) (rules : List ForbiddenRule) (s : Path) :
    Except (Fault α) (Option α) := do
  if ← orFault .outOfRange (isForbidden? s rules) then .ok none
  else
    let p ← dia.P.eval s
    .ok (if p ≤ 0 then none else some p)

/-- The paths that get a variable, with their probabilities, in ascending order. -/
def members (dia : Diagram α) (rules : List ForbiddenRule) (fixed : FixedStates) :
    Except (Fault α) (List (Path × α)) := do
  let ss ← listPaths dia.S fixed
  let probs ← ss.mapM (memberProb dia rules)
  .ok ((ss.zip probs).filterMap fun sp => sp.2.map (sp.1, ·))

/-- The variable of a path. -/
def pathVariable (family : Nat) (s : Path) : Variable α :=
  .real ("x_" ++ pathToken s) family 0 1

/-! ## Strategy constraints -/

/-- How many paths share an information state and a decision once every other decision is taken as
well: the size of the state space, divided by that of the node's variables and by the state counts of
the other decision nodes. The two quotients are rounded one after the other, and neither they nor the
second divisor may be too large for a number. -/
def theoreticalBound (S : StateCounts) (D : List InfoNode) (z : DecisionVariables α) :
    Except (Fault α) α := do
  let nodes := z.node.info ++ [z.node.index]
  let others := (D.map InfoNode.index).filter fun k => !nodes.contains k
  let shared ← orFault .zeroDivisor (Scalar.ratio? (numPaths S .empty) (numPaths z.shape .empty))
  if !Scalar.finite shared then .error .overflow
  else
    let counts ← orFault .outOfRange (others.mapM (nth? S))
    let divisor ← finiteInt (numPaths counts .empty)
    orFault .zeroDivisor (Scalar.quotient? shared divisor)

/-- The coefficient of a decision variable: the number of paths that lead through the decision, unless
fewer can be taken together. -/
def strategyBound (count : Nat) (bound : α) : α :=
  if bound < Scalar.ofInt count then bound else Scalar.ofInt count

/-- The paths through a decision are only taken if the decision is. -/
def strategyConstraint (bound : α) (vars : List (Variable α)) (z : Variable α) :
    Except (Fault α) (Constraint α) :=
  (LinearExpr.multiple bound z).map fun e => .atMost (.sumVars vars) e

/-- The variables of the paths of a group. -/
def groupVars (x : PathVariables α) (group : List Path) : List (Variable α) :=
  group.filterMap fun s => (x.find? s).map PathVariable.var

/-- The name of the strategy constraint of a decision node at an index. -/
def strategyName (d : Node) (index : Path) : String := "strategy_" ++ toString d ++ "_" ++ pathToken index

/-- The strategy constraint of one decision variable, if some path leads through the decision. -/
def addStrategyConstraint (x : PathVariables α) (d : Node) (bound : α)
    (groups : List (Path × List Path)) (z : Path × Variable α) : Build α Unit :=
  match Keyed.find? z.1 groups with
  | none => return ()
  | some group => do
      let c ← Build.lift (strategyConstraint (strategyBound group.length bound) (groupVars x group) z.2)
      Build.addConstraint (some (strategyName d z.1)) c

/-- The strategy constraints of one decision node: one for each of its variables that some path leads
through. -/
def addStrategyConstraints (S : StateCounts) (D : List InfoNode) (x : PathVariables α)
    (z : DecisionVariables α) : Build α Unit := do
  let bound ← Build.lift (theoreticalBound S D z)
  let groups ← Build.lift (orFault .outOfRange (groupBy? x.paths (z.node.info ++ [z.node.index])))
  z.z.forM (addStrategyConstraint x z.node.index bound groups)

/-! ## Probability constraint -/

/-- The scaled probabilities of the paths taken. -/
def probabilitySum (x : PathVariables α) (scale : α) : Except (Fault α) (LinearExpr α) :=
  LinearExpr.combination (x.members.map fun m => (m.prob * scale, m.var))

/-- The scaled probabilities of the paths taken sum to the scale. -/
def probabilityCut (x : PathVariables α) (scale : α) : Except (Fault α) (Constraint α) :=
  (probabilitySum x scale).map fun e => .equals e scale

/-- The name of the constraint on the probabilities. -/
def probabilityCutName : String := "probability_cut"

/-! ## Creation -/

/-- The variables of all paths of positive probability that are not forbidden and agree with the fixed
states, tied to the decision variables, and to the total probability if `eager`. -/
def pathVariables (dia : Diagram α) (z : List (DecisionVariables α)) (rules : List ForbiddenRule)
    (fixed : FixedStates) (eager : Bool) (scale : α) : Build α (PathVariables α) := do
  Build.lift (ModelOptions.checkScale scale)
  if !rules.isEmpty then Build.notify .forbiddenPaths
  Build.lift (checkFixedStates dia.S fixed.pairs)
  let members ← Build.lift (members dia rules fixed)
  let family ← Build.freshFamily
  let x : PathVariables α :=
    ⟨members.map fun m => ⟨m.1, pathVariable family m.1, m.2⟩, fixed⟩
  z.forM (addStrategyConstraints dia.S dia.D x)
  if eager then
    let c ← Build.lift (probabilityCut x scale)
    Build.addConstraint (some probabilityCutName) c
  return x

end InfluenceDiagrams
