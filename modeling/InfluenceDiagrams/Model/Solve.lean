import InfluenceDiagrams.Model.LazyCuts

/-!
# `InfluenceDiagrams.Model.Solve` — solving with lazy constraints

A solver is asked for a solution, the callbacks look at it, the constraints they submit are added, and
the solver is asked again, until no callback objects. Each callback submits at most once, so there are
at most as many rounds as callbacks that have not submitted.

## Contents
- **`Status`, `Verdict`, `Solver`** — what a solver is asked and answers.
- **`runSolver`** — one question: the values found become the present values.
- **`SolveResult`**, **`solve`** — the rounds.
-/

namespace InfluenceDiagrams

/-- What a solver says about a problem. -/
inductive Status where
  | optimal
  | notSolved
  | infeasible
  | unbounded
  | undefined
  deriving Repr, DecidableEq

namespace Status

/-- The name of a status. -/
def name : Status → String
  | optimal => "Optimal"
  | notSolved => "Not Solved"
  | infeasible => "Infeasible"
  | unbounded => "Unbounded"
  | undefined => "Undefined"

end Status

/-- A solver's answer: a status, and values of some of the variables, or their absence. -/
structure Verdict (α : Type) where
  status : Status
  values : List (VarKey × Option (Numeral α))

/-- A solver may answer differently every time, and may refuse to answer; the number counts the questions
of one run from zero. -/
abbrev Solver (α : Type) := Nat → Problem α → Except (Fault α) (Verdict α)

/-- The outcome of a run: the last status, the value of the objective if the status is optimal, and how
many times constraints were added. -/
structure SolveResult (α : Type) where
  status : Status
  objective : Option α
  rounds : Nat
  deriving Repr

variable {α : Type} [Scalar α]

/-- Ask a solver. An objective without terms is anchored for the question, and all variables are met. If
the solver refuses to answer, the anchor stays. -/
def runSolver (solver : Solver α) (call : Nat) : Build α Status := do
  let before ← Build.getModel
  let p := before.problem.withAnchor.observe
  Build.modifyProblem fun _ => p
  let verdict ← Build.lift (solver call p)
  Build.modifyModel fun m =>
    { m with problem := p.afterAnchor before.problem.objective }.assign verdict.values
  return verdict.status

/-- Show the present values to all callbacks. -/
def offerPresent : Build α (List (LazyConstraint α)) := do
  Build.modifyProblem Problem.observe
  let m ← Build.getModel
  offerAll m.candidate (List.range m.callbacks.length)

/-- Add lazy constraints in order, each under its own name or without a name. A name that is taken ends it. -/
def addLazy : List (LazyConstraint α) → Build α Unit
  | [] => return ()
  | cut :: rest => do
      Build.addConstraint cut.name cut.constraint
      addLazy rest

/-- Ask the solver and the callbacks in turn. `left` bounds the rounds to come, and `call` numbers the
questions; the result is the last status and the number of rounds. -/
def solveRounds (solver : Solver α) : (left call : Nat) → Build α (Status × Nat)
  | left, call => do
      let status ← runSolver solver call
      let m ← Build.getModel
      if status ≠ .optimal ∨ m.callbacks.isEmpty then return (status, call)
      else
        let cuts ← offerPresent
        if cuts.isEmpty then return (status, call)
        else
          addLazy cuts
          match left with
          | 0 => return (status, call)
          | left + 1 => solveRounds solver left (call + 1)

/-- The number of callbacks that have not submitted a constraint. -/
def pendingCallbacks (m : DecisionModel α) : Nat := m.callbacks.countP fun cb => !cb.added

/-- Solve the model, adding the lazy constraints that its callbacks submit. An optimal model needs an
objective to evaluate. -/
def solve (solver : Solver α) : Build α (SolveResult α) := do
  let m ← Build.getModel
  let (status, rounds) ← solveRounds solver (pendingCallbacks m) 0
  if status = .optimal then
    let m ← Build.getModel
    match m.problem.objective with
    | none => Build.lift (.error .noObjective)
    | some e =>
        let objective ← Build.lift (e.value m.value?)
        return ⟨status, objective, rounds⟩
  else return ⟨status, none, rounds⟩

end InfluenceDiagrams
