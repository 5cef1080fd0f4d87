import InfluenceDiagrams.Model.PathVariables

/-!
# `InfluenceDiagrams.Model.LazyCuts` — constraints submitted at candidate solutions

A lazy callback looks at the candidates that a solver finds and submits its constraint the first time
that a candidate violates it. There are two: the probabilities of the paths taken sum to one, and the
number of paths taken is the number of joint chance states.

## Contents
- **`isClose`** — two numbers differ by at most a tolerance.
- **`registerProbabilityCut`** — the lazy constraint on the probabilities.
- **`requiredPaths?`, `registerActivePathsCut`** — the lazy constraint on the number of paths.
- **`offer`** — a candidate is shown to a callback.
-/

namespace InfluenceDiagrams

variable {α : Type} [Scalar α]

/-- Whether two numbers are equal or differ by at most a tolerance, which must not be negative. An
infinite number is close to itself only. -/
def isClose (x y tolerance : α) : Except (Fault α) Bool :=
  if tolerance < 0 then .error .negativeTolerance
  else if x == y then .ok true
  else if x == x && y == y && !(Scalar.finite x && Scalar.finite y) then .ok false
  else .ok (decide (Scalar.abs (y - x) ≤ tolerance))

/-! ## The probability cut -/

/-- The total probability of the paths taken in a candidate. -/
def candidateMass (x : PathVariables α) (c : Candidate α) : Except (Fault α) α :=
  x.members.foldlM (fun total m => (c.value m.var.name).map fun v => total + v * m.prob) 0

/-- The constraint on the probabilities, if the total probability of a candidate is not close to one. -/
def evaluateProbabilityCut (x : PathVariables α) (scale tolerance : α) (c : Candidate α) :
    Except (Fault α) (Option (LazyConstraint α)) := do
  let total ← candidateMass x c
  if ← isClose total 1 tolerance then .ok none
  else (probabilityCut x scale).map fun c => some (.unnamed c)

/-- Register the constraint on the probabilities as a lazy one. -/
def registerProbabilityCut (x : PathVariables α) (scale tolerance : α) : Build α Unit :=
  Build.register ⟨probabilityCutName, evaluateProbabilityCut x scale tolerance, false⟩

/-! ## The active paths cut -/

/-- The default tolerance of the active paths cut, nine tenths. -/
def defaultPathTolerance : α := Scalar.ofInt 9 / Scalar.ofInt 10

/-- The number of joint states of the chance nodes that are not fixed. -/
def requiredPaths? (dia : Diagram α) (fixed : FixedStates) : Option Int :=
  (((dia.indices .chance).filter fun c => !fixed.fixes c).mapM (nth? dia.S)).map fun counts =>
    numPaths counts .empty

/-- The number of variables above a threshold in a candidate. -/
def activePaths (x : PathVariables α) (threshold : α) (c : Candidate α) : Except (Fault α) Int :=
  x.members.foldlM (fun n m => (c.value m.var.name).map fun v => if threshold < v then n + 1 else n) 0

/-- All paths taken number `required`, which may not be too large for a number. -/
def activePathsConstraint (x : PathVariables α) (required : Int) :
    Except (Fault α) (Constraint α) :=
  (finiteInt required).map (.equals (.sumVars x.vars))

/-- The constraint on the number of paths, if that of a candidate is off by more than the tolerance. -/
def evaluateActivePathsCut (x : PathVariables α) (threshold : α) (required : Int) (tolerance : α)
    (c : Candidate α) : Except (Fault α) (Option (LazyConstraint α)) := do
  let n ← activePaths x threshold c
  if Scalar.intAtMost (n - required).natAbs tolerance then .ok none
  else (activePathsConstraint x required).map fun c => some (.unnamed c)

/-- Register the constraint on the number of paths as a lazy one. It needs probability tables without
zeros: then every compatible path is taken. -/
def registerActivePathsCut (dia : Diagram α) (x : PathVariables α) (tolerance : α) :
    Build α Unit := do
  let P ← Build.lift (orFault .tablesRequired dia.tables?)
  Build.require (!P.hasStructuralZeros) .structuralZeros
  Build.notify .activePathsCut
  let required ← Build.lift (orFault .outOfRange (requiredPaths? dia x.fixed))
  Build.register
    ⟨"active_paths_cut", evaluateActivePathsCut x P.minPositive required tolerance, false⟩

/-! ## Submission -/

/-- Show a candidate to the callback in place `i`. A callback that has submitted its constraint does
not look again; one that submits it is marked. -/
def offer (i : Nat) (c : Candidate α) : Build α (Option (LazyConstraint α)) := do
  let m ← Build.getModel
  match m.callbacks[i]? with
  | none => return none
  | some callback =>
      if callback.added then return none
      else
        match ← Build.lift (callback.evaluate c) with
        | none => return none
        | some cut =>
            Build.modifyModel fun m => { m with
              callbacks := m.callbacks.modify i fun cb => { cb with added := true },
              submitted := m.submitted ++ [(callback.name, cut)] }
            return some cut

/-- Show a candidate to some callbacks in order; the constraints that are submitted. -/
def offerAll (c : Candidate α) : List Nat → Build α (List (LazyConstraint α))
  | [] => return []
  | i :: rest => do
      let cut ← offer i c
      let cuts ← offerAll c rest
      return cut.toList ++ cuts

end InfluenceDiagrams
