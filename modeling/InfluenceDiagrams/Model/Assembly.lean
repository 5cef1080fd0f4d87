import InfluenceDiagrams.Model.LazyCuts

/-!
# `InfluenceDiagrams.Model.Assembly` — the decision model of a diagram

The model of a diagram has its decision variables, its path variables, and the constraint on the
probabilities, either from the start or as a lazy one.

## Contents
- **`assemble`** — fills an empty model.
- **`Workspace.empty`** — the workspace to start from.
-/

namespace InfluenceDiagrams

variable {α : Type} [Scalar α] [Lengths]

/-- Start with an empty model. -/
def Workspace.empty (name : String) : Workspace α := ⟨.empty name, []⟩

/-- Fill an empty model with the variables and constraints of a diagram. -/
def assemble (dia : Diagram α) (options : ModelOptions α) (rules : List ForbiddenRule)
    (fixed : FixedStates) : Build α (List (DecisionVariables α) × PathVariables α) := do
  let z ← decisionVariables dia
  let x ← pathVariables dia z rules fixed (!options.lazyCuts) options.scale
  if options.lazyCuts then registerProbabilityCut x options.scale options.tolerance
  return (z, x)

end InfluenceDiagrams
