import InfluenceDiagrams.Path.Basic

/-!
# `InfluenceDiagrams.Path.Forbidden` — rules that exclude paths

A rule names some nodes and the sub-paths over them that it forbids. A path is excluded only when it
matches every rule of a list that is not empty.

## Contents
- **`ForbiddenRule`** — nodes and forbidden sub-paths; `ForbiddenRule.ofStates` for one node.
- **`isForbidden?`** — whether a list of rules excludes a path.
-/

namespace InfluenceDiagrams

/-- The sub-paths over `nodes` that are forbidden. A rule without nodes matches when it lists the empty
sub-path. -/
structure ForbiddenRule where
  nodes : List Node
  values : List Path
  deriving Repr, DecidableEq

namespace ForbiddenRule

/-- Forbid some states of one node. -/
def ofStates (node : Node) (states : List State) : ForbiddenRule := ⟨[node], states.map ([·])⟩

/-- Whether a path matches the rule; none when a node of the rule is out of range. -/
def matches? (rule : ForbiddenRule) (s : Path) : Option Bool :=
  (subPath? s rule.nodes).map fun part => rule.values.contains part

end ForbiddenRule

/-- Whether a path matches all rules, tested in order up to the first that it does not match. -/
def matchesAll? (s : Path) : List ForbiddenRule → Option Bool
  | [] => some true
  | rule :: rest => (rule.matches? s).bind fun hit => if hit then matchesAll? s rest else some false

/-- Whether a list of rules excludes a path: there is a rule, and the path matches all of them. -/
def isForbidden? (s : Path) (rules : List ForbiddenRule) : Option Bool :=
  if rules.isEmpty then some false else matchesAll? s rules

end InfluenceDiagrams
