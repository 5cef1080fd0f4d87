import InfluenceDiagrams.Text.Blank
import InfluenceDiagrams.Text.Quoted
import InfluenceDiagrams.Numeric.ShortestDecimal

/-!
# `InfluenceDiagrams.Diagram.Role` — what a node stands for

A node is a chance node, a decision node or a value node. Its role is named by a tag: a word in any
mix of capital and small letters, with blank space around it. Tags come from documents, so other kinds
of value may stand in their place; they name no role, and a message shows them as they were written.

## Contents
- **`Role`** — the three roles and their names.
- **`RoleTag`** — a value standing where a role is named; `RoleTag.text` shows it.
- **`Role.ofTag?`** — the role that a tag names.
-/

namespace InfluenceDiagrams

/-- What a node stands for. -/
inductive Role where
  | chance
  | decision
  | value
  deriving Repr, DecidableEq

namespace Role

/-- The name of a role. -/
def name : Role → String
  | chance => "chance"
  | decision => "decision"
  | value => "value"

end Role

/-- A value that stands where a role is named. -/
inductive RoleTag (α : Type) where
  | word (text : List Nat)
  | absent
  | bool (b : Bool)
  | int (n : Int)
  | real (x : α)
  | list (items : List (RoleTag α))
  | record (fields : List (List Nat × RoleTag α))

namespace RoleTag

mutual

/-- A tag as a message shows it. -/
def text : RoleTag Float → String
  | .word w => Text.quoted w
  | .absent => "None"
  | .bool b => if b then "True" else "False"
  | .int n => toString n
  | .real x => Binary64.text x
  | .list items => Text.bracketed (texts items)
  | .record fields => Text.braced (fieldTexts fields)

/-- The texts of a list of tags. -/
def texts : List (RoleTag Float) → List String
  | [] => []
  | t :: ts => text t :: texts ts

/-- The texts of named tags. -/
def fieldTexts : List (List Nat × RoleTag Float) → List String
  | [] => []
  | (k, t) :: ts => (Text.quoted k ++ ": " ++ text t) :: fieldTexts ts

end

end RoleTag

/-- The role that a tag names: a word whose trimmed lower case is the name of a role. -/
def Role.ofTag? {α : Type} : RoleTag α → Option Role
  | .word w =>
      let plain := (Text.trimBlank w).map Text.lowerAscii
      [Role.chance, Role.decision, Role.value].find? fun r => r.name.toList.map Char.toNat == plain
  | _ => none

end InfluenceDiagrams
