import InfluenceDiagrams.Fault

/-!
# `InfluenceDiagrams.Program.LinearExpr` — variables, linear expressions, constraints

A linear program is written with expressions: a coefficient for each variable, in the order in which
the variables came in, and a constant. Two variables are the same when they have the same name and were
created together; names alone need not be unique in a program.

## Contents
- **`VarKey`, `Variable`** — the identity of a variable; its category and bounds.
- **`Variable.nameOf?`** — the name that a text stands for.
- **`LinearExpr`** — sums and multiples, and the value at a point.
- **`Constraint`** — an expression without constant, compared with a number; `Constraint.Holds`.
-/

namespace InfluenceDiagrams

/-! ## Variables -/

/-- What tells variables apart: the name, and the number of the family created together. -/
structure VarKey where
  name : String
  family : Nat
  deriving Repr, DecidableEq

/-- Whether a variable takes integers only. -/
inductive Category where
  | integer
  | continuous
  deriving Repr, DecidableEq

/-- A variable between two bounds. -/
structure Variable (α : Type) where
  key : VarKey
  category : Category
  low : α
  high : α
  deriving Repr

instance {α : Type} : BEq (Variable α) := ⟨fun v w => v.key == w.key⟩

/-- The name of a variable. -/
def Variable.name {α : Type} (v : Variable α) : String := v.key.name

/-- Whether a character belongs to the notation of expressions, so that no name has it. -/
def isNotation (c : Char) : Bool := ['-', '+', '[', ']', ' ', '>', '/'].contains c

/-- The name that a variable called by a text has: underscores stand for the characters that no name has,
and a text without characters names nothing. -/
def Variable.nameOf? (text : String) : Option String :=
  if text.isEmpty then none
  else some (String.ofList (text.toList.map fun c => if isNotation c then '_' else c))

/-- An integer variable between zero and one. -/
def Variable.binary {α : Type} [Zero α] [One α] (name : String) (family : Nat) : Variable α :=
  ⟨⟨name, family⟩, .integer, 0, 1⟩

/-- A continuous variable. -/
def Variable.real {α : Type} (name : String) (family : Nat) (low high : α) : Variable α :=
  ⟨⟨name, family⟩, .continuous, low, high⟩

/-! ## Expressions -/

/-- A sum of multiples of variables, and a constant. -/
structure LinearExpr (α : Type) where
  terms : List (Variable α × α)
  constant : α
  deriving Repr

namespace LinearExpr

variable {α : Type} [Scalar α]

/-- The expression without terms. -/
def zero : LinearExpr α := ⟨[], 0⟩

/-- One variable. -/
def ofVar (v : Variable α) : LinearExpr α := ⟨[(v, 1)], 0⟩

/-- One number. A number that is not finite is refused. -/
def ofNumber (c : α) : Except (Fault α) (LinearExpr α) :=
  if Scalar.finite c then .ok ⟨[], c⟩ else .error .notFinite

/-- Add a multiple of a variable. A coefficient that becomes zero stays. -/
def addTerm (e : LinearExpr α) (t : Variable α × α) : LinearExpr α :=
  { e with terms := Keyed.upsert t.1 t.2 (· + t.2) e.terms }

/-- Sum of two expressions. -/
def add (e f : LinearExpr α) : LinearExpr α :=
  f.terms.foldl addTerm { e with constant := e.constant + f.constant }

/-- Difference of two expressions. -/
def sub (e f : LinearExpr α) : LinearExpr α :=
  f.terms.foldl (fun e t => e.addTerm (t.1, -t.2)) { e with constant := e.constant - f.constant }

/-- A number taken away. A number that is not finite is refused. -/
def subNumber (e : LinearExpr α) (c : α) : Except (Fault α) (LinearExpr α) :=
  if Scalar.finite c then .ok { e with constant := e.constant - c } else .error .notFinite

/-- A multiple of an expression. Zero times anything has no terms, and a factor that is not finite is
refused. -/
def scale (c : α) (e : LinearExpr α) : Except (Fault α) (LinearExpr α) :=
  if !Scalar.finite c then .error .notFinite
  else if c == 0 then .ok zero
  else .ok ⟨e.terms.map fun t => (t.1, c * t.2), c * e.constant⟩

/-- A multiple of one variable. -/
def multiple (c : α) (v : Variable α) : Except (Fault α) (LinearExpr α) := scale c (ofVar v)

/-- The sum of some variables. -/
def sumVars (vs : List (Variable α)) : LinearExpr α := vs.foldl (fun e v => e.addTerm (v, 1)) zero

/-- The sum of some expressions, from the left. -/
def sum (es : List (LinearExpr α)) : LinearExpr α := es.foldl add zero

/-- The sum of multiples of variables, each multiple built first. -/
def combination (terms : List (α × Variable α)) : Except (Fault α) (LinearExpr α) :=
  (terms.mapM fun t => multiple t.1 t.2).map sum

/-- The value at a point. -/
def eval (point : VarKey → α) (e : LinearExpr α) : α :=
  e.terms.foldl (fun acc t => acc + point t.1.key * t.2) e.constant

/-- Add the values of some terms where only some variables have values, from the left: none at the first
variable without a value. -/
def addValues (point : VarKey → Option (Numeral α)) (acc : α) :
    List (Variable α × α) → Except (Fault α) (Option α)
  | [] => .ok (some acc)
  | (v, c) :: rest =>
      match point v.key with
      | none => .ok none
      | some x => do
          let x ← x.finite
          addValues point (acc + x * c) rest

/-- The value where only some variables have values; none if a variable of the expression has none. -/
def value (point : VarKey → Option (Numeral α)) (e : LinearExpr α) : Except (Fault α) (Option α) :=
  addValues point e.constant e.terms

/-- The variables that occur. -/
def vars (e : LinearExpr α) : List (Variable α) := e.terms.map Prod.fst

end LinearExpr

/-! ## Constraints -/

/-- How the two sides of a constraint compare. -/
inductive Relation where
  | le
  | eq
  | ge
  deriving Repr, DecidableEq

/-- The comparison of two numbers. -/
def Relation.Compares {α : Type} [Scalar α] : Relation → α → α → Prop
  | le, x, y => x ≤ y
  | eq, x, y => x = y
  | ge, x, y => y ≤ x

/-- A sum of multiples of variables compared with a number. -/
structure Constraint (α : Type) where
  terms : List (Variable α × α)
  relation : Relation
  rhs : α
  deriving Repr

namespace Constraint

variable {α : Type} [Scalar α]

/-- Compare an expression with zero; its constant goes to the right-hand side. -/
def ofExpr (e : LinearExpr α) (relation : Relation) : Constraint α :=
  ⟨e.terms, relation, 0 - e.constant⟩

/-- `e ≤ f`. -/
def atMost (e f : LinearExpr α) : Constraint α := ofExpr (e.sub f) .le

/-- `e ≥ f`. -/
def atLeast (e f : LinearExpr α) : Constraint α := ofExpr (e.sub f) .ge

/-- `e = c`. -/
def equals (e : LinearExpr α) (c : α) : Constraint α := ⟨e.terms, .eq, c - e.constant⟩

/-- The variables that occur. -/
def vars (c : Constraint α) : List (Variable α) := c.terms.map Prod.fst

/-- A point satisfies a constraint. -/
def Holds (point : VarKey → α) (c : Constraint α) : Prop :=
  c.relation.Compares (LinearExpr.eval point ⟨c.terms, 0⟩) c.rhs

end Constraint
end InfluenceDiagrams
