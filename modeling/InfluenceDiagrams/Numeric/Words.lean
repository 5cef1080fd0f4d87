import InfluenceDiagrams.Numeric.Binary64

/-!
# `InfluenceDiagrams.Numeric.Words` — integers kept together in machine words

Integers of one table or one state space are kept in words of 64 bits of one kind: signed if all fit,
unsigned if none fits into a signed word. Integers that need both kinds are kept as doubles, and as soon
as one fits neither kind, none is kept in a word.

## Contents
- **`fitsSigned`, `fitsUnsigned`** — whether an integer fits into a word.
- **`WordKind`, `WordKind.ofInts`** — how integers are kept together.
- **`doubleAsWord`** — an integer kept as a double, and then put into a signed word.
- **`signedWords?`** — integers put into signed words.
-/

namespace InfluenceDiagrams

/-- Whether an integer fits into a signed word of 64 bits. -/
def fitsSigned (n : Int) : Bool := decide (-0x8000000000000000 ≤ n) && decide (n < 0x8000000000000000)

/-- Whether an integer fits into an unsigned word of 64 bits. -/
def fitsUnsigned (n : Int) : Bool := decide (0 ≤ n) && decide (n < 0x10000000000000000)

/-- How integers are kept together. -/
inductive WordKind where
  /-- In signed words. -/
  | signed
  /-- In unsigned words. -/
  | unsigned
  /-- As doubles. -/
  | double
  /-- Each by itself, of any size. -/
  | unbounded
  deriving Repr, DecidableEq

/-- How some integers are kept together. -/
def WordKind.ofInts (ns : List Int) : WordKind :=
  if ns.all fitsSigned then .signed
  else if ns.any fun n => !fitsSigned n && !fitsUnsigned n then .unbounded
  else if ns.any fitsSigned then .double
  else .unsigned

/-- An integer kept as a double, and then put into a signed word: one beyond the signed words becomes the
least of them. -/
def doubleAsWord (n : Int) : Int :=
  let x := Binary64.nearestInteger n
  if fitsSigned x then x else -0x8000000000000000

/-- Integers put into signed words, which is arithmetic on remainders of `2 ^ 64` for words of either
kind; none when an integer fits no word. -/
def signedWords? (ns : List Int) : Option (List Int) :=
  match WordKind.ofInts ns with
  | .signed | .unsigned => some ns
  | .double => some (ns.map doubleAsWord)
  | .unbounded => none

end InfluenceDiagrams
