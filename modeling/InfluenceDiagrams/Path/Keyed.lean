/-!
# `InfluenceDiagrams.Path.Keyed` — lists of keys and values in order of first appearance

Fixed states, groups of paths, probability masses and the terms of a linear expression are all lists
of pairs in which a key keeps the place where it first appeared. One operation builds all of them.

## Contents
- **`upsert`** — merge into the first pair with an equal key, or append a new pair.
- **`find?`, `hasKey`** — the value at a key.
- **`keys_upsert`** — the keys after an `upsert`: unchanged, or one more at the end.
-/

namespace InfluenceDiagrams.Keyed

variable {κ β : Type} [BEq κ]

/-- Merge into the value at `key`, or append `new` under `key` when no pair has an equal key. -/
def upsert (key : κ) (new : β) (merge : β → β) : List (κ × β) → List (κ × β)
  | [] => [(key, new)]
  | (k, b) :: rest =>
      if k == key then (k, merge b) :: rest else (k, b) :: upsert key new merge rest

/-- The value of the first pair with an equal key. -/
def find? (key : κ) : List (κ × β) → Option β
  | [] => none
  | (k, b) :: rest => if k == key then some b else find? key rest

/-- Whether some pair has an equal key. -/
def hasKey (key : κ) (pairs : List (κ × β)) : Bool := pairs.any fun p => p.1 == key

/-- The pairs with a repeated key reduced to its first place and its last value. -/
def ofPairs (pairs : List (κ × β)) : List (κ × β) :=
  pairs.foldl (fun acc p => upsert p.1 p.2 (fun _ => p.2) acc) []

theorem keys_upsert (key : κ) (new : β) (merge : β → β) (pairs : List (κ × β)) :
    (upsert key new merge pairs).map Prod.fst =
      if hasKey key pairs then pairs.map Prod.fst else pairs.map Prod.fst ++ [key] := by
  induction pairs with
  | nil => rfl
  | cons p rest ih =>
      obtain ⟨k, b⟩ := p
      by_cases h : (k == key) = true
      · simp [upsert, hasKey, h]
      · have hk : hasKey key ((k, b) :: rest) = hasKey key rest := by simp [hasKey, h]
        rw [hk]
        simp only [upsert, h, Bool.false_eq_true, if_false, List.map_cons, ih]
        split <;> rfl

end InfluenceDiagrams.Keyed
