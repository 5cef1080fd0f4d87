import Mathlib.Data.List.Basic
import Std.Data.String.ToInt
import InfluenceDiagrams.Path.Basic

/-!
# `InfluenceDiagrams.Proofs.Path.Tokens` — names made from paths

The names of variables and constraints are a word followed by the token of a path. The token joins the
states by underscores, which no number has, so that different paths have different tokens.

## Contents
- **`underscore_not_mem_toString`** — numbers are written without underscores.
- **`pathToken_injective`** — a token determines the path.
- **`pathToken_cons`** — the token of a node's number and states, as names write it.
-/

namespace InfluenceDiagrams

theorem underscore_not_mem_toString (k : Int) : '_' ∉ (toString k).toList := by
  show '_' ∉ k.repr.toList
  rw [Int.repr_eq_if]
  split
  · rw [Nat.toList_repr]
    exact Nat.underscore_not_in_toDigits
  · rw [String.toList_append, Nat.toList_repr, List.mem_append, not_or]
    exact ⟨by decide, Nat.underscore_not_in_toDigits⟩

theorem toList_toString_ne_nil (k : Int) : (toString k).toList ≠ [] := by
  show k.repr.toList ≠ []
  rw [Int.repr_eq_if]
  split
  · rw [Nat.toList_repr]
    exact Nat.toDigits_ne_nil
  · rw [String.toList_append]
    exact List.append_ne_nil_of_left_ne_nil (by decide) _

theorem toList_pathToken (s : Path) :
    (pathToken s).toList = ['_'].intercalate (s.map fun k => (toString k).toList) := by
  rw [pathToken, String.toList_intercalate, List.map_map]
  rfl

theorem pathToken_ne_empty (k : Int) (s : Path) : (pathToken (k :: s)).toList ≠ [] := by
  rw [toList_pathToken, List.map_cons]
  cases s with
  | nil =>
      rw [List.map_nil, List.intercalate_singleton]
      exact toList_toString_ne_nil k
  | cons j s =>
      rw [List.map_cons, List.intercalate_cons_cons]
      exact List.append_ne_nil_of_left_ne_nil (List.append_ne_nil_of_left_ne_nil (toList_toString_ne_nil k) _) _

/-- Different paths have different tokens. -/
theorem pathToken_injective {s t : Path} (h : pathToken s = pathToken t) : s = t := by
  -- no number has an underscore, so that splitting at underscores gives the numbers back
  have hsplit : ∀ (k : Int) (s : Path),
      (pathToken (k :: s)).toList.splitOn '_' = (k :: s).map fun k => (toString k).toList := by
    intro k s
    rw [toList_pathToken, List.splitOn_intercalate]
    · intro l hl
      obtain ⟨i, -, rfl⟩ := List.mem_map.1 hl
      exact underscore_not_mem_toString i
    · exact List.cons_ne_nil _ _
  -- the token of the empty path is empty, and splitting it would give one empty number
  cases s with
  | nil =>
      cases t with
      | nil => rfl
      | cons j t => exact absurd (congrArg String.toList h).symm (pathToken_ne_empty j t)
  | cons k s =>
      cases t with
      | nil => exact absurd (congrArg String.toList h) (pathToken_ne_empty k s)
      | cons j t =>
          have hlists := (hsplit k s).symm.trans (h ▸ hsplit j t)
          refine List.map_injective_iff.2 ?_ hlists
          intro a b hab
          exact Int.repr_injective (String.toList_injective hab)

/-- A number, an underscore and the token of a path that is not empty: a token again. -/
theorem pathToken_cons {s : Path} (hs : s ≠ []) (k : Int) :
    toString k ++ "_" ++ pathToken s = pathToken (k :: s) := by
  rw [pathToken, pathToken, List.map_cons, String.intercalate_cons_of_ne_nil (by simpa using hs)]

end InfluenceDiagrams
