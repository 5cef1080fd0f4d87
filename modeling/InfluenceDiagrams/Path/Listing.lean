import InfluenceDiagrams.Fault
import InfluenceDiagrams.Numeric.Lengths

/-!
# `InfluenceDiagrams.Path.Listing` — listing states and paths

Paths are listed by listing the states of every node first. Where lengths are bounded, a node that is not
fixed may have too many states to list, even if another node has none and there are no paths at all. Nodes
are gone through in order, and the first one with too many states decides.

## Contents
- **`checkLength`** — whether a list of some length can be made.
- **`checkCounts`, `listPaths`** — whether the states of all nodes can be listed, and the paths.
- **`Listable`**, **`listPaths_ok`** — where no count is too large for a length, the paths are listed.
-/

namespace InfluenceDiagrams

variable {α : Type}

section Lengths

variable [Lengths]

/-- Whether a list of so many entries can be made. -/
def checkLength (n : Int) : Except (Fault α) Unit := if Lengths.admits n then .ok () else .error .overflow

/-- Whether the states of the nodes from `first` on can be listed. Only one state of a fixed node is. -/
def checkCounts (fixed : FixedStates) (first : Nat) : StateCounts → Except (Fault α) Unit
  | [] => .ok ()
  | n :: rest => do
      if fixed.fixes first then .ok () else checkLength n
      checkCounts fixed (first + 1) rest

/-- The paths over a state space that agree with fixed states. -/
def listPaths (S : StateCounts) (fixed : FixedStates) : Except (Fault α) (List Path) :=
  (checkCounts fixed 0 S).map fun _ => paths S fixed

/-- No state count is too large for a length. -/
def Listable (S : StateCounts) : Prop := ∀ n ∈ S, Lengths.admits n = true

theorem checkLength_ok {n : Int} (h : Lengths.admits n = true) : checkLength (α := α) n = .ok () := if_pos h

theorem checkCounts_ok {S : StateCounts} (fixed : FixedStates) (h : Listable S) :
    ∀ first, checkCounts (α := α) fixed first S = .ok () := by
  induction S with
  | nil => exact fun _ => rfl
  | cons n S ih =>
      intro first
      have hn : checkLength (α := α) n = .ok () := checkLength_ok (h n List.mem_cons_self)
      rw [checkCounts, hn, ih fun k hk => h k (List.mem_cons_of_mem _ hk)]
      split <;> rfl

/-- A count that is too large for a length is too large wherever it stands, if no node is fixed. -/
theorem checkCounts_overflow {S : StateCounts} (h : ¬Listable S) :
    ∀ first, checkCounts (α := α) .empty first S = .error .overflow := by
  induction S with
  | nil => exact absurd (fun n hn => absurd hn List.not_mem_nil) h
  | cons n S ih =>
      intro first
      rw [checkCounts, if_neg (by simp [FixedStates.fixes, FixedStates.empty, Keyed.hasKey])]
      by_cases hn : Lengths.admits n = true
      · rw [checkLength_ok hn]
        exact ih (fun hS => h (List.forall_mem_cons.2 ⟨hn, hS⟩)) _
      · rw [checkLength, if_neg hn]
        rfl

/-- A listable state space is listed. -/
theorem listPaths_ok {S : StateCounts} (fixed : FixedStates) (h : Listable S) :
    listPaths (α := α) S fixed = .ok (paths S fixed) := by
  rw [listPaths, checkCounts_ok fixed h]
  rfl

end Lengths

/-- In lists of any length, every state space is listed. -/
theorem listPaths_unbounded (S : StateCounts) (fixed : FixedStates) :
    listPaths (α := α) S fixed = .ok (paths S fixed) :=
  listPaths_ok fixed fun _ _ => rfl

end InfluenceDiagrams
