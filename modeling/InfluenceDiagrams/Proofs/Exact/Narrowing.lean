import InfluenceDiagrams.Exact.Propagation
import InfluenceDiagrams.Proofs.Exact.BestPoint

/-!
# `InfluenceDiagrams.Proofs.Exact.Narrowing` — narrowed boxes are inside of each other

Narrowing a box by rows never widens it, and gives up where it would leave a variable without a value. So the narrowed
box is inside of the box, is not empty, and a variable that was held at an integer still is.

## Contents
- **`Box.Narrows`** — a box inside of another; `Narrows.refl`, `Narrows.trans`.
- **`Box.Held`** — a variable is held at an integer; **`Narrows.held`** — and still is in a narrower box.
- **`Narrowed.capHigh_narrows`, `Narrowed.capLow_narrows`** — a new bound for one variable.
- **`propagate_narrows`** — all rows, in several passes.
-/

namespace InfluenceDiagrams.Exact

variable {tol : Tolerance Rat} {a b c : Box Rat} {x : Rat} {i : Nat}

theorem getD_setIfInBounds (xs : Array Rat) (i j : Nat) (x : Rat) :
    (xs.setIfInBounds i x).getD j 0 = if i = j ∧ i < xs.size then x else xs.getD j 0 := by
  rw [Array.getD_eq_getD_getElem?, Array.getD_eq_getD_getElem?, Array.getElem?_setIfInBounds]
  by_cases hij : i = j
  · by_cases hi : i < xs.size
    · rw [if_pos hij, if_pos hi, if_pos ⟨hij, hi⟩, Option.getD_some]
    · rw [if_pos hij, if_neg hi, if_neg fun h => hi h.2, ← hij, Array.getElem?_eq_none (Nat.le_of_not_lt hi)]
  · rw [if_neg hij, if_neg fun h => hij h.1]

namespace Box

/-- A box that is not empty lies inside of another. -/
structure Narrows (b c : Box Rat) : Prop where
  proper : c.Proper
  size_eq : c.lows.size = b.lows.size
  low_le : ∀ i, b.low i ≤ c.low i
  high_le : ∀ i, c.high i ≤ b.high i

/-- A variable is held at an integer. -/
def Held (b : Box Rat) (i : Nat) : Prop := ∃ n : Int, b.low i = n ∧ b.high i = n

theorem Narrows.refl (hb : b.Proper) : b.Narrows b := ⟨hb, rfl, fun _ => le_refl _, fun _ => le_refl _⟩

theorem Narrows.trans (h : a.Narrows b) (h' : b.Narrows c) : a.Narrows c where
  proper := h'.proper
  size_eq := h'.size_eq.trans h.size_eq
  low_le i := (h.low_le i).trans (h'.low_le i)
  high_le i := (h'.high_le i).trans (h.high_le i)

theorem Narrows.held (h : b.Narrows c) (hb : b.Held i) : c.Held i := by
  obtain ⟨n, hlow, hhigh⟩ := hb
  have hle := h.low_le i
  have hge := h.high_le i
  have hbounds := h.proper.low_le_high i
  exact ⟨n, by linarith, by linarith⟩

theorem narrows_highs (hb : b.Proper) (hlow : b.low i ≤ x) (hhigh : x ≤ b.high i) :
    b.Narrows { b with highs := b.highs.setIfInBounds i x } where
  proper := by
    refine ⟨(Array.size_setIfInBounds ..).trans hb.size_eq, fun j => ?_⟩
    show b.low j ≤ (b.highs.setIfInBounds i x).getD j 0
    rw [getD_setIfInBounds]
    split
    · next h => exact h.1 ▸ hlow
    · exact hb.low_le_high j
  size_eq := rfl
  low_le _ := le_refl _
  high_le j := by
    show (b.highs.setIfInBounds i x).getD j 0 ≤ b.high j
    rw [getD_setIfInBounds]
    split
    · next h => exact h.1 ▸ hhigh
    · exact le_refl _

theorem narrows_lows (hb : b.Proper) (hlow : b.low i ≤ x) (hhigh : x ≤ b.high i) :
    b.Narrows { b with lows := b.lows.setIfInBounds i x } where
  proper := by
    refine ⟨hb.size_eq.trans (Array.size_setIfInBounds ..).symm, fun j => ?_⟩
    show (b.lows.setIfInBounds i x).getD j 0 ≤ b.high j
    rw [getD_setIfInBounds]
    split
    · next h => exact h.1 ▸ hhigh
    · exact hb.low_le_high j
  size_eq := Array.size_setIfInBounds ..
  low_le j := by
    show b.low j ≤ (b.lows.setIfInBounds i x).getD j 0
    rw [getD_setIfInBounds]
    split
    · next h => exact h.1 ▸ hlow
    · exact le_refl _
  high_le _ := le_refl _

/-- Holding a variable at a value between its bounds. -/
theorem narrows_hold (hb : b.Proper) (hlow : b.low i ≤ x) (hhigh : x ≤ b.high i) : b.Narrows (b.hold i x) := by
  have hfirst := narrows_highs hb hlow hhigh
  refine hfirst.trans (narrows_lows hfirst.proper hlow ?_)
  show x ≤ (b.highs.setIfInBounds i x).getD i 0
  rw [getD_setIfInBounds]
  split
  · exact le_refl _
  · exact hhigh

theorem held_hold (hb : b.Proper) (hi : i < b.lows.size) (n : Int) : (b.hold i n).Held i := by
  refine ⟨n, ?_, ?_⟩
  · show (b.lows.setIfInBounds i n).getD i 0 = n
    rw [getD_setIfInBounds, if_pos ⟨rfl, hi⟩]
  · show (b.highs.setIfInBounds i n).getD i 0 = n
    rw [getD_setIfInBounds, if_pos ⟨rfl, hb.size_eq ▸ hi⟩]

end Box

/-! ## Rows -/

namespace Narrowed

variable {s s' : Narrowed Rat} {isInteger : Bool} {slack room : Rat}

theorem capHigh_narrows (htol : tol.feasible = 0) (hs : s.box.Proper) (hslack : slack = 0)
    (h : s.capHigh tol i isInteger slack x = some s') : s.box.Narrows s'.box := by
  unfold capHigh at h
  dsimp only at h
  generalize integerHigh tol isInteger x = y at h
  rw [Tolerance.at_eq_zero htol] at h
  split at h
  · next hlt =>
      split at h
      · next hbelow =>
          split at h
          · next hle => linarith
          · cases h
      · next hnot =>
          obtain rfl := Option.some.inj h
          exact Box.narrows_highs hs (by linarith) (by linarith)
  · obtain rfl := Option.some.inj h
    exact .refl hs

theorem capLow_narrows (htol : tol.feasible = 0) (hs : s.box.Proper) (hslack : slack = 0)
    (h : s.capLow tol i isInteger slack x = some s') : s.box.Narrows s'.box := by
  unfold capLow at h
  dsimp only at h
  generalize integerLow tol isInteger x = y at h
  rw [Tolerance.at_eq_zero htol] at h
  split at h
  · next hlt =>
      split at h
      · next habove =>
          split at h
          · next hle => linarith
          · cases h
      · next hnot =>
          obtain rfl := Option.some.inj h
          exact Box.narrows_lows hs (by linarith) (by linarith)
  · obtain rfl := Option.some.inj h
    exact .refl hs

theorem capTermHigh_narrows (htol : tol.feasible = 0) (hs : s.box.Proper) {t : Nat × Rat} {bound : Rat}
    (h : s.capTermHigh tol t isInteger (tol.at bound) room = some s') : s.box.Narrows s'.box := by
  rw [capTermHigh, Tolerance.at_eq_zero htol] at h
  split at h
  · exact capHigh_narrows htol hs (zero_div _) h
  · exact capLow_narrows htol hs (zero_div _) h

theorem capTermLow_narrows (htol : tol.feasible = 0) (hs : s.box.Proper) {t : Nat × Rat} {bound : Rat}
    (h : s.capTermLow tol t isInteger (tol.at bound) room = some s') : s.box.Narrows s'.box := by
  rw [capTermLow, Tolerance.at_eq_zero htol] at h
  split at h
  · exact capLow_narrows htol hs (zero_div _) h
  · exact capHigh_narrows htol hs (zero_div _) h

theorem capRowHigh_narrows (htol : tol.feasible = 0) (hs : s.box.Proper) {r : Row Rat} {t : Nat × Rat} {rest : Rat}
    (h : s.capRowHigh tol r t isInteger rest = some s') : s.box.Narrows s'.box := by
  unfold capRowHigh at h
  split at h
  · exact capTermHigh_narrows htol hs h
  · obtain rfl := Option.some.inj h
    exact .refl hs

theorem capRowLow_narrows (htol : tol.feasible = 0) (hs : s.box.Proper) {r : Row Rat} {t : Nat × Rat} {rest : Rat}
    (h : s.capRowLow tol r t isInteger rest = some s') : s.box.Narrows s'.box := by
  unfold capRowLow at h
  split at h
  · exact capTermLow_narrows htol hs h
  · obtain rfl := Option.some.inj h
    exact .refl hs

theorem tightenTerm_narrows (htol : tol.feasible = 0) (hs : s.box.Proper) {integral : Array Bool} {r : Row Rat}
    {range : Rat × Rat} {t : Nat × Rat} (h : tightenTerm tol integral r range s t = some s') :
    s.box.Narrows s'.box := by
  obtain ⟨m, hfirst, hsecond⟩ := Option.bind_eq_some_iff.1 h
  have hm := capRowHigh_narrows htol hs hfirst
  exact hm.trans (capRowLow_narrows htol hm.proper hsecond)

theorem foldlM_narrows {β : Type} {f : Narrowed Rat → β → Option (Narrowed Rat)}
    (hf : ∀ s y s', s.box.Proper → f s y = some s' → s.box.Narrows s'.box) {ys : List β} (hs : s.box.Proper)
    (h : ys.foldlM f s = some s') : s.box.Narrows s'.box := by
  induction ys generalizing s with
  | nil =>
      obtain rfl := Option.some.inj h
      exact .refl hs
  | cons y ys ih =>
      rw [List.foldlM_cons] at h
      obtain ⟨m, hfirst, hrest⟩ := Option.bind_eq_some_iff.1 h
      have hm := hf s y m hs hfirst
      exact hm.trans (ih hm.proper hrest)

end Narrowed

theorem tightenRow_narrows (htol : tol.feasible = 0) {s s' : Narrowed Rat} (hs : s.box.Proper) {integral : Array Bool}
    {r : Row Rat} (h : tightenRow tol integral s r = some s') : s.box.Narrows s'.box := by
  unfold tightenRow at h
  dsimp only at h
  split at h
  · exact Narrowed.foldlM_narrows (fun _ _ _ hs h => Narrowed.tightenTerm_narrows htol hs h) hs h
  · cases h

/-- **All rows.** What is left of a box that is narrowed by the rows of a program is inside of it and not empty. -/
theorem propagate_narrows (htol : tol.feasible = 0) {p : BoxProgram Rat} {n : Nat} (hb : b.Proper)
    (h : propagate tol p n b = some c) : b.Narrows c := by
  induction n generalizing b with
  | zero =>
      obtain rfl := Option.some.inj h
      exact .refl hb
  | succ n ih =>
      rw [propagate] at h
      obtain ⟨s, hrows, hrest⟩ := Option.bind_eq_some_iff.1 h
      have hs : b.Narrows s.box :=
        Narrowed.foldlM_narrows (s := ⟨false, b⟩) (fun _ _ _ hs h => tightenRow_narrows htol hs h) hb hrows
      split at hrest
      · exact hs.trans (ih hs.proper hrest)
      · obtain rfl := Option.some.inj hrest
        exact hs

end InfluenceDiagrams.Exact
