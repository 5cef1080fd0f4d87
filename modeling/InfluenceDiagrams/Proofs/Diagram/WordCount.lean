import InfluenceDiagrams.Proofs.Diagram.WellFormed

/-!
# `InfluenceDiagrams.Proofs.Diagram.WordCount` — the number of paths in machine words

A diagram counts its paths by multiplying words of 64 bits, and words wrap around. What comes out is the word of the
product of the counts, however the products in between have wrapped. So the number is right if the product fits a
signed word, and it is wrong in all other cases, no matter how small the counts are: sixty-three nodes with two states
are enough.

## Contents
- **`toInt_ofInt_eq_iff`** — the integers that a word keeps.
- **`foldl_words`**, **`foldl_words_eq_numPaths`** — words multiplied one after the other.
- **`Diagram.wrappedNumPaths?_eq`**, **`Diagram.wrappedNumPaths?_eq_some_iff`** — the count.
- **`wordCount_exact_iff`** — the main statement; **`wordCount_wraps`** — a count that is wrong.
-/

namespace InfluenceDiagrams

/-! ## Words -/

theorem fitsSigned_iff {n : Int} : fitsSigned n = true ↔ -2 ^ 63 ≤ n ∧ n < 2 ^ 63 := by
  rw [fitsSigned, Bool.and_eq_true, decide_eq_true_eq, decide_eq_true_eq]
  norm_num

/-- A word keeps an integer that fits it, and no other one. -/
theorem toInt_ofInt_eq_iff {n : Int} : (Int64.ofInt n).toInt = n ↔ fitsSigned n = true := by
  rw [fitsSigned_iff]
  constructor
  · intro h
    rw [← h]
    exact ⟨Int64.le_toInt _, Int64.toInt_lt _⟩
  · rintro ⟨hlow, hhigh⟩
    exact Int64.toInt_ofInt_of_le hlow hhigh

/-- **Multiplying words.** Going through the counts from any word keeps it the word of the product. -/
theorem foldl_words (S : StateCounts) (a : Int) :
    S.foldl (fun w n => w * Int64.ofInt n) (Int64.ofInt a) = Int64.ofInt (a * S.prod) := by
  induction S generalizing a with
  | nil => simp
  | cons n S ih => rw [List.foldl_cons, ← Int64.ofInt_mul, ih, List.prod_cons, mul_assoc]

/-- The words of the counts multiply to the word of the number of paths. -/
theorem foldl_words_eq_numPaths (S : StateCounts) :
    S.foldl (fun w n => w * Int64.ofInt n) 1 = Int64.ofInt (numPaths S .empty) := by
  have hwords := foldl_words S 1
  rwa [one_mul, ← numPaths_empty] at hwords

theorem signedWords?_eq_some {ns : List Int} (h : ∀ n ∈ ns, fitsSigned n = true) : signedWords? ns = some ns := by
  rw [signedWords?, WordKind.ofInts, if_pos (List.all_eq_true.2 h)]

/-- An integer that is too small for signed words fits no unsigned word either. -/
theorem signedWords?_eq_none {ns : List Int} {n : Int} (hn : n ∈ ns) (hsmall : n < -2 ^ 63) :
    signedWords? ns = none := by
  have hsigned : fitsSigned n = false := by
    rw [Bool.eq_false_iff, ne_eq, fitsSigned_iff]
    exact fun hfits => absurd hfits.1 (not_le.2 hsmall)
  have hunsigned : fitsUnsigned n = false := by
    rw [fitsUnsigned, Bool.and_eq_false_iff, decide_eq_false_iff_not]
    exact Or.inl (by omega)
  have hall : ¬ns.all fitsSigned = true := by
    rw [List.all_eq_true]
    intro hfits
    rw [hfits n hn] at hsigned
    cases hsigned
  have hany : (ns.any fun n => !fitsSigned n && !fitsUnsigned n) = true :=
    List.any_eq_true.2 ⟨n, hn, by rw [hsigned, hunsigned]; rfl⟩
  rw [signedWords?, WordKind.ofInts, if_neg hall, if_pos hany]

/-! ## The count of a diagram -/

namespace Diagram

variable {α : Type} {dia : Diagram α}

/-- Where the counts fit words, the number of paths is what their words multiply to. -/
theorem wrappedNumPaths?_eq (h : ∀ n ∈ dia.S, fitsSigned n = true) :
    dia.wrappedNumPaths? = some (dia.S.foldl (fun w n => w * Int64.ofInt n) 1).toInt := by
  rw [wrappedNumPaths?, signedWords?_eq_some h, foldl_words_eq_numPaths, Int64.toInt_ofInt]
  rfl

/-- Where a count is too small for a word, there is no number. -/
theorem wrappedNumPaths?_eq_none {n : Int} (hn : n ∈ dia.S) (hsmall : n < -2 ^ 63) : dia.wrappedNumPaths? = none := by
  rw [wrappedNumPaths?, signedWords?_eq_none hn hsmall, Option.map_none]

/-- The number of paths comes out if every count and their product fit a signed word, and not otherwise. -/
theorem wrappedNumPaths?_eq_some_iff (h : ∀ n ∈ dia.S, n < 2 ^ 63) :
    dia.wrappedNumPaths? = some (numPaths dia.S .empty) ↔
      (∀ n ∈ dia.S, -2 ^ 63 ≤ n) ∧ fitsSigned (numPaths dia.S .empty) = true := by
  by_cases hlow : ∀ n ∈ dia.S, -2 ^ 63 ≤ n
  · rw [and_iff_right hlow, ← toInt_ofInt_eq_iff, wrappedNumPaths?_eq fun n hn => fitsSigned_iff.2 ⟨hlow n hn, h n hn⟩,
      foldl_words_eq_numPaths, Option.some.injEq]
  · refine iff_of_false (fun heq => ?_) fun hboth => hlow hboth.1
    push Not at hlow
    obtain ⟨n, hn, hsmall⟩ := hlow
    rw [wrappedNumPaths?_eq_none hn hsmall] at heq
    cases heq

end Diagram

/-! ## The main statement -/

/-- **The number of paths.** Let every count of a diagram be below `2 ^ 63`. The number of its paths that is computed in
words is that of the words of the counts, multiplied one after the other, if they have words. It is the number of paths
of the state space exactly if the counts and their product fit signed words, whatever is multiplied in between. With
counts that are not negative it is the number of paths that can be listed exactly if there are fewer than `2 ^ 63` of
them. -/
theorem wordCount_exact_iff {α : Type} (dia : Diagram α) (h : ∀ n ∈ dia.S, n < 2 ^ 63) :
    ((∀ n ∈ dia.S, -2 ^ 63 ≤ n) →
      dia.wrappedNumPaths? = some (dia.S.foldl (fun w n => w * Int64.ofInt n) 1).toInt) ∧
    (dia.wrappedNumPaths? = some (numPaths dia.S .empty) ↔
      (∀ n ∈ dia.S, -2 ^ 63 ≤ n) ∧ -2 ^ 63 ≤ numPaths dia.S .empty ∧ numPaths dia.S .empty < 2 ^ 63) ∧
    ((∀ n ∈ dia.S, 0 ≤ n) → numPaths dia.S .empty = ((paths dia.S .empty).length : Int) ∧
      (dia.wrappedNumPaths? = some ((paths dia.S .empty).length : Int) ↔ (paths dia.S .empty).length < 2 ^ 63)) := by
  have hexact := Diagram.wrappedNumPaths?_eq_some_iff h
  rw [fitsSigned_iff] at hexact
  refine ⟨fun hlow => Diagram.wrappedNumPaths?_eq fun n hn => fitsSigned_iff.2 ⟨hlow n hn, h n hn⟩, hexact, ?_⟩
  intro hnonneg
  have hlen := length_paths .empty hnonneg
  refine ⟨hlen.symm, ?_⟩
  rw [hlen, hexact, ← hlen]
  constructor
  · rintro ⟨-, -, hlt⟩
    exact_mod_cast hlt
  · intro hlt
    refine ⟨fun n hn => le_trans (by norm_num) (hnonneg n hn), le_trans (by norm_num) (Int.natCast_nonneg _), ?_⟩
    exact_mod_cast hlt

/-- Decisions that observe nothing, one for each count, without chance and value nodes. -/
def decisionsOnly (S : StateCounts) : Diagram Rat where
  S := S
  C := []
  D := (statesBelow S.length).map fun k => ⟨k, []⟩
  V := []
  P := .tables ⟨[]⟩
  U := .tables [] 0

/-- The product of the first two counts wraps around. The last decision has no alternatives, so that there is no path
after all, and none is counted. -/
theorem wordCount_exact_hopeless :
    (decisionsOnly [2 ^ 40, 2 ^ 40, 0]).wrappedNumPaths? = some (numPaths [2 ^ 40, 2 ^ 40, 0] .empty) :=
  (wordCount_exact_iff (decisionsOnly [2 ^ 40, 2 ^ 40, 0]) (by decide)).2.1.2
    ⟨by decide, by decide, by decide⟩

/-- Two decisions between `2 ^ 32` alternatives each make an accepted diagram with `2 ^ 64` paths, of which none is
counted. -/
theorem wordCount_wraps :
    numPaths (decisionsOnly [2 ^ 32, 2 ^ 32]).S .empty = 2 ^ 64 ∧
      (decisionsOnly [2 ^ 32, 2 ^ 32]).wrappedNumPaths? = some 0 ∧
      ¬∀ dia : Diagram Rat, dia.Accepted → (∀ n ∈ dia.S, 0 ≤ n ∧ n < 2 ^ 63) →
        dia.wrappedNumPaths? = some (numPaths dia.S .empty) := by
  refine ⟨by decide, by decide, fun h => ?_⟩
  have hexact := h (decisionsOnly [2 ^ 32, 2 ^ 32]) (Diagram.accepted_iff.2 (by decide)) (by decide)
  exact absurd hexact (by decide)

end InfluenceDiagrams
