import Mathlib.Data.List.Nodup
import InfluenceDiagrams.Model.Objective
import InfluenceDiagrams.Proofs.Path.Tokens

/-!
# `InfluenceDiagrams.Proofs.Model.Labels` — what the names of variables stand for

A variable of a decision model is named for what it stands for: a decision, a path, the quantile of a tail
objective, or one of the four variables that a tail objective has for a path. The name joins a word and some
numbers by underscores. Since neither words nor numbers have underscores, splitting a name gives its parts back. The
words of two pairs of variables start in the same way, `lambda` and `lambda_bar`, `rho` and `rho_bar`, but the
part that follows is a number in one case and `bar` in the other.

## Contents
- **`Label`, `Label.key`** — what a variable stands for, and its key.
- **`Label.text_injective`** — different labels have different names.
- **`key_choice`, `key_path`, `key_quantile`, `key_row`, `key_anchor`** — the names that the program writes.
- **`tailLabels`**, **`tailVariables_keys`** — the labels of the variables of a tail objective.
-/

namespace InfluenceDiagrams

/-! ## Labels -/

/-- The variables that a tail objective has for a path: indicators of a utility below the quantile and at most at the
quantile, the mass below it and the mass of the tail. -/
inductive RowPart where
  | below
  | atMost
  | strictMass
  | mass
  deriving DecidableEq

/-- The words at the start of a name. -/
def RowPart.words : RowPart → List String
  | below => ["lambda"]
  | atMost => ["lambda", "bar"]
  | strictMass => ["rho"]
  | mass => ["rho", "bar"]

/-- What a variable of a model stands for: a state of a decision node in an information state, a path, the quantile
of a tail objective, a part of it for a path, or the anchor of an objective without terms. -/
inductive Label where
  | choice (d : Node) (index : Path)
  | path (s : Path)
  | quantile (k : Nat)
  | row (part : RowPart) (k : Nat) (s : Path)
  | anchor
  deriving DecidableEq

/-- The parts of the token of a path. The token of the empty path is one empty part. -/
def tokenParts (s : Path) : List String := if s = [] then [""] else s.map toString

namespace Label

/-- The parts of a name. -/
def parts : Label → List String
  | choice d index => "z" :: toString d :: tokenParts index
  | path s => "x" :: tokenParts s
  | quantile k => ["eta", toString k]
  | row part k s => part.words ++ toString k :: tokenParts s
  | anchor => ["", "", "dummy"]

/-- The name. -/
def text (l : Label) : String := "_".intercalate l.parts

/-- The family that the variable is created in: path variables have one of their own. -/
def family : Label → Nat
  | path _ => 1
  | _ => 0

/-- The key of the variable. -/
def key (l : Label) : VarKey := ⟨l.text, l.family⟩

end Label

/-! ## Names determine labels -/

/-- Joining parts without underscores by underscores can be undone. -/
theorem intercalate_inj {ps qs : List String} (hps : ∀ p ∈ ps, '_' ∉ p.toList) (hqs : ∀ q ∈ qs, '_' ∉ q.toList)
    (hp : ps ≠ []) (hq : qs ≠ []) (h : "_".intercalate ps = "_".intercalate qs) : ps = qs := by
  have hsplit : ∀ rs : List String, (∀ r ∈ rs, '_' ∉ r.toList) → rs ≠ [] →
      ("_".intercalate rs).toList.splitOn '_' = rs.map String.toList := by
    intro rs hrs hr
    rw [String.toList_intercalate]
    apply List.splitOn_intercalate
    · intro l hl
      obtain ⟨r, hr, rfl⟩ := List.mem_map.1 hl
      exact hrs r hr
    · simpa using hr
  have hlists := (hsplit ps hps hp).symm.trans (h ▸ hsplit qs hqs hq)
  exact List.map_injective_iff.2 (fun _ _ hab => String.toList_injective hab) hlists

theorem underscore_not_mem_natToString (k : Nat) : '_' ∉ (toString k).toList := underscore_not_mem_toString k

theorem natToString_injective : Function.Injective (toString : Nat → String) := by
  intro a b h
  have hrepr : (a : Int).repr = (b : Int).repr := h
  exact Int.ofNat.inj (Int.repr_injective hrepr)

theorem intToString_injective : Function.Injective (toString : Int → String) := fun _ _ h => Int.repr_injective h

theorem tokenParts_injective : Function.Injective tokenParts := by
  have hne : ∀ s : Path, s ≠ [] → [""] ≠ s.map toString := by
    intro s hs heq
    obtain ⟨k, t, rfl⟩ := List.exists_cons_of_ne_nil hs
    exact toList_toString_ne_nil k (congrArg String.toList (List.cons.inj heq).1).symm
  intro s t h
  unfold tokenParts at h
  split at h
  · rename_i hs
    split at h
    · rename_i ht
      rw [hs, ht]
    · rename_i ht
      exact absurd h (hne t ht)
  · rename_i hs
    split at h
    · exact absurd h.symm (hne s hs)
    · exact List.map_injective_iff.2 intToString_injective h

theorem underscore_not_mem_tokenParts (s : Path) : ∀ p ∈ tokenParts s, '_' ∉ p.toList := by
  unfold tokenParts
  split
  · decide
  · intro p hp
    obtain ⟨k, -, rfl⟩ := List.mem_map.1 hp
    exact underscore_not_mem_toString k

/-- No number is written as the word that tells the second variable of a pair from the first. -/
theorem natToString_ne_bar (k : Nat) : toString k ≠ "bar" := by
  intro h
  have hdigit : 'b' ∈ Nat.toDigits 10 k := by
    rw [← Nat.toList_repr]
    show 'b' ∈ (toString k).toList
    rw [h]
    decide
  exact absurd (Nat.isDigit_of_mem_toDigits (by decide) (by decide) hdigit) (by decide)

namespace Label

theorem parts_ne_nil (l : Label) : l.parts ≠ [] := by
  cases l with
  | row part k s => exact List.append_ne_nil_of_right_ne_nil _ (List.cons_ne_nil _ _)
  | _ => exact List.cons_ne_nil _ _

theorem underscore_not_mem_parts (l : Label) : ∀ p ∈ l.parts, '_' ∉ p.toList := by
  cases l with
  | choice d index =>
      exact List.forall_mem_cons.2 ⟨by decide, List.forall_mem_cons.2
        ⟨underscore_not_mem_toString d, underscore_not_mem_tokenParts index⟩⟩
  | path s => exact List.forall_mem_cons.2 ⟨by decide, underscore_not_mem_tokenParts s⟩
  | quantile k =>
      exact List.forall_mem_cons.2 ⟨by decide, List.forall_mem_singleton.2 (underscore_not_mem_natToString k)⟩
  | row part k s =>
      refine List.forall_mem_append.2 ⟨?_, List.forall_mem_cons.2
        ⟨underscore_not_mem_natToString k, underscore_not_mem_tokenParts s⟩⟩
      cases part <;> decide
  | anchor => decide

/-- The words before the number of a tail objective and what follows it. -/
theorem row_parts_inj {part part' : RowPart} {k k' : Nat} {rest rest' : List String}
    (h : part.words ++ toString k :: rest = part'.words ++ toString k' :: rest') :
    part = part' ∧ k = k' ∧ rest = rest' := by
  have hsame : ∀ {words : List String}, words ++ toString k :: rest = words ++ toString k' :: rest' →
      k = k' ∧ rest = rest' := by
    intro words heq
    obtain ⟨hk, hrest⟩ := List.cons.inj (List.append_cancel_left heq)
    exact ⟨natToString_injective hk, hrest⟩
  -- different words differ in the first one, or the second one stands against a number
  cases part <;> cases part'
  all_goals first
    | exact ⟨rfl, hsame h⟩
    | exact absurd (List.cons.inj h).1 (by decide)
    | exact absurd (List.cons.inj (List.cons.inj h).2).1 (natToString_ne_bar k)
    | exact absurd (List.cons.inj (List.cons.inj h).2).1.symm (natToString_ne_bar k')

/-- The first word tells the kinds of variables apart. -/
theorem parts_injective : Function.Injective parts := by
  intro a b h
  have hrow : ∀ (part : RowPart) (k : Nat) (rest : List String) (word : String), word ∉ ["lambda", "rho"] →
      ∀ others, part.words ++ toString k :: rest ≠ word :: others := by
    intro part k rest word hword others heq
    cases part <;> exact hword (by simp [(List.cons.inj heq).1.symm])
  cases a with
  | choice d index =>
      cases b with
      | choice d' index' =>
          obtain ⟨hd, hindex⟩ := List.cons.inj (List.cons.inj h).2
          rw [intToString_injective hd, tokenParts_injective hindex]
      | row part k s => exact absurd h.symm (hrow part k _ _ (by decide) _)
      | _ => exact absurd (List.cons.inj h).1 (by decide)
  | path s =>
      cases b with
      | path t => rw [tokenParts_injective (List.cons.inj h).2]
      | row part k s => exact absurd h.symm (hrow part k _ _ (by decide) _)
      | _ => exact absurd (List.cons.inj h).1 (by decide)
  | quantile k =>
      cases b with
      | quantile k' => rw [natToString_injective (List.cons.inj (List.cons.inj h).2).1]
      | row part k s => exact absurd h.symm (hrow part k _ _ (by decide) _)
      | _ => exact absurd (List.cons.inj h).1 (by decide)
  | row part k s =>
      cases b with
      | row part' k' t =>
          obtain ⟨rfl, rfl, hs⟩ := row_parts_inj h
          rw [tokenParts_injective hs]
      | _ => exact absurd h (hrow part k _ _ (by decide) _)
  | anchor =>
      cases b with
      | anchor => rfl
      | row part k s => exact absurd h.symm (hrow part k _ _ (by decide) _)
      | _ => exact absurd (List.cons.inj h).1 (by decide)

/-- **Different labels have different names.** -/
theorem text_injective : Function.Injective text := by
  intro a b h
  exact parts_injective (intercalate_inj (underscore_not_mem_parts a) (underscore_not_mem_parts b) (parts_ne_nil a)
    (parts_ne_nil b) h)

/-! ## The names of the program -/

theorem intercalate_tokenParts (s : Path) : "_".intercalate (tokenParts s) = pathToken s := by
  unfold tokenParts pathToken
  split
  · rename_i hs
    rw [hs]
    rfl
  · rfl

theorem tokenParts_ne_nil (s : Path) : tokenParts s ≠ [] := by
  unfold tokenParts
  split
  · exact List.cons_ne_nil _ _
  · rename_i hs
    simpa using hs

variable {α : Type} [Scalar α]

theorem key_choice (d : Node) (index : Path) : (choice d index).key = (decisionVariable (α := α) 0 d index).key := by
  have htext : (choice d index).text = "z_" ++ toString d ++ "_" ++ pathToken index := by
    rw [text, parts, String.intercalate_cons_of_ne_nil (List.cons_ne_nil _ _),
      String.intercalate_cons_of_ne_nil (tokenParts_ne_nil index), intercalate_tokenParts]
    simp only [← String.append_assoc]
    rfl
  rw [key, htext]
  rfl

theorem key_path (s : Path) : (path s).key = (pathVariable (α := α) 1 s).key := by
  rw [key, text, parts, String.intercalate_cons_of_ne_nil (tokenParts_ne_nil s), intercalate_tokenParts]
  rfl

theorem key_quantile (k : Nat) : (quantile k).key = ⟨"eta_" ++ toString k, 0⟩ := by
  rw [key, text, parts, String.intercalate_cons_of_ne_nil (List.cons_ne_nil _ _)]
  rfl

theorem key_row (part : RowPart) (k : Nat) (s : Path) :
    (row part k s).key = ⟨"_".intercalate part.words ++ "_" ++ (toString k ++ "_" ++ pathToken s), 0⟩ := by
  have hwords : part.words ≠ [] := by cases part <;> exact List.cons_ne_nil _ _
  rw [key, text, parts, String.intercalate_append_of_ne_nil hwords (List.cons_ne_nil _ _),
    String.intercalate_cons_of_ne_nil (tokenParts_ne_nil s), intercalate_tokenParts]
  rfl

theorem key_anchor : anchor.key = (Problem.anchor (α := α)).key := by
  have htext : anchor.text = "__dummy" := by decide
  rw [key, htext]
  rfl

end Label

/-! ## The variables of a tail objective -/

variable {α : Type}

/-- The variables of a tail objective. -/
def TailVariables.vars (t : TailVariables α) : List (Variable α) :=
  t.quantile :: t.rows.flatMap fun row => [row.below, row.atMost, row.strictMass, row.mass]

/-- The labels of the variables of a tail objective with a number over some paths. -/
def tailLabels (k : Nat) (ss : List Path) : List Label :=
  .quantile k :: ss.flatMap fun s =>
    [.row .below k s, .row .atMost k s, .row .strictMass k s, .row .mass k s]

theorem tailRow_keys [Scalar α] (k : Nat) (scale : α) (s : Path) :
    (tailRow k scale s).below.key = (Label.row .below k s).key ∧
    (tailRow k scale s).atMost.key = (Label.row .atMost k s).key ∧
    (tailRow k scale s).strictMass.key = (Label.row .strictMass k s).key ∧
    (tailRow k scale s).mass.key = (Label.row .mass k s).key := by
  simp only [Label.key_row]
  exact ⟨rfl, rfl, rfl, rfl⟩

/-- The number in the names of a tail objective. -/
def Label.number? : Label → Option Nat
  | quantile k => some k
  | row _ k _ => some k
  | _ => none

theorem number?_of_mem_tailLabels {k : Nat} {ss : List Path} {l : Label} (h : l ∈ tailLabels k ss) :
    l.number? = some k := by
  rcases List.mem_cons.1 h with rfl | h
  · rfl
  · obtain ⟨s, -, h⟩ := List.mem_flatMap.1 h
    simp only [List.mem_cons, List.not_mem_nil, or_false] at h
    rcases h with rfl | rfl | rfl | rfl <;> rfl

theorem tailLabels_nodup {k : Nat} {ss : List Path} (h : ss.Nodup) : (tailLabels k ss).Nodup := by
  rw [tailLabels, List.nodup_cons]
  constructor
  · intro hmem
    obtain ⟨s, -, hs⟩ := List.mem_flatMap.1 hmem
    simp at hs
  · rw [List.nodup_flatMap]
    refine ⟨fun s _ => by simp, h.imp ?_⟩
    intro s t hne l hs ht
    simp only [List.mem_cons, List.not_mem_nil, or_false] at hs ht
    rcases hs with rfl | rfl | rfl | rfl <;> simp [hne] at ht

/-- The variables that the program creates for a tail objective are labelled. -/
theorem tailVariables_keys [Scalar α] (k : Nat) (scale low high level : α) (ss : List Path) :
    (TailVariables.vars ⟨level, .real ("eta_" ++ toString k) 0 low high, ss.map (tailRow k scale)⟩).map Variable.key =
      (tailLabels k ss).map Label.key := by
  rw [TailVariables.vars, tailLabels, List.map_cons, List.map_cons, List.flatMap_map, List.map_flatMap,
    List.map_flatMap, Label.key_quantile]
  refine congrArg (List.cons _) (List.flatMap_congr fun s _ => ?_)
  obtain ⟨hbelow, hatMost, hstrict, hmass⟩ := tailRow_keys k scale s
  simp only [List.map_cons, List.map_nil, hbelow, hatMost, hstrict, hmass]

end InfluenceDiagrams
