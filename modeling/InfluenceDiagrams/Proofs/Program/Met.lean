import Mathlib.Data.List.Nodup
import InfluenceDiagrams.Proofs.Path.Grouping
import InfluenceDiagrams.Proofs.Program.Evaluation

/-!
# `InfluenceDiagrams.Proofs.Program.Met` — the variables that a problem has met

A problem meets the variables of a constraint when it is added, and those of the objective when the variables
are asked for. No variable is met twice. Values are given out by name, so that a variable is known there if
one of its name has been met, and no value is lost as long as the variables that were met have distinct names.

## Contents
- **`mem_met_meet`, `met_subset_meet`, `exists_met_meet`** — what has been met after a meeting.
- **`key_mem_met_meet`, `key_mem_met_observe`** — the same for keys.
- **`meet_keys_nodup`** — no variable is met twice.
- **`mem_vars_withAnchor`, `mem_vars_afterAnchor`** — what the anchor adds to an objective.
- **`Problem.listed`**, **`mem_listed`** — the variables that a problem has when they are listed.
- **`listed_subset_question`, `mem_listed_question`** — the same after a question to the solver.
- **`Keyed.ofPairs_eq_self`** — a list of pairs with distinct keys is kept as it is.
-/

namespace InfluenceDiagrams

namespace Problem

variable {α : Type} {p : Problem α} {u v : Variable α} {vs : List (Variable α)}

theorem mem_met_meet (h : v ∈ (p.meet vs).met) : v ∈ p.met ∨ v ∈ vs := by
  unfold meet at h
  dsimp only at h
  generalize p.met = met at h ⊢
  induction vs generalizing met with
  | nil => exact Or.inl h
  | cons w vs ih =>
      rw [List.foldl_cons] at h
      rcases ih _ h with h | h
      · split at h
        · exact Or.inl h
        · rcases List.mem_append.1 h with h | h
          · exact Or.inl h
          · exact Or.inr (List.mem_cons.2 (Or.inl (List.mem_singleton.1 h)))
      · exact Or.inr (List.mem_cons_of_mem _ h)

/-- A variable once met stays. -/
theorem met_subset_meet (p : Problem α) (vs : List (Variable α)) : p.met ⊆ (p.meet vs).met := by
  unfold meet
  dsimp only
  generalize p.met = met
  induction vs generalizing met with
  | nil => exact List.Subset.refl _
  | cons w vs ih =>
      rw [List.foldl_cons]
      refine List.Subset.trans ?_ (ih _)
      split
      · exact List.Subset.refl _
      · exact List.subset_append_left _ _

theorem exists_met_meet (h : v ∈ vs) : ∃ u ∈ (p.meet vs).met, u.key = v.key := by
  unfold meet
  dsimp only
  generalize p.met = met
  induction vs generalizing met with
  | nil => cases h
  | cons w vs ih =>
      rw [List.foldl_cons]
      rcases List.mem_cons.1 h with rfl | h
      · -- it is met here, or was met before, and stays
        have hmet : ∃ u ∈ (if met.contains v then met else met ++ [v]), u.key = v.key := by
          split
          · rename_i hcontains
            obtain ⟨u, hu, hkey⟩ := List.contains_iff_exists_mem_beq.1 hcontains
            exact ⟨u, hu, (Variable.beq_iff.1 hkey).symm⟩
          · exact ⟨v, List.mem_append_right _ (List.mem_singleton.2 rfl), rfl⟩
        obtain ⟨u, hu, hkey⟩ := hmet
        exact ⟨u, met_subset_meet { p with met := if met.contains v then met else met ++ [v] } vs hu, hkey⟩
      · exact ih h _

theorem mem_met_observe (h : v ∈ p.observe.met) : v ∈ p.met ∨ ∃ e, p.objective = some e ∧ v ∈ e.vars := by
  unfold observe at h
  split at h
  · rename_i e he
    exact (mem_met_meet h).imp_right fun hv => ⟨e, he, hv⟩
  · exact Or.inl h

theorem met_subset_observe (p : Problem α) : p.met ⊆ p.observe.met := by
  unfold observe
  split
  · exact met_subset_meet _ _
  · exact List.Subset.refl _

/-- What has been met after a meeting, by keys. -/
theorem key_mem_met_meet {k : VarKey} :
    k ∈ (p.meet vs).met.map Variable.key ↔ k ∈ p.met.map Variable.key ∨ k ∈ vs.map Variable.key := by
  constructor
  · intro h
    obtain ⟨v, hv, rfl⟩ := List.mem_map.1 h
    exact (mem_met_meet hv).imp List.mem_map_of_mem List.mem_map_of_mem
  · rintro (h | h)
    · exact List.map_subset _ (met_subset_meet p vs) h
    · obtain ⟨v, hv, rfl⟩ := List.mem_map.1 h
      obtain ⟨u, hu, hkey⟩ := exists_met_meet (p := p) hv
      exact List.mem_map.2 ⟨u, hu, hkey⟩

theorem key_mem_met_observe {k : VarKey} :
    k ∈ p.observe.met.map Variable.key ↔
      k ∈ p.met.map Variable.key ∨ ∃ e, p.objective = some e ∧ k ∈ e.vars.map Variable.key := by
  unfold observe
  cases p.objective with
  | none => simp
  | some e =>
      rw [key_mem_met_meet]
      simp [LinearExpr.vars]

/-- No variable is met twice. -/
theorem meet_keys_nodup (h : (p.met.map Variable.key).Nodup) (vs : List (Variable α)) :
    ((p.meet vs).met.map Variable.key).Nodup := by
  unfold meet
  dsimp only
  generalize p.met = met at h ⊢
  induction vs generalizing met with
  | nil => exact h
  | cons w vs ih =>
      rw [List.foldl_cons]
      apply ih
      split
      · exact h
      · rename_i hnew
        rw [List.map_append, List.map_singleton, List.nodup_append]
        refine ⟨h, List.nodup_singleton _, ?_⟩
        intro k hk k' hk' heq
        obtain ⟨u, hu, rfl⟩ := List.mem_map.1 hk
        rw [List.mem_singleton.1 hk'] at heq
        exact hnew (List.contains_iff_exists_mem_beq.2 ⟨u, hu, Variable.beq_iff.2 heq.symm⟩)

theorem observe_keys_nodup (h : (p.met.map Variable.key).Nodup) : (p.observe.met.map Variable.key).Nodup := by
  unfold observe
  split
  · exact meet_keys_nodup h _
  · exact h

/-! ## The anchor -/

section Anchor

variable [Scalar α] {e : LinearExpr α} {k : VarKey}

theorem met_withAnchor (p : Problem α) : p.withAnchor.met = p.met := by
  unfold withAnchor
  split <;> rfl

/-- To an objective no other variable is added than the anchor. -/
theorem mem_vars_withAnchor (he : p.withAnchor.objective = some e) (hv : v ∈ e.vars) :
    (∃ f, p.objective = some f ∧ v ∈ f.vars) ∨ v = anchor := by
  unfold withAnchor at he
  split at he
  · obtain rfl := Option.some.inj he
    rcases LinearExpr.vars_addTerm hv with hv | rfl
    · cases hobjective : p.objective with
      | none =>
          rw [hobjective] at hv
          cases hv
      | some f =>
          rw [hobjective] at hv
          exact Or.inl ⟨f, rfl, hv⟩
    · exact Or.inr rfl
  · exact Or.inl ⟨e, he, hv⟩

theorem mem_vars_afterAnchor {objective : Option (LinearExpr α)} (he : (p.afterAnchor objective).objective = some e)
    (hv : v ∈ e.vars) : (∃ f, objective = some f ∧ v ∈ f.vars) ∨ v = anchor := by
  obtain ⟨f, hf, rfl⟩ := Option.map_eq_some_iff.1 he
  split at hv
  · rcases LinearExpr.vars_addTerm hv with hv | rfl
    · rcases LinearExpr.vars_addTerm hv with hv | rfl
      · exact Or.inl ⟨f, hf, hv⟩
      · exact Or.inr rfl
    · exact Or.inr rfl
  · exact Or.inl ⟨f, hf, hv⟩

end Anchor

/-! ## Variables that are listed -/

/-- The keys of the variables that the problem has when they are listed. -/
def listed (p : Problem α) : List VarKey := p.observe.met.map Variable.key

theorem mem_listed {k : VarKey} :
    k ∈ p.listed ↔ k ∈ p.met.map Variable.key ∨ ∃ e, p.objective = some e ∧ k ∈ e.vars.map Variable.key :=
  key_mem_met_observe

theorem listed_subset_of {p q : Problem α} (hmet : p.met.map Variable.key ⊆ q.met.map Variable.key)
    (hobjective : q.objective = p.objective) : p.listed ⊆ q.listed := by
  intro k hk
  rw [mem_listed] at hk ⊢
  rw [hobjective]
  exact hk.imp_left fun hk => hmet hk

theorem listed_subset_observe (p : Problem α) : p.listed ⊆ p.observe.listed := by
  intro k hk
  exact mem_listed.2 (Or.inl hk)

section Questions

variable [Scalar α]

/-- The variables that are listed have been met when a question has been put. -/
theorem listed_subset_question (p : Problem α) : p.listed ⊆ p.withAnchor.observe.met.map Variable.key := by
  intro k hk
  rw [key_mem_met_observe, met_withAnchor]
  refine (mem_listed.1 hk).imp_right ?_
  rintro ⟨e, he, hk⟩
  unfold withAnchor
  split
  · refine ⟨_, rfl, ?_⟩
    rw [he]
    exact LinearExpr.keys_addTerm.2 (Or.inl hk)
  · exact ⟨e, he, hk⟩

/-- After a question no other variable is listed than before, except for the anchor. -/
theorem mem_listed_question {k : VarKey} (hk : k ∈ (p.withAnchor.observe.afterAnchor p.objective).listed) :
    k ∈ p.listed ∨ k = (anchor (α := α)).key := by
  rcases mem_listed.1 hk with hk | ⟨e, he, hk⟩
  · obtain ⟨v, hv, rfl⟩ := List.mem_map.1 hk
    rcases mem_met_observe hv with hv | ⟨e, he, hv⟩
    · rw [met_withAnchor] at hv
      exact Or.inl (mem_listed.2 (Or.inl (List.mem_map_of_mem hv)))
    · rcases mem_vars_withAnchor he hv with ⟨f, hf, hv⟩ | rfl
      · exact Or.inl (mem_listed.2 (Or.inr ⟨f, hf, List.mem_map_of_mem hv⟩))
      · exact Or.inr rfl
  · obtain ⟨v, hv, rfl⟩ := List.mem_map.1 hk
    rcases mem_vars_afterAnchor he hv with ⟨f, hf, hv⟩ | rfl
    · exact Or.inl (mem_listed.2 (Or.inr ⟨f, hf, List.mem_map_of_mem hv⟩))
    · exact Or.inr rfl

end Questions

end Problem

/-! ## Values by name -/

/-- A list of pairs with distinct keys is kept as it is. -/
theorem Keyed.ofPairs_eq_self {κ β : Type} [BEq κ] [LawfulBEq κ] {pairs : List (κ × β)}
    (h : (pairs.map Prod.fst).Nodup) : ofPairs pairs = pairs := by
  -- the last pair is appended, since its key is new
  induction pairs using List.reverseRecOn with
  | nil => rfl
  | append_singleton pairs p ih =>
      rw [List.map_append, List.map_singleton, List.nodup_append] at h
      have hkept : pairs.foldl (fun acc p => upsert p.1 p.2 (fun _ => p.2) acc) [] = pairs := ih h.1
      rw [ofPairs, List.foldl_append, hkept, List.foldl_cons, List.foldl_nil]
      apply upsert_of_not_mem
      intro hmem
      exact h.2.2 _ hmem _ (List.mem_singleton.2 rfl) rfl

end InfluenceDiagrams
