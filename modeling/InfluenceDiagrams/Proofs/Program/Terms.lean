import InfluenceDiagrams.Proofs.Program.Evaluation

/-!
# `InfluenceDiagrams.Proofs.Program.Terms` — the terms of an expression

A variable that does not occur in an expression comes in at the end of its terms, with the coefficient that it is added
with. Nothing is computed then, so that whatever the numbers are, the terms of a sum of distinct variables, and of its
comparison with a multiple of one more variable, can be written down.

## Contents
- **`terms_addTerm`, `terms_foldl_addTerm`, `terms_sumVars`** — variables that are new.
- **`terms_multiple`** — a multiple of a variable has a term unless it is zero times the variable.
- **`Constraint.terms_atMost`** — the comparison of a sum of variables with a multiple.
- **`Constraint.coefficient?`** — the coefficient of a variable that occurs; **`coefficient?_of_mem`,
  `coefficient?_of_not_mem`** — in such a comparison.
-/

namespace InfluenceDiagrams

variable {α : Type} [Scalar α]

namespace LinearExpr

variable {e : LinearExpr α} {v : Variable α} {vs : List (Variable α)} {c : α}

theorem terms_addTerm {t : Variable α × α} (h : t.1.key ∉ e.keys) : (e.addTerm t).terms = e.terms ++ [t] := by
  obtain ⟨terms, constant⟩ := e
  change t.1.key ∉ (terms.map Prod.fst).map Variable.key at h
  change Keyed.upsert t.1 t.2 (· + t.2) terms = terms ++ [t]
  induction terms with
  | nil => rfl
  | cons u terms ih =>
      rw [List.map_cons, List.map_cons, List.mem_cons, not_or] at h
      have hne : ¬(u.1 == t.1) = true := fun heq => h.1 (Variable.beq_iff.1 heq).symm
      rw [Keyed.upsert, if_neg hne, ih h.2]
      rfl

theorem terms_foldl_addTerm {β : Type} (f : β → Variable α × α) {xs : List β}
    (hnodup : (xs.map fun x => (f x).1.key).Nodup) :
    ∀ {e : LinearExpr α}, (∀ x ∈ xs, (f x).1.key ∉ e.keys) →
      (xs.foldl (fun e x => e.addTerm (f x)) e).terms = e.terms ++ xs.map f := by
  induction xs with
  | nil => exact fun _ => (List.append_nil _).symm
  | cons x xs ih =>
      intro e hnew
      obtain ⟨hx, hxs⟩ := List.forall_mem_cons.1 hnew
      rw [List.map_cons, List.nodup_cons] at hnodup
      have hnew' : ∀ y ∈ xs, (f y).1.key ∉ (e.addTerm (f x)).keys := by
        intro y hy hmem
        rcases keys_addTerm.1 hmem with hmem | heq
        · exact hxs y hy hmem
        · exact hnodup.1 (List.mem_map.2 ⟨y, hy, heq⟩)
      rw [List.foldl_cons, ih hnodup.2 hnew', terms_addTerm hx, List.append_assoc]
      rfl

theorem terms_sumVars (hnodup : (vs.map Variable.key).Nodup) : (sumVars vs).terms = vs.map fun v => (v, 1) :=
  terms_foldl_addTerm (fun v => (v, 1)) hnodup fun _ _ => List.not_mem_nil

theorem terms_multiple (h : multiple c v = .ok e) : e.terms = if (c == 0) = true then [] else [(v, c * 1)] := by
  unfold multiple scale at h
  split at h
  · cases h
  · split at h
    · rename_i hzero
      rw [if_pos hzero, ← Except.ok.inj h]
      rfl
    · rename_i hne
      rw [if_neg hne, ← Except.ok.inj h]
      rfl

end LinearExpr

namespace Constraint

variable {e : LinearExpr α} {u v : Variable α} {vs : List (Variable α)} {c : α}

theorem terms_atMost (hnodup : (vs.map Variable.key).Nodup) (hnew : u.key ∉ vs.map Variable.key)
    (h : LinearExpr.multiple c u = .ok e) :
    (atMost (.sumVars vs) e).terms =
      (vs.map fun v => (v, 1)) ++ if (c == 0) = true then [] else [(u, -(c * 1))] := by
  have hterms := LinearExpr.terms_multiple h
  have hkeys : u.key ∉ (LinearExpr.sumVars vs).keys := fun hmem => hnew (LinearExpr.keys_sumVars.1 hmem)
  change (e.terms.foldl _ (_ : LinearExpr α)).terms = _
  rw [LinearExpr.terms_foldl_addTerm fun t : Variable α × α => (t.1, -t.2)]
  · rw [hterms]
    show (LinearExpr.sumVars vs).terms ++ _ = _
    rw [LinearExpr.terms_sumVars hnodup]
    split <;> rfl
  · rw [hterms]
    split
    · exact List.nodup_nil
    · exact List.nodup_singleton _
  · rw [hterms]
    intro t ht
    split at ht
    · exact absurd ht List.not_mem_nil
    · rw [List.mem_singleton.1 ht]
      exact hkeys

/-- The coefficient of a variable, if it occurs. -/
def coefficient? (c : Constraint α) (v : Variable α) : Option α := Keyed.find? v c.terms

section Coefficients

variable {k : Constraint α} {rest : List (Variable α × α)} (h : k.terms = (vs.map fun v => (v, 1)) ++ rest)

include h

theorem coefficient?_of_mem (hv : v.key ∈ vs.map Variable.key) : k.coefficient? v = some 1 := by
  rw [coefficient?, h]
  clear h
  induction vs with
  | nil => exact absurd hv List.not_mem_nil
  | cons w vs ih =>
      rw [List.map_cons, List.cons_append, Keyed.find?]
      split
      · rfl
      · rename_i hne
        rw [List.map_cons, List.mem_cons] at hv
        exact ih (hv.resolve_left fun heq => hne (Variable.beq_iff.2 heq.symm))

theorem coefficient?_of_not_mem (hv : v.key ∉ vs.map Variable.key) : k.coefficient? v = Keyed.find? v rest := by
  rw [coefficient?, h]
  clear h
  induction vs with
  | nil => rfl
  | cons w vs ih =>
      rw [List.map_cons, List.mem_cons, not_or] at hv
      rw [List.map_cons, List.cons_append, Keyed.find?, if_neg fun heq => hv.1 (Variable.beq_iff.1 heq).symm, ih hv.2]

end Coefficients
end Constraint
end InfluenceDiagrams
