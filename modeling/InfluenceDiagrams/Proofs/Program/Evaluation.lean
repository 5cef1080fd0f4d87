import Mathlib.Algebra.BigOperators.Ring.List
import Mathlib.Algebra.Order.Ring.Rat
import Mathlib.Tactic.Linarith
import InfluenceDiagrams.Program.Problem
import InfluenceDiagrams.Proofs.Path.Enumeration

/-!
# `InfluenceDiagrams.Proofs.Program.Evaluation` — values of linear expressions

In exact arithmetic the value of an expression at a point is its constant and the sum of its terms, so that
the operations on expressions are those on values. Merging the terms of one variable does not show in the
value, and keeps the variable: of an expression only its value and the keys of its variables matter.

## Contents
- **`eval_addTerm`, `eval_add`, `eval_sub`, `eval_scaled`, `eval_sumVars`, `eval_sum`** — values.
- **`LinearExpr.keys`**, **`keys_sub`**, **`vars_sub`** — the variables that occur; `keys_nodup_sub`, `keys_nodup_sum` — each once.
- **`LinearExpr.Within`** — only some variables occur.
- **`holds_atMost`, `holds_atLeast`, `holds_equals`** — constraints compare values.
- **`Problem.feasible_iff`** — feasible points, when the variables have distinct keys.
- **`Problem.feasible_append`** — feasible points of a problem in two parts.
-/

namespace InfluenceDiagrams

theorem Variable.beq_iff {α : Type} {v w : Variable α} : (v == w) = true ↔ v.key = w.key := by
  show (v.key == w.key) = true ↔ _
  exact beq_iff_eq

namespace LinearExpr

/-! ## Values -/

section Values

variable (point : VarKey → Rat)

/-- The value of some terms. -/
def termSum (terms : List (Variable Rat × Rat)) : Rat := (terms.map fun t => point t.1.key * t.2).sum

theorem eval_eq (e : LinearExpr Rat) : e.eval point = e.constant + termSum point e.terms := by
  unfold eval termSum
  -- the fold starts at the constant, which changes along the list
  generalize e.constant = a
  induction e.terms generalizing a with
  | nil => simp
  | cons t terms ih => rw [List.foldl_cons, ih, List.map_cons, List.sum_cons, add_assoc]

@[simp] theorem eval_zero : (zero : LinearExpr Rat).eval point = 0 := rfl

@[simp] theorem eval_ofVar (v : Variable Rat) : (ofVar v).eval point = point v.key := by
  rw [eval_eq]
  simp [ofVar, termSum]

theorem termSum_upsert (v : Variable Rat) (c : Rat) (terms : List (Variable Rat × Rat)) :
    termSum point (Keyed.upsert v c (· + c) terms) = termSum point terms + point v.key * c := by
  unfold termSum
  induction terms with
  | nil => simp [Keyed.upsert]
  | cons t terms ih =>
      obtain ⟨w, d⟩ := t
      rw [Keyed.upsert]
      -- a variable with this key is there already and its coefficient grows, or the search goes on
      by_cases hw : w.key = v.key
      · rw [if_pos (Variable.beq_iff.2 hw), List.map_cons, List.map_cons, List.sum_cons,
          List.sum_cons, hw]
        ring
      · rw [if_neg fun h => hw (Variable.beq_iff.1 h), List.map_cons, List.map_cons,
          List.sum_cons, List.sum_cons, ih]
        ring

@[simp] theorem eval_addTerm (e : LinearExpr Rat) (t : Variable Rat × Rat) :
    (e.addTerm t).eval point = e.eval point + point t.1.key * t.2 := by
  rw [eval_eq, eval_eq, addTerm]
  show e.constant + termSum point (Keyed.upsert t.1 t.2 (· + t.2) e.terms) = _
  rw [termSum_upsert, add_assoc]

theorem eval_foldl_addTerm {β : Type} (f : β → Variable Rat × Rat) (xs : List β) (e : LinearExpr Rat) :
    (xs.foldl (fun e x => e.addTerm (f x)) e).eval point =
      e.eval point + (xs.map fun x => point (f x).1.key * (f x).2).sum := by
  induction xs generalizing e with
  | nil => simp
  | cons x xs ih => rw [List.foldl_cons, ih, eval_addTerm, List.map_cons, List.sum_cons, add_assoc]

@[simp] theorem eval_add (e f : LinearExpr Rat) : (e.add f).eval point = e.eval point + f.eval point := by
  refine (eval_foldl_addTerm point (fun t : Variable Rat × Rat => t) f.terms _).trans ?_
  rw [eval_eq, eval_eq point e, eval_eq point f]
  simp only [termSum]
  ring

@[simp] theorem eval_sub (e f : LinearExpr Rat) : (e.sub f).eval point = e.eval point - f.eval point := by
  refine (eval_foldl_addTerm point (fun t : Variable Rat × Rat => (t.1, -t.2)) f.terms _).trans ?_
  rw [eval_eq, eval_eq point e, eval_eq point f]
  have hneg : (f.terms.map fun t => point t.1.key * -t.2).sum = -termSum point f.terms := by
    rw [termSum, List.sum_neg, List.map_map]
    simp only [mul_neg, Function.comp_def]
  rw [hneg]
  ring

/-- A multiple of an expression, as a total function. -/
def scaled (c : Rat) (e : LinearExpr Rat) : LinearExpr Rat :=
  if c = 0 then zero else ⟨e.terms.map fun t => (t.1, c * t.2), c * e.constant⟩

theorem scale_eq (c : Rat) (e : LinearExpr Rat) : scale c e = .ok (scaled c e) := by
  unfold scale scaled
  -- every rational number is finite
  rw [if_neg (show ¬(!Scalar.finite c) = true from Bool.false_ne_true)]
  by_cases hc : c = 0
  · rw [if_pos (beq_iff_eq.2 hc), if_pos hc]
  · rw [if_neg (by rwa [beq_iff_eq]), if_neg hc]

theorem multiple_eq (c : Rat) (v : Variable Rat) : multiple c v = .ok (scaled c (ofVar v)) :=
  scale_eq c _

@[simp] theorem eval_scaled (c : Rat) (e : LinearExpr Rat) : (scaled c e).eval point = c * e.eval point := by
  unfold scaled
  by_cases hc : c = 0
  · rw [if_pos hc, hc, zero_mul, eval_zero]
  · rw [if_neg hc, eval_eq, eval_eq, mul_add]
    simp only [termSum, List.map_map, ← List.sum_map_mul_left]
    congr 2
    apply List.map_congr_left
    intro t _
    show point t.1.key * (c * t.2) = c * (point t.1.key * t.2)
    ring

/-- An expression with a number taken away, as a total function. -/
def lowered (e : LinearExpr Rat) (c : Rat) : LinearExpr Rat := { e with constant := e.constant - c }

@[simp] theorem eval_lowered (e : LinearExpr Rat) (c : Rat) : (e.lowered c).eval point = e.eval point - c := by
  rw [eval_eq, eval_eq, lowered]
  ring

@[simp] theorem eval_number (c : Rat) : (⟨[], c⟩ : LinearExpr Rat).eval point = c := rfl

@[simp] theorem eval_sumVars (vs : List (Variable Rat)) :
    (sumVars vs).eval point = (vs.map fun v => point v.key).sum := by
  rw [sumVars, eval_foldl_addTerm point fun v => (v, (1 : Rat)), eval_zero, zero_add]
  simp only [mul_one]

@[simp] theorem eval_sum (es : List (LinearExpr Rat)) :
    (sum es).eval point = (es.map fun e => e.eval point).sum := by
  have h : ∀ f : LinearExpr Rat, (es.foldl add f).eval point =
      f.eval point + (es.map fun e => e.eval point).sum := by
    induction es with
    | nil => intro f; simp
    | cons e es ih => intro f; rw [List.foldl_cons, ih, eval_add, List.map_cons, List.sum_cons, add_assoc]
  rw [sum, h, eval_zero, zero_add]

theorem combination_eq (terms : List (Rat × Variable Rat)) :
    combination terms = .ok (sum (terms.map fun t => scaled t.1 (ofVar t.2))) := by
  have h : (terms.mapM fun t => multiple t.1 t.2) =
      (Except.ok (terms.map fun t => scaled t.1 (ofVar t.2)) : Except (Fault Rat) _) :=
    mapM_eq_pure fun t _ => multiple_eq t.1 t.2
  rw [combination, h]
  rfl

end Values

/-! ## Variables -/

section Variables

variable {α : Type} [Scalar α]

/-- The keys of the variables that occur. -/
def keys (e : LinearExpr α) : List VarKey := e.vars.map Variable.key

@[simp] theorem vars_ofVar (v : Variable α) : (ofVar v).vars = [v] := rfl

theorem vars_addTerm {e : LinearExpr α} {t : Variable α × α} {v : Variable α}
    (hv : v ∈ (e.addTerm t).vars) : v ∈ e.vars ∨ v = t.1 := by
  unfold addTerm vars at *
  rw [Keyed.keys_upsert] at hv
  split at hv
  · exact Or.inl hv
  · rw [List.mem_append, List.mem_singleton] at hv
    exact hv

theorem keys_addTerm {e : LinearExpr α} {t : Variable α × α} {k : VarKey} :
    k ∈ (e.addTerm t).keys ↔ k ∈ e.keys ∨ k = t.1.key := by
  unfold keys addTerm vars
  rw [Keyed.keys_upsert]
  split
  · rename_i hkey
    refine ⟨Or.inl, ?_⟩
    rintro (hk | rfl)
    · exact hk
    · obtain ⟨p, hp, hpt⟩ := List.any_eq_true.1 hkey
      rw [← Variable.beq_iff.1 hpt]
      exact List.mem_map_of_mem (List.mem_map_of_mem hp)
  · rw [List.map_append, List.mem_append, List.map_singleton, List.mem_singleton]

theorem vars_foldl_addTerm {β : Type} (f : β → Variable α × α) (xs : List β) {e : LinearExpr α}
    {v : Variable α} (hv : v ∈ (xs.foldl (fun e x => e.addTerm (f x)) e).vars) :
    v ∈ e.vars ∨ ∃ x ∈ xs, v = (f x).1 := by
  induction xs generalizing e with
  | nil => exact Or.inl hv
  | cons x xs ih =>
      rcases ih hv with hv | ⟨y, hy, rfl⟩
      · rcases vars_addTerm hv with hv | rfl
        · exact Or.inl hv
        · exact Or.inr ⟨x, List.mem_cons_self, rfl⟩
      · exact Or.inr ⟨y, List.mem_cons_of_mem _ hy, rfl⟩

theorem keys_foldl_addTerm {β : Type} (f : β → Variable α × α) (xs : List β) {e : LinearExpr α}
    {k : VarKey} :
    k ∈ (xs.foldl (fun e x => e.addTerm (f x)) e).keys ↔ k ∈ e.keys ∨ ∃ x ∈ xs, k = (f x).1.key := by
  induction xs generalizing e with
  | nil => simp
  | cons x xs ih =>
      rw [List.foldl_cons, ih, keys_addTerm, List.exists_mem_cons_iff, or_assoc]

theorem vars_add {e f : LinearExpr α} {v : Variable α} (hv : v ∈ (e.add f).vars) :
    v ∈ e.vars ∨ v ∈ f.vars := by
  rcases vars_foldl_addTerm (fun t : Variable α × α => t) f.terms hv with hv | ⟨t, ht, rfl⟩
  · exact Or.inl hv
  · exact Or.inr (List.mem_map_of_mem ht)

theorem keys_add {e f : LinearExpr α} {k : VarKey} : k ∈ (e.add f).keys ↔ k ∈ e.keys ∨ k ∈ f.keys := by
  refine (keys_foldl_addTerm (fun t : Variable α × α => t) f.terms).trans (or_congr_right ?_)
  simp [keys, vars, eq_comm]

theorem vars_sub {e f : LinearExpr α} {v : Variable α} (hv : v ∈ (e.sub f).vars) :
    v ∈ e.vars ∨ v ∈ f.vars := by
  rcases vars_foldl_addTerm (fun t : Variable α × α => (t.1, -t.2)) f.terms hv with hv | ⟨t, ht, rfl⟩
  · exact Or.inl hv
  · exact Or.inr (List.mem_map.2 ⟨t, ht, rfl⟩)

theorem keys_sub {e f : LinearExpr α} {k : VarKey} : k ∈ (e.sub f).keys ↔ k ∈ e.keys ∨ k ∈ f.keys := by
  refine (keys_foldl_addTerm (fun t : Variable α × α => (t.1, -t.2)) f.terms).trans (or_congr_right ?_)
  simp [keys, vars, eq_comm]

theorem vars_sumVars {vs : List (Variable α)} {v : Variable α} (hv : v ∈ (sumVars vs).vars) :
    v ∈ vs := by
  rcases vars_foldl_addTerm (fun v => (v, (1 : α))) vs hv with hv | ⟨w, hw, rfl⟩
  · cases hv
  · exact hw

theorem keys_sumVars {vs : List (Variable α)} {k : VarKey} :
    k ∈ (sumVars vs).keys ↔ k ∈ vs.map Variable.key := by
  rw [sumVars, keys_foldl_addTerm fun v => (v, (1 : α))]
  simp [keys, zero, vars, eq_comm]

theorem vars_sum {es : List (LinearExpr α)} {v : Variable α} (hv : v ∈ (sum es).vars) :
    ∃ e ∈ es, v ∈ e.vars := by
  -- for all accumulators, since the sum is built from the left
  have h : ∀ f : LinearExpr α, v ∈ (es.foldl add f).vars → v ∈ f.vars ∨ ∃ e ∈ es, v ∈ e.vars := by
    clear hv
    induction es with
    | nil => exact fun f hf => Or.inl hf
    | cons e es ih =>
        intro f hf
        rcases ih (f.add e) hf with hf | ⟨g, hg, hvg⟩
        · rcases vars_add hf with hf | hf
          · exact Or.inl hf
          · exact Or.inr ⟨e, List.mem_cons_self, hf⟩
        · exact Or.inr ⟨g, List.mem_cons_of_mem _ hg, hvg⟩
  rcases h zero hv with hv | hv
  · cases hv
  · exact hv

/-- No variable comes twice. -/
theorem keys_nodup_addTerm {e : LinearExpr α} (h : e.keys.Nodup) (t : Variable α × α) : (e.addTerm t).keys.Nodup := by
  unfold keys addTerm vars at *
  rw [Keyed.keys_upsert]
  split
  · exact h
  · rename_i hnew
    rw [List.map_append, List.map_singleton, List.nodup_append]
    refine ⟨h, List.nodup_singleton _, ?_⟩
    rintro k hk _ hkey rfl
    obtain rfl := List.mem_singleton.1 hkey
    obtain ⟨v, hv, hvt⟩ := List.mem_map.1 hk
    obtain ⟨p, hp, rfl⟩ := List.mem_map.1 hv
    exact hnew (List.any_eq_true.2 ⟨p, hp, Variable.beq_iff.2 hvt⟩)

theorem keys_nodup_foldl_addTerm {β : Type} (f : β → Variable α × α) (xs : List β) {e : LinearExpr α}
    (h : e.keys.Nodup) : (xs.foldl (fun e x => e.addTerm (f x)) e).keys.Nodup := by
  induction xs generalizing e with
  | nil => exact h
  | cons x xs ih => exact ih (keys_nodup_addTerm h (f x))

theorem keys_nodup_sub {e : LinearExpr α} (h : e.keys.Nodup) (f : LinearExpr α) : (e.sub f).keys.Nodup :=
  keys_nodup_foldl_addTerm (fun t : Variable α × α => (t.1, -t.2)) f.terms h

theorem keys_nodup_sumVars (vs : List (Variable α)) : (sumVars vs).keys.Nodup :=
  keys_nodup_foldl_addTerm (fun v => (v, (1 : α))) vs List.nodup_nil

theorem keys_nodup_sum (es : List (LinearExpr α)) : (sum es).keys.Nodup := by
  have h : ∀ f : LinearExpr α, f.keys.Nodup → (es.foldl add f).keys.Nodup := by
    induction es with
    | nil => exact fun _ hf => hf
    | cons e es ih => exact fun f hf => ih _ (keys_nodup_foldl_addTerm (fun t : Variable α × α => t) e.terms hf)
  exact h zero List.nodup_nil

theorem keys_sum {es : List (LinearExpr α)} {k : VarKey} : k ∈ (sum es).keys ↔ ∃ e ∈ es, k ∈ e.keys := by
  have h : ∀ f : LinearExpr α, k ∈ (es.foldl add f).keys ↔ k ∈ f.keys ∨ ∃ e ∈ es, k ∈ e.keys := by
    induction es with
    | nil => intro f; simp
    | cons e es ih => intro f; rw [List.foldl_cons, ih, keys_add, List.exists_mem_cons_iff, or_assoc]
  rw [sum, h]
  simp [keys, zero, vars]

end Variables

theorem vars_scaled {c : Rat} {e : LinearExpr Rat} {v : Variable Rat} (hv : v ∈ (scaled c e).vars) :
    v ∈ e.vars := by
  unfold scaled at hv
  split at hv
  · cases hv
  · simpa [vars] using hv

theorem keys_scaled {c : Rat} (hc : c ≠ 0) (e : LinearExpr Rat) : (scaled c e).keys = e.keys := by
  rw [scaled, if_neg hc]
  simp [keys, vars]

/-- Only some variables occur. -/
def Within (vs : List (Variable Rat)) (e : LinearExpr Rat) : Prop := ∀ v ∈ e.vars, v ∈ vs

section Within

variable {vs : List (Variable Rat)} {e f : LinearExpr Rat}

theorem within_ofVar {v : Variable Rat} (hv : v ∈ vs) : (ofVar v).Within vs := by
  intro w hw
  rwa [List.mem_singleton.1 hw]

theorem within_number (c : Rat) : Within vs ⟨[], c⟩ := fun _ hv => absurd hv List.not_mem_nil

theorem Within.scaled (h : e.Within vs) (c : Rat) : (scaled c e).Within vs := fun v hv => h v (vars_scaled hv)

theorem Within.lowered (h : e.Within vs) (c : Rat) : (e.lowered c).Within vs := h

theorem Within.sub (he : e.Within vs) (hf : f.Within vs) : (e.sub f).Within vs := by
  intro v hv
  rcases vars_sub hv with hv | hv
  · exact he v hv
  · exact hf v hv

end Within

end LinearExpr

/-! ## Constraints -/

namespace Constraint

variable {point : VarKey → Rat} {e f : LinearExpr Rat}

theorem eval_terms (point : VarKey → Rat) (e : LinearExpr Rat) :
    LinearExpr.eval point ⟨e.terms, 0⟩ = e.eval point - e.constant := by
  rw [LinearExpr.eval_eq, LinearExpr.eval_eq]
  ring

theorem holds_atMost : (atMost e f).Holds point ↔ e.eval point ≤ f.eval point := by
  unfold Holds atMost ofExpr
  show LinearExpr.eval point ⟨(e.sub f).terms, 0⟩ ≤ 0 - (e.sub f).constant ↔ _
  rw [eval_terms, LinearExpr.eval_sub]
  constructor <;> intro h <;> linarith

theorem holds_atLeast : (atLeast e f).Holds point ↔ f.eval point ≤ e.eval point := by
  unfold Holds atLeast ofExpr
  show 0 - (e.sub f).constant ≤ LinearExpr.eval point ⟨(e.sub f).terms, 0⟩ ↔ _
  rw [eval_terms, LinearExpr.eval_sub]
  constructor <;> intro h <;> linarith

theorem holds_equals {c : Rat} : (equals e c).Holds point ↔ e.eval point = c := by
  unfold Holds equals
  show LinearExpr.eval point ⟨e.terms, 0⟩ = c - e.constant ↔ _
  rw [eval_terms]
  constructor <;> intro h <;> linarith

end Constraint

/-! ## Feasible points -/

/-- Let the variables of a problem have distinct keys. Then a point is feasible if it gives all of them
admissible values and satisfies all constraints. -/
theorem Problem.feasible_iff {p : Problem Rat} (vs : List (Variable Rat))
    (hkeys : ∀ v ∈ vs, ∀ w ∈ vs, v.key = w.key → v = w)
    (hvars : ∀ c ∈ p.constraints, ∀ v ∈ c.2.vars, v ∈ vs)
    (hoccurs : ∀ v ∈ vs, ∃ c ∈ p.constraints, v.key ∈ c.2.vars.map Variable.key) (point : VarKey → Rat) :
    p.Feasible point ↔ (∀ v ∈ vs, Admits point v) ∧ ∀ c ∈ p.constraints, c.2.Holds point := by
  constructor
  · intro h
    refine ⟨?_, fun c hc => (h c hc).1⟩
    intro v hv
    obtain ⟨c, hc, hkey⟩ := hoccurs v hv
    obtain ⟨w, hw, hwv⟩ := List.mem_map.1 hkey
    -- the constraint holds a variable with the key of `v`, which is `v` itself
    obtain rfl := hkeys w (hvars c hc w hw) v hv hwv
    obtain ⟨t, ht, rfl⟩ := List.mem_map.1 hw
    exact (h c hc).2 t ht
  · rintro ⟨hadmits, hholds⟩ c hc
    refine ⟨hholds c hc, ?_⟩
    intro t ht
    exact hadmits t.1 (hvars c hc t.1 (List.mem_map_of_mem ht))

/-- A problem that consists of some constraints. -/
def Problem.ofConstraints (cs : List (Constraint Rat)) : Problem Rat :=
  { Problem.empty "" with constraints := cs.map fun c => ("", c) }

theorem Problem.constraints_ofConstraints (cs : List (Constraint Rat)) :
    (ofConstraints cs).constraints.map Prod.snd = cs := by
  rw [ofConstraints, List.map_map]
  exact List.map_id cs

/-- A point is feasible for two lists of constraints together if it is for both. -/
theorem Problem.feasible_append {p q r : Problem Rat}
    (h : p.constraints.map Prod.snd = q.constraints.map Prod.snd ++ r.constraints.map Prod.snd)
    (point : VarKey → Rat) : p.Feasible point ↔ q.Feasible point ∧ r.Feasible point := by
  have hall : ∀ p : Problem Rat, p.Feasible point ↔ ∀ c ∈ p.constraints.map Prod.snd,
      c.Holds point ∧ ∀ t ∈ c.terms, Admits point t.1 := by
    intro p
    rw [List.forall_mem_map]
    rfl
  rw [hall p, hall q, hall r, h, List.forall_mem_append]

end InfluenceDiagrams
