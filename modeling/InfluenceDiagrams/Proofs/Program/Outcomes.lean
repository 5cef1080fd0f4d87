import InfluenceDiagrams.Path.Listing
import InfluenceDiagrams.Proofs.Program.Evaluation

/-!
# `InfluenceDiagrams.Proofs.Program.Outcomes` — how computations may end

On doubles a computation may well have a fault: a number may be too large, or a coefficient not finite. What
is said about all numbers is therefore said about both ends, the result and the fault. Of a fault it only
matters here whether it is about names, either a name that is used twice or one that is not known.

## Contents
- **`Fault.Nameless`** — the fault is not about names; **`Fault.OfNumber`**, **`Fault.OfLength`** — it is about a number,
  or about a length.
- **`Yields`** — a result with a property, or a fault with one; `Yields.bind`, `Yields.mapM`,
  `Yields.foldlM`, `Yields.foldlM_each`.
- **`multiple_yields`, `combination_yields`** — the variables of expressions that are built.
-/

namespace InfluenceDiagrams

variable {α β γ : Type}

/-! ## Outcomes -/

/-- The fault is neither that of a name used twice nor that of a name that is not known. -/
def Fault.Nameless : Fault α → Prop
  | .duplicateConstraint _ => False
  | .notInCandidate _ => False
  | _ => True

theorem Fault.Nameless.ne_duplicate {f : Fault α} (h : f.Nameless) (name : String) :
    f ≠ .duplicateConstraint name := by
  rintro rfl
  exact h

theorem Fault.Nameless.ne_unknown {f : Fault α} (h : f.Nameless) (name : String) :
    f ≠ .notInCandidate name := by
  rintro rfl
  exact h

/-- The fault is one of a number: a division by zero, or a number that is too large or not finite. -/
def Fault.OfNumber : Fault α → Prop
  | .zeroDivisor | .overflow | .notFinite => True
  | _ => False

/-- The fault is that of a list that is too long. -/
def Fault.OfLength : Fault α → Prop
  | .overflow => True
  | _ => False

/-- The fault is one of the linear program: one of a number, or a name that is used twice. -/
def Fault.OfProgram (f : Fault α) : Prop := f.OfNumber ∨ ∃ name, f = .duplicateConstraint name

theorem Fault.OfNumber.nameless {f : Fault α} (h : f.OfNumber) : f.Nameless := by
  cases f <;> trivial

theorem Fault.OfLength.nameless {f : Fault α} (h : f.OfLength) : f.Nameless := by
  cases f <;> trivial

/-- A computation gives a result with one property, or has a fault with another. -/
def Yields (x : Except (Fault α) β) (p : β → Prop) (E : Fault α → Prop) : Prop :=
  match x with
  | .ok b => p b
  | .error f => E f

namespace Yields

variable {x : Except (Fault α) β} {p q : β → Prop} {r : γ → Prop} {E F : Fault α → Prop}

theorem of_ok (h : Yields x p E) {b : β} (hx : x = .ok b) : p b := by
  rw [hx] at h
  exact h

theorem of_error (h : Yields x p E) {f : Fault α} (hx : x = .error f) : E f := by
  rw [hx] at h
  exact h

/-- A computation that has no fault gives a result. -/
theorem exists_ok (h : Yields x p fun _ => False) : ∃ b, x = .ok b ∧ p b := by
  cases x with
  | ok b => exact ⟨b, rfl, h⟩
  | error f => exact absurd h not_false

theorem of_eq_ok {b : β} (hx : x = .ok b) (hb : p b) : Yields x p E := by
  rw [hx]
  exact hb

/-- If every fault denies what every result says, there is a result exactly where it holds. -/
theorem exists_ok_iff {holds : Prop} (h : Yields x (fun _ => holds) fun f => ¬holds ∧ E f) :
    (∃ b, x = .ok b) ↔ holds := by
  constructor
  · rintro ⟨b, hx⟩
    exact h.of_ok hx
  · intro hholds
    cases x with
    | ok b => exact ⟨b, rfl⟩
    | error f => exact absurd hholds h.1

theorem exists_error {holds : Prop} (h : Yields x (fun _ => holds) fun f => ¬holds ∧ E f) (hnot : ¬holds) :
    ∃ f, x = .error f ∧ E f := by
  cases x with
  | ok b => exact absurd h hnot
  | error f => exact ⟨f, rfl, h.2⟩

theorem mono (h : Yields x p E) (hp : ∀ b, x = .ok b → p b → q b) (hE : ∀ f, E f → F f) : Yields x q F := by
  cases x with
  | ok b => exact hp b rfl h
  | error f => exact hE f h

theorem and {q : β → Prop} (h : Yields x p E) (h' : Yields x q F) :
    Yields x (fun b => p b ∧ q b) fun f => E f ∧ F f := by
  cases x <;> exact ⟨h, h'⟩

theorem bind {f : β → Except (Fault α) γ} (h : Yields x p E) (hf : ∀ b, p b → Yields (f b) r E) :
    Yields (x >>= f) r E := by
  cases x with
  | ok b => exact hf b h
  | error e => exact h

theorem map {f : β → γ} (h : Yields x (fun b => r (f b)) E) : Yields (x.map f) r E := by
  cases x with
  | ok b => exact h
  | error e => exact h

theorem mapM {xs : List β} {f : β → Except (Fault α) γ} {p : β → γ → Prop}
    (h : ∀ x ∈ xs, Yields (f x) (p x) E) : Yields (xs.mapM f) (List.Forall₂ p xs) E := by
  induction xs with
  | nil => exact List.Forall₂.nil
  | cons x xs ih =>
      rw [List.mapM_cons]
      refine (h x List.mem_cons_self).bind fun y hy => ?_
      exact (ih fun a ha => h a (List.mem_cons_of_mem _ ha)).bind fun ys hys => List.Forall₂.cons hy hys

/-- What every step of a run keeps holds at its end. -/
theorem foldlM {xs : List β} {f : γ → β → Except (Fault α) γ} (h : ∀ acc, r acc → ∀ x ∈ xs, Yields (f acc x) r E)
    {acc : γ} (hacc : r acc) : Yields (xs.foldlM f acc) r E := by
  induction xs generalizing acc with
  | nil => exact hacc
  | cons x xs ih =>
      rw [List.foldlM_cons]
      refine (h acc hacc x List.mem_cons_self).bind fun b hb => ?_
      exact ih (fun a ha y hy => h a ha y (List.mem_cons_of_mem _ hy)) hb

/-- What each step of a run brings about, and no later one undoes, holds at its end. -/
theorem foldlM_each {xs : List β} {f : γ → β → Except (Fault α) γ} {R : γ → γ → Prop} {done : β → γ → Prop}
    (hrefl : ∀ a, R a a) (htrans : ∀ a b c, R a b → R b c → R a c) (hkeep : ∀ x a b, R a b → done x a → done x b)
    (h : ∀ acc, r acc → ∀ x ∈ xs, Yields (f acc x) (fun b => r b ∧ R acc b ∧ done x b) E) {acc : γ} (hacc : r acc) :
    Yields (xs.foldlM f acc) (fun b => r b ∧ R acc b ∧ ∀ x ∈ xs, done x b) E := by
  induction xs generalizing acc with
  | nil => exact ⟨hacc, hrefl acc, fun _ hx => absurd hx List.not_mem_nil⟩
  | cons x xs ih =>
      rw [List.foldlM_cons]
      refine (h acc hacc x List.mem_cons_self).bind fun b ⟨hb, hab, hx⟩ => ?_
      refine (ih (fun a ha y hy => h a ha y (List.mem_cons_of_mem _ hy)) hb).mono ?_ fun _ hf => hf
      rintro c - ⟨hc, hbc, hxs⟩
      exact ⟨hc, htrans _ _ _ hab hbc, List.forall_mem_cons.2 ⟨hkeep x b c hbc hx, hxs⟩⟩

end Yields

/-- What stands on the right stems from something on the left. -/
theorem exists_of_mem_right {R : β → γ → Prop} {xs : List β} {ys : List γ} (h : List.Forall₂ R xs ys) {y : γ}
    (hy : y ∈ ys) : ∃ x ∈ xs, R x y := by
  induction h with
  | nil => cases hy
  | cons hfirst _ ih =>
      rcases List.mem_cons.1 hy with rfl | hy
      · exact ⟨_, List.mem_cons_self, hfirst⟩
      · obtain ⟨x, hx, hxy⟩ := ih hy
        exact ⟨x, List.mem_cons_of_mem _ hx, hxy⟩

theorem exists_of_mem_left {R : β → γ → Prop} {xs : List β} {ys : List γ} (h : List.Forall₂ R xs ys) {x : β}
    (hx : x ∈ xs) : ∃ y ∈ ys, R x y :=
  exists_of_mem_right (R := flip R) h.flip hx

/-- What holds of the members of every part holds of all members. -/
theorem forall_mem_flatten {R : β → List γ → Prop} {xs : List β} {parts : List (List γ)}
    (h : List.Forall₂ R xs parts) {p : γ → Prop} (hp : ∀ x ∈ xs, ∀ part, R x part → ∀ y ∈ part, p y) :
    ∀ y ∈ parts.flatten, p y := by
  intro y hy
  obtain ⟨part, hpart, hy⟩ := List.mem_flatten.1 hy
  obtain ⟨x, hx, hR⟩ := exists_of_mem_right h hpart
  exact hp x hx part hR y hy

theorem orFault_yields {f : Fault α} {o : Option β} {E : Fault α → Prop} (h : E f) :
    Yields (orFault f o) (fun b => o = some b) E := by
  cases o with
  | none => exact h
  | some b => exact rfl

theorem finiteInt_yields [Scalar α] (n : Int) : Yields (finiteInt (α := α) n) (fun _ => True) Fault.OfNumber := by
  unfold finiteInt
  split <;> trivial

/-! ## Lists -/

section Lists

variable [Lengths]

theorem checkLength_yields (n : Int) : Yields (checkLength (α := α) n) (fun _ => True) Fault.OfLength := by
  unfold checkLength
  split <;> trivial

/-- Listing states fails only at a length. -/
theorem checkCounts_yields (fixed : FixedStates) (S : StateCounts) (first : Nat) :
    Yields (checkCounts (α := α) fixed first S) (fun _ => True) Fault.OfLength := by
  induction S generalizing first with
  | nil => trivial
  | cons n S ih =>
      unfold checkCounts
      split
      · exact ih _
      · exact (checkLength_yields n).bind fun _ _ => ih _

theorem listPaths_yields (S : StateCounts) (fixed : FixedStates) :
    Yields (listPaths (α := α) S fixed) (fun ss => ss = paths S fixed) Fault.OfLength :=
  ((checkCounts_yields fixed S 0).mono (fun _ _ _ => rfl) fun _ hf => hf).map

end Lists

/-! ## Expressions -/

section Expressions

variable [Scalar α]

/-- A multiple has no other variables than the expression, and all of them unless the factor is zero. -/
theorem scale_yields (c : α) (e : LinearExpr α) :
    Yields (LinearExpr.scale c e) (fun m => (∀ v ∈ m.vars, v ∈ e.vars) ∧
      ∀ k, k ∈ m.keys ↔ (c == 0) = false ∧ k ∈ e.keys) Fault.OfNumber := by
  unfold LinearExpr.scale
  split
  · trivial
  · split
    · rename_i hzero
      refine ⟨fun v hv => absurd hv List.not_mem_nil, fun k => ?_⟩
      rw [hzero]
      simp [LinearExpr.keys, LinearExpr.vars, LinearExpr.zero]
    · rename_i hne
      have hvars : (e.terms.map fun t => (t.1, c * t.2)).map Prod.fst = e.terms.map Prod.fst := by
        rw [List.map_map]
        rfl
      rw [Bool.not_eq_true] at hne
      refine ⟨fun v hv => ?_, fun k => ?_⟩
      · rwa [LinearExpr.vars, hvars] at hv
      · rw [LinearExpr.keys, LinearExpr.vars, hvars, hne]
        exact (and_iff_right rfl).symm

theorem subNumber_yields (e : LinearExpr α) (c : α) :
    Yields (e.subNumber c) (fun m => m.vars = e.vars) Fault.OfNumber := by
  unfold LinearExpr.subNumber
  split
  · exact rfl
  · trivial

/-- A multiple of a variable has the variable, unless the factor is zero. -/
theorem multiple_yields (c : α) (v : Variable α) :
    Yields (LinearExpr.multiple c v) (fun m => (∀ u ∈ m.vars, u = v) ∧
      ∀ k, k ∈ m.keys ↔ (c == 0) = false ∧ k = v.key) Fault.OfNumber := by
  refine (scale_yields c (.ofVar v)).mono (fun m _ h => ?_) fun f hf => hf
  obtain ⟨hvars, hkeys⟩ := h
  refine ⟨fun u hu => List.mem_singleton.1 (hvars u hu), fun k => ?_⟩
  rw [hkeys k]
  simp [LinearExpr.keys]

/-- A sum of expressions with a variable each, which some of them leave out. -/
theorem sum_of_forall₂ {xs : List β} {es : List (LinearExpr α)} {v : β → Variable α} {kept : β → Prop}
    (h : List.Forall₂ (fun x (e : LinearExpr α) => (∀ u ∈ e.vars, u = v x) ∧
      ∀ k, k ∈ e.keys ↔ kept x ∧ k = (v x).key) xs es) :
    (∀ u ∈ (LinearExpr.sum es).vars, ∃ x ∈ xs, u = v x) ∧
      ∀ k, k ∈ (LinearExpr.sum es).keys ↔ ∃ x ∈ xs, kept x ∧ k = (v x).key := by
  constructor
  · intro u hu
    obtain ⟨e, he, hu⟩ := LinearExpr.vars_sum hu
    obtain ⟨x, hx, hvars, -⟩ := exists_of_mem_right h he
    exact ⟨x, hx, hvars u hu⟩
  · intro k
    rw [LinearExpr.keys_sum]
    constructor
    · rintro ⟨e, he, hk⟩
      obtain ⟨x, hx, -, hkeys⟩ := exists_of_mem_right h he
      exact ⟨x, hx, (hkeys k).1 hk⟩
    · rintro ⟨x, hx, hk⟩
      obtain ⟨e, he, -, hkeys⟩ := exists_of_mem_left h hx
      exact ⟨e, he, (hkeys k).2 hk⟩

/-- A sum of multiples has the variables whose factors are not zero. -/
theorem combination_yields (terms : List (α × Variable α)) :
    Yields (LinearExpr.combination terms) (fun e => (∀ u ∈ e.vars, ∃ t ∈ terms, u = t.2) ∧
      ∀ k, k ∈ e.keys ↔ ∃ t ∈ terms, (t.1 == 0) = false ∧ k = t.2.key) Fault.OfNumber := by
  unfold LinearExpr.combination
  refine ((Yields.mapM fun t _ => multiple_yields t.1 t.2).mono (fun es _ hes => ?_) fun f hf => hf).map
  exact sum_of_forall₂ hes

end Expressions
end InfluenceDiagrams
