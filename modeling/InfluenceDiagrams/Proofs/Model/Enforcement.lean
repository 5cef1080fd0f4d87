import InfluenceDiagrams.Model.Solve
import InfluenceDiagrams.Proofs.Model.Building

/-!
# `InfluenceDiagrams.Proofs.Model.Enforcement` — lazy constraints are added to a problem

What callbacks submit is added to the problem in order. A lazy constraint without a name can always be added, and one
with a name can be added unless that name is taken. The first one with a name that is taken ends it: the problem has the
lazy constraints before it, and those behind it are not looked at.

## Contents
- **`LazyConstraint.AddedAs`**, **`Problem.Gains`** — lazy constraints have been added; `Gains.trans`.
- **`Problem.Clashes`** — those before one whose name is taken have been added; `Gains.clashes`.
- **`Problem.enforce`** — adding lazy constraints; **`enforce_gains`, `enforce_clashes`** — the two ways to end.
- **`addLazy_eq`** — the program does it.
-/

namespace InfluenceDiagrams

variable {α : Type}

/-- A lazy constraint has been added under its own name, or under an automatic one if it has none. -/
structure LazyConstraint.AddedAs (cut : LazyConstraint α) (c : String × Constraint α) : Prop where
  constraint_eq : c.2 = cut.constraint
  own : ∀ name, cut.name = some name → c.1 = name
  automatic : cut.name = none → ∃ n, c.1 = automaticName n

namespace Problem

/-- From one problem to another some lazy constraints have been added, under names that no constraint had, and
nothing else has happened to the constraints. -/
def Gains (p : Problem α) (cuts : List (LazyConstraint α)) (q : Problem α) : Prop :=
  ∃ added : List (String × Constraint α), q.constraints = p.constraints ++ added ∧
    List.Forall₂ LazyConstraint.AddedAs cuts added ∧ (added.map Prod.fst).Nodup ∧
    ∀ a ∈ added, a.1 ∉ p.constraints.map Prod.fst

/-- From one problem to another those of some lazy constraints have been added that come before one whose name is
taken. -/
def Clashes (p : Problem α) (cuts : List (LazyConstraint α)) (q : Problem α) (f : Fault α) : Prop :=
  ∃ added cut left name, cuts = added ++ cut :: left ∧ p.Gains added q ∧ cut.name = some name ∧
    name ∈ q.constraints.map Prod.fst ∧ f = .duplicateConstraint name

variable {p q r : Problem α} {cuts : List (LazyConstraint α)} {f : Fault α}

theorem Gains.refl (h : q.constraints = p.constraints) : p.Gains [] q :=
  ⟨[], by rw [h, List.append_nil], .nil, List.nodup_nil, fun _ ha => absurd ha List.not_mem_nil⟩

theorem Gains.trans {more : List (LazyConstraint α)} (h : p.Gains cuts q) (h' : q.Gains more r) :
    p.Gains (cuts ++ more) r := by
  obtain ⟨first, hq, hcuts, hfirst, hnew⟩ := h
  obtain ⟨second, hr, hmore, hsecond, hnew'⟩ := h'
  rw [hq] at hnew' hr
  refine ⟨first ++ second, by rw [hr, List.append_assoc], List.rel_append hcuts hmore, ?_, ?_⟩
  · rw [List.map_append, List.nodup_append]
    refine ⟨hfirst, hsecond, ?_⟩
    rintro n hn n' hn' rfl
    obtain ⟨b, hb, rfl⟩ := List.mem_map.1 hn'
    exact hnew' b hb (by rw [List.map_append]; exact List.mem_append_right _ hn)
  · rw [List.forall_mem_append]
    refine ⟨hnew, ?_⟩
    intro b hb hmem
    exact hnew' b hb (by rw [List.map_append]; exact List.mem_append_left _ hmem)

theorem Gains.clashes {more : List (LazyConstraint α)} (h : p.Gains cuts q) (h' : q.Clashes more r f) :
    p.Clashes (cuts ++ more) r f := by
  obtain ⟨added, cut, left, name, rfl, hadded, hname⟩ := h'
  exact ⟨cuts ++ added, cut, left, name, (List.append_assoc _ _ _).symm, h.trans hadded, hname⟩

/-- A constraint that can be added is behind the others, under its own name or an automatic one. -/
theorem gains_of_addConstraint {cut : LazyConstraint α} (h : p.addConstraint cut.name cut.constraint = .ok q) :
    p.Gains [cut] q := by
  obtain ⟨own, c⟩ := cut
  cases own with
  | none =>
      obtain rfl : p.addNext c = q := Except.ok.inj ((p.addConstraint_none c).symm.trans h)
      refine ⟨[(automaticName p.nextNumber, c)], rfl, .cons ?_ .nil, List.nodup_singleton _, ?_⟩
      · exact ⟨rfl, (fun _ hname => nomatch hname), fun _ => ⟨_, rfl⟩⟩
      · rw [List.forall_mem_singleton]
        exact p.nextNumber_fresh.2
  | some name =>
      have hfree : name ∉ p.constraints.map Prod.fst := by
        intro htaken
        rw [addConstraint_taken htaken c] at h
        cases h
      obtain rfl : p.extend [(name, c)] = q := Except.ok.inj ((addConstraint_eq_extend c hfree).symm.trans h)
      refine ⟨[(name, c)], rfl, .cons ?_ .nil, List.nodup_singleton _, ?_⟩
      · exact ⟨rfl, fun _ hname => Option.some.inj hname, fun hname => nomatch hname⟩
      · rw [List.forall_mem_singleton]
        exact hfree

/-- A constraint that cannot be added has a name that is taken. -/
theorem taken_of_addConstraint {name : Option String} {c : Constraint α} (h : p.addConstraint name c = .error f) :
    ∃ own, name = some own ∧ own ∈ p.constraints.map Prod.fst ∧ f = .duplicateConstraint own := by
  cases name with
  | none =>
      rw [addConstraint_none] at h
      cases h
  | some own =>
      by_cases htaken : own ∈ p.constraints.map Prod.fst
      · rw [addConstraint_taken htaken c] at h
        exact ⟨own, rfl, htaken, (Except.error.inj h).symm⟩
      · rw [addConstraint_eq_extend c htaken] at h
        cases h

/-! ## One after the other -/

/-- The problem when lazy constraints have been added, up to the first one that is refused, and the fault of that. -/
def enforce (p : Problem α) : List (LazyConstraint α) → Problem α × Option (Fault α)
  | [] => (p, none)
  | cut :: rest =>
      match p.addConstraint cut.name cut.constraint with
      | .ok q => q.enforce rest
      | .error f => (p, some f)

/-- If none is refused, all of them have been added. -/
theorem enforce_gains (h : (p.enforce cuts).2 = none) : p.Gains cuts (p.enforce cuts).1 := by
  induction cuts generalizing p with
  | nil => exact .refl rfl
  | cons cut rest ih =>
      rw [enforce] at h ⊢
      cases hadd : p.addConstraint cut.name cut.constraint with
      | ok q =>
          rw [hadd] at h
          exact (gains_of_addConstraint hadd).trans (ih h)
      | error f =>
          rw [hadd] at h
          cases h

/-- Otherwise those before the first one that is refused have been added. -/
theorem enforce_clashes (h : (p.enforce cuts).2 = some f) : p.Clashes cuts (p.enforce cuts).1 f := by
  induction cuts generalizing p with
  | nil => cases h
  | cons cut rest ih =>
      rw [enforce] at h ⊢
      cases hadd : p.addConstraint cut.name cut.constraint with
      | ok q =>
          rw [hadd] at h
          exact (gains_of_addConstraint hadd).clashes (ih h)
      | error g =>
          rw [hadd] at h
          obtain rfl := Option.some.inj h
          obtain ⟨name, hname, htaken, hfault⟩ := taken_of_addConstraint hadd
          exact ⟨[], cut, rest, name, rfl, .refl rfl, hname, htaken, hfault⟩

/-- Without a name, a single one is added. -/
theorem enforce_unnamed (p : Problem α) (c : Constraint α) : p.enforce [.unnamed c] = (p.addNext c, none) := by
  rw [enforce, LazyConstraint.unnamed, addConstraint_none]
  rfl

end Problem

/-- The program does it. -/
theorem addLazy_eq (cuts : List (LazyConstraint α)) (w : Workspace α) : (addLazy cuts).runOn w =
    ((w.model.problem.enforce cuts).2.elim (.ok ()) .error,
      { w with model := { w.model with problem := (w.model.problem.enforce cuts).1 } }) := by
  induction cuts generalizing w with
  | nil => rfl
  | cons cut rest ih =>
      unfold addLazy
      rw [Problem.enforce]
      cases hadd : w.model.problem.addConstraint cut.name cut.constraint with
      | ok q => rw [Build.runOn_bind_ok (Build.runOn_addConstraint hadd), ih]
      | error f => exact Build.runOn_bind_error (Build.runOn_addConstraint_error hadd)

end InfluenceDiagrams
