import Mathlib.Data.List.Nodup
import Std.Data.String.ToInt
import InfluenceDiagrams.Model.Assembly

/-!
# `InfluenceDiagrams.Proofs.Model.Building` — what a step adds to a model

Most steps in the construction of a model only add constraints under given names. Such a step is described
by the constraints that it adds, without running it: it succeeds as long as no name is used twice, and
everything else stays as it is.

## Contents
- **`Problem.extend`, `Workspace.extend`** — a problem with more constraints.
- **`Build.runOn_bind_ok`** and other lemmas on single steps.
- **`Build.Adds`** — a step adds some constraints; `Adds.bind`, `Adds.forM`, `Adds.mapM`.
- **`Problem.nextNumber_fresh`**, **`Problem.addConstraint_none`** — a constraint without a name can always be added.
- **`Build.Appends`** — a step adds some constraints without names.
-/

namespace InfluenceDiagrams

variable {α β γ : Type}

/-! ## More constraints -/

/-- The problem with more constraints, whose variables have been met. -/
def Problem.extend (p : Problem α) (added : List (String × Constraint α)) : Problem α :=
  Problem.meet { p with constraints := p.constraints ++ added }
    (added.flatMap fun c : String × Constraint α => c.2.terms.map Prod.fst)

/-- The workspace whose problem has more constraints. -/
def Workspace.extend (w : Workspace α) (added : List (String × Constraint α)) : Workspace α :=
  { w with model := { w.model with problem := w.model.problem.extend added } }

theorem Problem.extend_nil (p : Problem α) : p.extend [] = p := by
  rw [extend, List.append_nil]
  rfl

theorem Problem.extend_extend (p : Problem α) (a b : List (String × Constraint α)) :
    (p.extend a).extend b = p.extend (a ++ b) := by
  unfold extend meet
  simp only [List.flatMap_append, List.foldl_append, List.append_assoc]

theorem Problem.addConstraint_eq_extend {p : Problem α} {name : String} (c : Constraint α)
    (h : name ∉ p.constraints.map Prod.fst) : p.addConstraint (some name) c = .ok (p.extend [(name, c)]) := by
  have hfresh : p.hasConstraint name = false := by
    rw [hasConstraint, List.any_eq_false]
    intro q hq heq
    exact h (List.mem_map.2 ⟨q, hq, beq_iff_eq.1 heq⟩)
  show p.insert name c = _
  rw [insert, hfresh, extend, List.flatMap_cons, List.flatMap_nil, List.append_nil]
  rfl

theorem Workspace.extend_nil (w : Workspace α) : w.extend [] = w := by
  rw [extend, Problem.extend_nil]

theorem Workspace.extend_extend (w : Workspace α) (a b : List (String × Constraint α)) :
    (w.extend a).extend b = w.extend (a ++ b) := by
  simp only [extend, Problem.extend_extend]

namespace Build

/-! ## Single steps -/

theorem runOn_bind_ok {steps : Build α β} {f : β → Build α γ} {w v : Workspace α} {b : β}
    (h : steps.runOn w = (.ok b, v)) : runOn (steps >>= f) w = runOn (f b) v := by
  unfold runOn at *
  rw [ExceptT.run_bind, StateT.run_bind]
  show (ExceptT.run steps).run w >>= _ = _
  erw [h]
  rfl

theorem runOn_bind_error {steps : Build α β} {f : β → Build α γ} {w v : Workspace α} {e : Fault α}
    (h : steps.runOn w = (.error e, v)) : runOn (steps >>= f) w = (.error e, v) := by
  unfold runOn at *
  rw [ExceptT.run_bind, StateT.run_bind]
  show (ExceptT.run steps).run w >>= _ = _
  erw [h]
  rfl

theorem runOn_lift_ok {x : Except (Fault α) β} {b : β} (h : x = .ok b) (w : Workspace α) :
    (lift x).runOn w = (.ok b, w) := by
  rw [h]
  rfl

theorem runOn_require {condition : Bool} (h : condition = true) (fault : Fault α) (w : Workspace α) :
    (require condition fault).runOn w = (.ok (), w) := by
  rw [h]
  rfl

theorem runOn_getModel (w : Workspace α) : (getModel (α := α)).runOn w = (.ok w.model, w) := rfl

theorem runOn_freshFamily (w : Workspace α) :
    (freshFamily (α := α)).runOn w =
      (.ok w.model.families, { w with model := { w.model with families := w.model.families + 1 } }) := rfl

theorem runOn_freshIndex (w : Workspace α) :
    (freshIndex (α := α)).runOn w =
      (.ok w.model.nextIndex, { w with model := { w.model with nextIndex := w.model.nextIndex + 1 } }) := rfl

theorem runOn_modifyModel (f : DecisionModel α → DecisionModel α) (w : Workspace α) :
    (modifyModel f).runOn w = (.ok (), { w with model := f w.model }) := rfl

theorem runOn_notify (n : Notice) (w : Workspace α) :
    (notify n).runOn w = (.ok (), { w with notices := w.notices ++ [n] }) := rfl

theorem runOn_addConstraint {name : Option String} {c : Constraint α} {w : Workspace α} {p : Problem α}
    (h : w.model.problem.addConstraint name c = .ok p) :
    (addConstraint name c).runOn w = (.ok (), { w with model := { w.model with problem := p } }) := by
  unfold addConstraint
  rw [runOn_bind_ok (runOn_getModel w), h]
  rfl

theorem runOn_addConstraint_error {name : Option String} {c : Constraint α} {w : Workspace α} {f : Fault α}
    (h : w.model.problem.addConstraint name c = .error f) : (addConstraint name c).runOn w = (.error f, w) := by
  unfold addConstraint
  rw [runOn_bind_ok (runOn_getModel w), h]
  rfl

/-! ## Steps that add constraints -/

/-- Some steps give a result and add some constraints, unless a name would be used twice. -/
def Adds (steps : Build α β) (b : β) (added : List (String × Constraint α)) : Prop :=
  ∀ w : Workspace α, ((w.model.problem.constraints ++ added).map Prod.fst).Nodup →
    steps.runOn w = (.ok b, w.extend added)

theorem Adds.pure (b : β) : (Pure.pure b : Build α β).Adds b [] := by
  intro w _
  rw [Workspace.extend_nil]
  rfl

theorem Adds.lift_bind {x : Except (Fault α) β} {f : β → Build α γ} {b : β} {c : γ}
    {added : List (String × Constraint α)} (h : x = .ok b) (hf : (f b).Adds c added) :
    Adds (Build.lift x >>= f) c added := by
  intro w hnames
  rw [runOn_bind_ok (runOn_lift_ok h w), hf w hnames]

theorem Adds.bind {steps : Build α β} {f : β → Build α γ} {b : β} {c : γ}
    {first second : List (String × Constraint α)} (hsteps : steps.Adds b first)
    (hf : (f b).Adds c second) : Adds (steps >>= f) c (first ++ second) := by
  intro w hnames
  rw [← List.append_assoc] at hnames
  -- names that are distinct at the end are distinct after the first steps
  have hfirst : ((w.model.problem.constraints ++ first).map Prod.fst).Nodup := by
    rw [List.map_append] at hnames
    exact hnames.of_append_left
  rw [runOn_bind_ok (hsteps w hfirst), hf (w.extend first) hnames, Workspace.extend_extend]

theorem Adds.bind_pure {steps : Build α β} {b : β} {added : List (String × Constraint α)}
    (hsteps : steps.Adds b added) (c : γ) : Adds (steps >>= fun _ => Pure.pure c) c added := by
  have := hsteps.bind (f := fun _ => Pure.pure c) (Adds.pure c)
  rwa [List.append_nil] at this

theorem Adds.addConstraint (name : String) (c : Constraint α) :
    (Build.addConstraint (some name) c).Adds () [(name, c)] := by
  intro w hnames
  apply runOn_addConstraint
  apply Problem.addConstraint_eq_extend
  intro hmem
  rw [List.map_append, List.nodup_append] at hnames
  exact hnames.2.2 _ hmem name (List.mem_singleton.2 rfl) rfl

theorem Adds.forM {xs : List β} {f : β → Build α Unit} {added : β → List (String × Constraint α)}
    (h : ∀ x ∈ xs, (f x).Adds () (added x)) : Adds (xs.forM f) () (xs.flatMap added) := by
  induction xs with
  | nil => exact Adds.pure ()
  | cons x xs ih =>
      rw [List.flatMap_cons]
      exact (h x List.mem_cons_self).bind (ih fun y hy => h y (List.mem_cons_of_mem _ hy))

theorem Adds.mapM {xs : List β} {f : β → Build α γ} {g : β → γ}
    {added : β → List (String × Constraint α)} (h : ∀ x ∈ xs, (f x).Adds (g x) (added x)) :
    Adds (xs.mapM f) (xs.map g) (xs.flatMap added) := by
  induction xs with
  | nil => exact Adds.pure []
  | cons x xs ih =>
      have ih := ih fun y hy => h y (List.mem_cons_of_mem _ hy)
      rw [List.mapM_cons, List.flatMap_cons]
      refine (h x List.mem_cons_self).bind ?_
      rw [← List.append_nil (xs.flatMap added)]
      exact ih.bind (Adds.pure _)

end Build

/-! ## Constraints without names -/

theorem automaticName_injective : Function.Injective automaticName := by
  intro m n h
  have hrepr : (m : Int).repr = (n : Int).repr := String.append_right_inj "_C" |>.1 h
  exact Int.ofNat.inj (Int.repr_injective hrepr)

theorem Problem.hasConstraint_eq_false {p : Problem α} {name : String} :
    p.hasConstraint name = false ↔ name ∉ p.constraints.map Prod.fst := by
  rw [hasConstraint, List.any_eq_false, List.mem_map]
  constructor
  · rintro h ⟨c, hc, rfl⟩
    exact h c hc (beq_self_eq_true _)
  · intro h c hc heq
    exact h ⟨c, hc, beq_iff_eq.1 heq⟩

/-- No constraint has the next automatic name: there are not as many constraints as names to choose from. -/
theorem Problem.nextNumber_fresh (p : Problem α) :
    p.unnamed < p.nextNumber ∧ automaticName p.nextNumber ∉ p.constraints.map Prod.fst := by
  have hexists : ∃ n ∈ List.range' (p.unnamed + 1) (p.constraints.length + 1),
      (!p.hasConstraint (automaticName n)) = true := by
    by_contra hnone
    push Not at hnone
    have hnodup : ((List.range' (p.unnamed + 1) (p.constraints.length + 1)).map automaticName).Nodup :=
      (List.nodup_range' 1).map automaticName_injective
    have hsub : (List.range' (p.unnamed + 1) (p.constraints.length + 1)).map automaticName ⊆
        p.constraints.map Prod.fst := by
      intro name hname
      obtain ⟨n, hn, rfl⟩ := List.mem_map.1 hname
      by_contra hfree
      exact hnone n hn (by rw [hasConstraint_eq_false.2 hfree]; rfl)
    have hlen := hnodup.length_le_of_subset hsub
    simp only [List.length_map, List.length_range'] at hlen
    omega
  cases hfind : (List.range' (p.unnamed + 1) (p.constraints.length + 1)).find?
      fun n => !p.hasConstraint (automaticName n) with
  | none =>
      obtain ⟨n, hn, hfree⟩ := hexists
      exact absurd hfree (List.find?_eq_none.1 hfind n hn)
  | some n =>
      have hfree := List.find?_some hfind
      have hrange := List.mem_range'_1.1 (List.mem_of_find?_eq_some hfind)
      rw [Bool.not_eq_true'] at hfree
      rw [nextNumber, hfind]
      exact ⟨hrange.1, hasConstraint_eq_false.1 hfree⟩

/-- A constraint cannot be added under a name that is taken. -/
theorem Problem.addConstraint_taken {p : Problem α} {name : String} (h : name ∈ p.constraints.map Prod.fst)
    (c : Constraint α) : p.addConstraint (some name) c = .error (.duplicateConstraint name) := by
  have htaken : p.hasConstraint name = true := by
    rw [← Bool.not_eq_false]
    exact fun hfree => hasConstraint_eq_false.1 hfree h
  show p.insert name c = _
  rw [insert, htaken]
  rfl

/-- The problem with one more constraint under the next automatic name. -/
def Problem.addNext (p : Problem α) (c : Constraint α) : Problem α :=
  Problem.meet { p with
    constraints := p.constraints ++ [(automaticName p.nextNumber, c)]
    unnamed := p.nextNumber } (c.terms.map Prod.fst)

/-- A constraint without a name can always be added. -/
theorem Problem.addConstraint_none (p : Problem α) (c : Constraint α) :
    p.addConstraint none c = .ok (p.addNext c) := by
  have hfree : Problem.hasConstraint { p with unnamed := p.nextNumber } (automaticName p.nextNumber) = false :=
    hasConstraint_eq_false.2 p.nextNumber_fresh.2
  show Problem.insert { p with unnamed := p.nextNumber } (automaticName p.nextNumber) c = _
  rw [insert, hfree]
  rfl

namespace Build

/-- Some steps give a result and add some constraints under automatic names. They change the problem of the model and
nothing else. -/
def Appends (steps : Build α β) (b : β) (cs : List (Constraint α)) : Prop :=
  ∀ w : Workspace α, ∃ p added, steps.runOn w = (.ok b, { w with model := { w.model with problem := p } }) ∧
    p.constraints = w.model.problem.constraints ++ added ∧
    added.map Prod.snd = cs ∧ ∀ a ∈ added, ∃ n, a.1 = automaticName n

theorem Appends.pure (b : β) : (Pure.pure b : Build α β).Appends b [] := by
  intro w
  exact ⟨w.model.problem, [], rfl, (List.append_nil _).symm, rfl, fun a ha => absurd ha List.not_mem_nil⟩

theorem Appends.lift_bind {x : Except (Fault α) β} {f : β → Build α γ} {b : β} {c : γ}
    {cs : List (Constraint α)} (h : x = .ok b) (hf : (f b).Appends c cs) :
    Appends (Build.lift x >>= f) c cs := by
  intro w
  rw [runOn_bind_ok (runOn_lift_ok h w)]
  exact hf w

theorem Appends.bind {steps : Build α β} {f : β → Build α γ} {b : β} {c : γ}
    {first second : List (Constraint α)} (hsteps : steps.Appends b first) (hf : (f b).Appends c second) :
    Appends (steps >>= f) c (first ++ second) := by
  intro w
  obtain ⟨p, added, hrun, hconstraints, rfl, hnames⟩ := hsteps w
  obtain ⟨q, added', hrun', hconstraints', rfl, hnames'⟩ := hf { w with model := { w.model with problem := p } }
  refine ⟨q, added ++ added', ?_, ?_, List.map_append, ?_⟩
  · rw [runOn_bind_ok hrun, hrun']
  · rw [hconstraints', hconstraints, List.append_assoc]
  · intro a ha
    rcases List.mem_append.1 ha with ha | ha
    · exact hnames a ha
    · exact hnames' a ha

theorem Appends.addConstraint (c : Constraint α) : (Build.addConstraint none c).Appends () [c] := by
  intro w
  refine ⟨_, [(automaticName w.model.problem.nextNumber, c)], runOn_addConstraint (Problem.addConstraint_none _ c),
    rfl, rfl, ?_⟩
  intro a ha
  exact ⟨_, congrArg Prod.fst (List.mem_singleton.1 ha)⟩

end Build
end InfluenceDiagrams
