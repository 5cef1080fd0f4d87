import InfluenceDiagrams.Proofs.Model.Building
import InfluenceDiagrams.Proofs.Program.Outcomes

/-!
# `InfluenceDiagrams.Proofs.Model.Insertion` — steps with both of their ends

Whatever numbers a model is made of, a step either gives a result or has a fault, and it leaves a workspace in
both cases. A step is described from the outside by what holds before it and after each of its ends. While a
model is filled, the steps insert constraints under names from a list that is known beforehand. Such steps can
be put in sequence and repeated, the lists of names following each other, and as long as the names together are
distinct no insertion is refused.

## Contents
- **`Build.Ends`** — what holds before a step and after it; `Ends.bind`, `Ends.lift`, `Ends.addNext`.
- **`Build.Gives`** — how a step ends whatever the workspace; `Gives.bind`, `Gives.forM`, `Gives.mapM`.
- **`Build.Inserts`** — a step inserts constraints under some names; `Inserts.bind`, `Inserts.forM`,
  `Inserts.mapM`.
- **`Build.Extends`** — a step that gives a result has added certain constraints; `Extends.bind`, `Extends.forM`,
  `Extends.mapM`.
- **`Build.Leaves`** — what a step that gives a result leaves after the constraints, whatever its faults are;
  `Leaves.bind`, `Leaves.keeps_bind`, `Leaves.forM`.
-/

namespace InfluenceDiagrams
namespace Build

variable {α β γ : Type}

/-! ## Both ends of a step -/

/-- Where one property holds, the steps end in a result with a second one or in a fault with a third one. -/
def Ends (steps : Build α β) (P : Workspace α → Prop) (Q : β → Workspace α → Prop)
    (E : Fault α → Workspace α → Prop) : Prop :=
  ∀ w, P w → match steps.runOn w with
    | (.ok b, v) => Q b v
    | (.error f, v) => E f v

namespace Ends

variable {steps : Build α β} {f : β → Build α γ} {P P' : Workspace α → Prop} {Q Q' : β → Workspace α → Prop}
  {R : γ → Workspace α → Prop} {E E' : Fault α → Workspace α → Prop}

theorem of_ok (h : steps.Ends P Q E) {w v : Workspace α} {b : β} (hw : P w) (hrun : steps.runOn w = (.ok b, v)) :
    Q b v := by
  have := h w hw
  rwa [hrun] at this

theorem of_error (h : steps.Ends P Q E) {w v : Workspace α} {e : Fault α} (hw : P w)
    (hrun : steps.runOn w = (.error e, v)) : E e v := by
  have := h w hw
  rwa [hrun] at this

theorem bind (h : steps.Ends P Q E) (hf : ∀ b, (f b).Ends (Q b) R E) : Ends (steps >>= f) P R E := by
  intro w hw
  cases hrun : steps.runOn w with
  | mk result v =>
      cases result with
      | ok b =>
          rw [runOn_bind_ok hrun]
          exact hf b v (h.of_ok hw hrun)
      | error e =>
          rw [runOn_bind_error hrun]
          exact h.of_error hw hrun

theorem mono (h : steps.Ends P Q E) (hP : ∀ w, P' w → P w) (hQ : ∀ b v, Q b v → Q' b v)
    (hE : ∀ f v, E f v → E' f v) : steps.Ends P' Q' E' := by
  intro w hw
  cases hrun : steps.runOn w with
  | mk result v =>
      cases result with
      | ok b => exact hQ b v (h.of_ok (hP w hw) hrun)
      | error e => exact hE e v (h.of_error (hP w hw) hrun)

theorem pure {b : β} (h : ∀ w, P w → Q b w) : (Pure.pure b : Build α β).Ends P Q E := h

theorem lift {x : Except (Fault α) β} (h : ∀ w, P w → Yields x (fun b => Q b w) (fun f => E f w)) :
    (Build.lift x).Ends P Q E := by
  intro w hw
  have := h w hw
  cases x <;> exact this

/-- A computation that does not look at the workspace, and what follows. -/
theorem lift_bind {x : Except (Fault α) β} {p : β → Prop} {F : Fault α → Prop} (hx : Yields x p F)
    (hE : ∀ f w, F f → P w → E f w) (hf : ∀ b, p b → (f b).Ends P R E) : Ends (Build.lift x >>= f) P R E := by
  intro w hw
  cases x with
  | ok b => exact hf b hx w hw
  | error e => exact hE e w hx hw

/-- If nothing is said about faults, what follows is only asked of the result that there is. -/
theorem lift_bind_ok {x : Except (Fault α) β} (hf : ∀ b, x = .ok b → (f b).Ends P R fun _ _ => True) :
    Ends (Build.lift x >>= f) P R fun _ _ => True := by
  have hx : Yields x (fun b => x = .ok b) fun _ => True := by cases x <;> trivial
  exact lift_bind hx (fun _ _ _ _ => trivial) hf

theorem getModel_bind {f : DecisionModel α → Build α γ} (hf : ∀ m, (f m).Ends (fun w => P w ∧ w.model = m) R E) :
    Ends (getModel >>= f) P R E := by
  intro w hw
  exact hf w.model w ⟨hw, rfl⟩

theorem modifyModel {g : DecisionModel α → DecisionModel α} {Q : Unit → Workspace α → Prop}
    (h : ∀ w, P w → Q () { w with model := g w.model }) : (Build.modifyModel g).Ends P Q E := h

theorem modifyProblem {g : Problem α → Problem α} {Q : Unit → Workspace α → Prop}
    (h : ∀ w, P w → Q () { w with model := { w.model with problem := g w.model.problem } }) :
    (Build.modifyProblem g).Ends P Q E := h

theorem notify {n : Notice} {Q : Unit → Workspace α → Prop}
    (h : ∀ w, P w → Q () { w with notices := w.notices ++ [n] }) : (Build.notify n).Ends P Q E := h

/-- A constraint without a name is always added. -/
theorem addNext {c : Constraint α} {Q : Unit → Workspace α → Prop}
    (h : ∀ w, P w → Q () { w with model := { w.model with problem := w.model.problem.addNext c } }) :
    (Build.addConstraint none c).Ends P Q E := by
  intro w hw
  rw [runOn_addConstraint (Problem.addConstraint_none _ c)]
  exact h w hw

/-- A constraint is added under a name that is not taken. -/
theorem addConstraint {name : String} {c : Constraint α} {Q : Unit → Workspace α → Prop}
    (hname : ∀ w, P w → name ∉ w.model.problem.constraints.map Prod.fst)
    (h : ∀ w, P w → Q () (w.extend [(name, c)])) : (Build.addConstraint (some name) c).Ends P Q E := by
  intro w hw
  rw [runOn_addConstraint (Problem.addConstraint_eq_extend c (hname w hw))]
  exact h w hw

end Ends

/-! ## Whatever the workspace -/

/-- Whatever the workspace, the steps end in a result with one property or in a fault with another. -/
def Gives (steps : Build α β) (p : β → Prop) (E : Fault α → Prop) : Prop :=
  steps.Ends (fun _ => True) (fun b _ => p b) (fun f _ => E f)

namespace Gives

variable {steps : Build α β} {f : β → Build α γ} {p q : β → Prop} {r : γ → Prop} {E F : Fault α → Prop}

theorem mono (h : steps.Gives p E) (hp : ∀ b, p b → q b) (hE : ∀ f, E f → F f) : steps.Gives q F :=
  Ends.mono h (fun _ hw => hw) (fun b _ hb => hp b hb) fun f _ hf => hE f hf

theorem pure {b : β} (h : p b) : (Pure.pure b : Build α β).Gives p E := fun _ _ => h

theorem bind (h : steps.Gives p E) (hf : ∀ b, p b → (f b).Gives r E) : Gives (steps >>= f) r E := by
  refine Ends.bind h fun b w hb => ?_
  exact hf b hb w trivial

theorem lift {x : Except (Fault α) β} (h : Yields x p E) : (Build.lift x).Gives p E := Ends.lift fun _ _ => h

theorem lift_bind {x : Except (Fault α) β} (hx : Yields x p E) (hf : ∀ b, p b → (f b).Gives r E) :
    Gives (Build.lift x >>= f) r E :=
  (lift hx).bind hf

theorem addConstraint {name : Option String} {c : Constraint α} (hE : ∀ name, E (.duplicateConstraint name)) :
    (Build.addConstraint name c).Gives (fun _ => True) E := by
  have hadd : ∀ p : Problem α, Yields (p.addConstraint name c) (fun _ => True) E := by
    intro p
    unfold Problem.addConstraint Problem.insert
    split <;> split <;> first | exact hE _ | trivial
  exact Ends.getModel_bind fun m => Ends.lift_bind (hadd m.problem) (fun _ _ hf _ => hf) fun _ _ _ _ => trivial

/-- Steps for every member of a list. -/
theorem forM {xs : List β} {f : β → Build α Unit} (h : ∀ x ∈ xs, (f x).Gives (fun _ => True) E) :
    (xs.forM f).Gives (fun _ => True) E := by
  induction xs with
  | nil => exact pure trivial
  | cons x xs ih => exact (h x List.mem_cons_self).bind fun _ _ => ih fun y hy => h y (List.mem_cons_of_mem _ hy)

theorem mapM {xs : List β} {f : β → Build α γ} {R : β → γ → Prop} (h : ∀ x ∈ xs, (f x).Gives (R x) E) :
    (xs.mapM f).Gives (List.Forall₂ R xs) E := by
  induction xs with
  | nil => exact pure .nil
  | cons x xs ih =>
      rw [List.mapM_cons]
      refine (h x List.mem_cons_self).bind fun y hy => ?_
      exact (ih fun a ha => h a (List.mem_cons_of_mem _ ha)).bind fun ys hys => pure (.cons hy hys)

end Gives

/-! ## Insertion -/

/-- Where some names are free, the steps insert constraints under some of them, in order, or have a fault that is
not about names. -/
def Inserts (steps : Build α β) (names : List String) (Q : β → List (String × Constraint α) → Prop) : Prop :=
  ∀ w₀ : Workspace α, (w₀.model.problem.constraints.map Prod.fst ++ names).Nodup →
    steps.Ends (· = w₀)
      (fun b v => ∃ added, v = w₀.extend added ∧ (added.map Prod.fst).Sublist names ∧ Q b added)
      (fun f _ => f.Nameless)

namespace Inserts

variable {steps : Build α β} {f : β → Build α γ} {names rest : List String}
  {Q Q' : β → List (String × Constraint α) → Prop} {R : γ → List (String × Constraint α) → Prop}

theorem pure {b : β} (h : Q b []) : (Pure.pure b : Build α β).Inserts [] Q := by
  rintro w₀ - w rfl
  exact ⟨[], (Workspace.extend_nil w).symm, List.Sublist.refl _, h⟩

theorem mono (h : steps.Inserts names Q) (hQ : ∀ b added, Q b added → Q' b added) : steps.Inserts names Q' := by
  intro w₀ hnames
  refine (h w₀ hnames).mono (fun w hw => hw) (fun b v => ?_) (fun f v hf => hf)
  rintro ⟨added, hv, hsub, hQb⟩
  exact ⟨added, hv, hsub, hQ b added hQb⟩

theorem lift_bind {x : Except (Fault α) β} {p : β → Prop} (hx : Yields x p Fault.Nameless)
    (hf : ∀ b, p b → (f b).Inserts names R) : Inserts (Build.lift x >>= f) names R := by
  intro w₀ hnames
  exact Ends.lift_bind hx (fun e _ he _ => he) fun b hb => hf b hb w₀ hnames

theorem bind (h : steps.Inserts names Q)
    (hf : ∀ b first, Q b first → (f b).Inserts rest fun c added => R c (first ++ added)) :
    Inserts (steps >>= f) (names ++ rest) R := by
  intro w₀ hnames
  have hfirst : (w₀.model.problem.constraints.map Prod.fst ++ names).Nodup := by
    rw [← List.append_assoc] at hnames
    exact hnames.of_append_left
  refine (h w₀ hfirst).bind fun b => ?_
  rintro _ ⟨first, rfl, hsub, hb⟩
  -- what has been inserted has used up some of the names
  have hnames' : ((w₀.extend first).model.problem.constraints.map Prod.fst ++ rest).Nodup := by
    show ((w₀.model.problem.constraints ++ first).map Prod.fst ++ rest).Nodup
    rw [List.map_append, List.append_assoc]
    exact hnames.sublist ((hsub.append_right rest).append_left _)
  refine (hf b first hb _ hnames').mono (fun w hw => hw) (fun c v => ?_) (fun e v he => he) _ rfl
  rintro ⟨added, rfl, hsub', hc⟩
  refine ⟨first ++ added, Workspace.extend_extend _ _ _, ?_, hc⟩
  rw [List.map_append]
  exact hsub.append hsub'

/-- Steps whose result is put together from that of others. -/
theorem bind_pure (h : steps.Inserts names Q) {g : β → γ} (hg : ∀ b added, Q b added → R (g b) added) :
    Inserts (steps >>= fun b => Pure.pure (g b)) names R := by
  rw [← List.append_nil names]
  refine h.bind fun b first hb => pure ?_
  rw [List.append_nil]
  exact hg b first hb

/-- Some names need not be used. -/
theorem of_sublist {fewer : List String} (h : steps.Inserts fewer Q) (hsub : fewer.Sublist names) :
    steps.Inserts names Q := by
  intro w₀ hnames
  refine (h w₀ (hnames.sublist (hsub.append_left _))).mono (fun w hw => hw) (fun b v => ?_) (fun e v he => he)
  rintro ⟨added, hv, hused, hb⟩
  exact ⟨added, hv, hused.trans hsub, hb⟩

theorem addConstraint (name : String) (c : Constraint α) :
    (Build.addConstraint (some name) c).Inserts [name] fun _ added => added = [(name, c)] := by
  intro w₀ hnames
  apply Ends.addConstraint
  · rintro _ rfl hmem
    exact (List.nodup_append.1 hnames).2.2 name hmem name (List.mem_singleton.2 rfl) rfl
  · rintro _ rfl
    exact ⟨_, rfl, List.Sublist.refl _, rfl⟩

/-- Steps for every member of a list, whose constraints come in parts. -/
theorem forM {xs : List β} {f : β → Build α Unit} {names : β → List String}
    {Q : β → List (String × Constraint α) → Prop} (h : ∀ x ∈ xs, (f x).Inserts (names x) fun _ => Q x) :
    (xs.forM f).Inserts (xs.flatMap names)
      fun _ added => ∃ parts : List (List (String × Constraint α)), added = parts.flatten ∧
        List.Forall₂ Q xs parts := by
  induction xs with
  | nil => exact pure ⟨[], rfl, .nil⟩
  | cons x xs ih =>
      rw [List.flatMap_cons]
      refine (h x List.mem_cons_self).bind fun _ first hfirst => ?_
      refine (ih fun y hy => h y (List.mem_cons_of_mem _ hy)).mono fun _ added => ?_
      rintro ⟨parts, rfl, hparts⟩
      exact ⟨first :: parts, rfl, .cons hfirst hparts⟩

/-- The same with results. -/
theorem mapM {xs : List β} {f : β → Build α γ} {g : β → γ} {names : β → List String}
    {Q : β → List (String × Constraint α) → Prop}
    (h : ∀ x ∈ xs, (f x).Inserts (names x) fun c added => c = g x ∧ Q x added) :
    (xs.mapM f).Inserts (xs.flatMap names)
      fun cs added => cs = xs.map g ∧ ∃ parts : List (List (String × Constraint α)), added = parts.flatten ∧
        List.Forall₂ Q xs parts := by
  induction xs with
  | nil => exact pure ⟨rfl, [], rfl, .nil⟩
  | cons x xs ih =>
      rw [List.flatMap_cons, List.mapM_cons]
      refine (h x List.mem_cons_self).bind fun c first hfirst => ?_
      refine (ih fun y hy => h y (List.mem_cons_of_mem _ hy)).bind_pure fun cs added hadded => ?_
      obtain ⟨rfl, hfirst⟩ := hfirst
      obtain ⟨rfl, parts, rfl, hparts⟩ := hadded
      exact ⟨rfl, first :: parts, rfl, .cons hfirst hparts⟩

end Inserts

/-! ## Extension -/

/-- Where the name is taken, the problem is left alone. -/
theorem runOn_addConstraint_taken {w : Workspace α} {name : String}
    (hname : name ∈ w.model.problem.constraints.map Prod.fst) (c : Constraint α) :
    (Build.addConstraint (some name) c).runOn w = (.error (.duplicateConstraint name), w) :=
  runOn_addConstraint_error (Problem.addConstraint_taken hname c)

/-- If the steps give a result, it is a given one, and they have added given constraints and nothing else. They
have a fault only if a name would be used twice. -/
def Extends (steps : Build α β) (b : β) (added : List (String × Constraint α)) : Prop :=
  ∀ w₀ : Workspace α, steps.Ends (· = w₀) (fun c v => c = b ∧ v = w₀.extend added)
    (fun _ _ => ¬((w₀.model.problem.constraints ++ added).map Prod.fst).Nodup)

namespace Extends

variable {steps : Build α β} {f : β → Build α γ} {b : β} {c : γ} {first second : List (String × Constraint α)}

theorem of_ok (h : steps.Extends b first) {w v : Workspace α} {b' : β} (hrun : steps.runOn w = (.ok b', v)) :
    b' = b ∧ v = w.extend first :=
  (h w).of_ok rfl hrun

theorem pure (b : β) : (Pure.pure b : Build α β).Extends b [] :=
  fun w₀ => Ends.pure fun _ hw => ⟨rfl, hw.trans (Workspace.extend_nil w₀).symm⟩

theorem bind (h : steps.Extends b first) (hf : (f b).Extends c second) :
    Extends (steps >>= f) c (first ++ second) := by
  intro w₀
  rw [← List.append_assoc]
  -- names that are used twice by the first steps are so at the end
  have hfirst : steps.Ends (· = w₀) (fun b' v => b' = b ∧ v = w₀.extend first)
      (fun _ _ => ¬((w₀.model.problem.constraints ++ first ++ second).map Prod.fst).Nodup) := by
    refine (h w₀).mono (fun _ hw => hw) (fun _ _ hb => hb) fun _ _ hdup hnames => ?_
    rw [List.map_append] at hnames
    exact hdup hnames.of_append_left
  refine hfirst.bind fun b' => ?_
  rintro v ⟨rfl, rfl⟩
  refine (hf (w₀.extend first)).mono (fun _ hw => hw) ?_ (fun _ _ hf => hf) _ rfl
  rintro c' v ⟨rfl, rfl⟩
  exact ⟨rfl, Workspace.extend_extend _ _ _⟩

theorem addConstraint (name : String) (c : Constraint α) :
    (Build.addConstraint (some name) c).Extends () [(name, c)] := by
  rintro w₀ w rfl
  by_cases hname : name ∈ w.model.problem.constraints.map Prod.fst
  · rw [runOn_addConstraint_taken hname c]
    intro hnames
    rw [List.map_append] at hnames
    exact (List.nodup_append.1 hnames).2.2 name hname name (List.mem_singleton.2 rfl) rfl
  · rw [runOn_addConstraint (Problem.addConstraint_eq_extend c hname)]
    exact ⟨rfl, rfl⟩

theorem forM {xs : List β} {f : β → Build α Unit} {added : β → List (String × Constraint α)}
    (h : ∀ x ∈ xs, (f x).Extends () (added x)) : Extends (xs.forM f) () (xs.flatMap added) := by
  induction xs with
  | nil => exact pure ()
  | cons x xs ih =>
      rw [List.flatMap_cons]
      exact (h x List.mem_cons_self).bind (ih fun y hy => h y (List.mem_cons_of_mem _ hy))

theorem mapM {xs : List β} {f : β → Build α γ} {g : β → γ} {added : β → List (String × Constraint α)}
    (h : ∀ x ∈ xs, (f x).Extends (g x) (added x)) : Extends (xs.mapM f) (xs.map g) (xs.flatMap added) := by
  induction xs with
  | nil => exact pure []
  | cons x xs ih =>
      have ih := ih fun y hy => h y (List.mem_cons_of_mem _ hy)
      rw [List.mapM_cons, List.flatMap_cons]
      refine (h x List.mem_cons_self).bind ?_
      rw [← List.append_nil (xs.flatMap added)]
      exact ih.bind (pure _)

end Extends

/-! ## What is left behind -/

/-- If the steps give a result, there are more constraints after those that were there, and result and constraints have
a property. Nothing is said about faults, nor about the rest of the workspace. -/
def Leaves (steps : Build α β) (Q : β → List (String × Constraint α) → Prop) : Prop :=
  ∀ cs, steps.Ends (fun w => w.model.problem.constraints = cs)
    (fun b v => ∃ added, v.model.problem.constraints = cs ++ added ∧ Q b added) (fun _ _ => True)

namespace Leaves

variable {steps : Build α β} {f : β → Build α γ} {Q Q' : β → List (String × Constraint α) → Prop}
  {R : γ → List (String × Constraint α) → Prop}

theorem of_ok (h : steps.Leaves Q) {w v : Workspace α} {b : β} (hrun : steps.runOn w = (.ok b, v)) :
    ∃ added, v.model.problem.constraints = w.model.problem.constraints ++ added ∧ Q b added :=
  (h _).of_ok rfl hrun

theorem mono (h : steps.Leaves Q) (hQ : ∀ b added, Q b added → Q' b added) : steps.Leaves Q' := by
  intro cs
  refine (h cs).mono (fun _ hw => hw) (fun b v => ?_) fun _ _ hf => hf
  rintro ⟨added, hv, hb⟩
  exact ⟨added, hv, hQ b added hb⟩

theorem pure {b : β} (h : Q b []) : (Pure.pure b : Build α β).Leaves Q :=
  fun cs => Ends.pure fun _ hw => ⟨[], hw.trans (List.append_nil cs).symm, h⟩

theorem bind (h : steps.Leaves Q) (hf : ∀ b first, Q b first → (f b).Leaves fun c second => R c (first ++ second)) :
    Leaves (steps >>= f) R := by
  intro cs
  refine (h cs).bind fun b w hw => ?_
  obtain ⟨first, hw, hb⟩ := hw
  refine (hf b first hb (cs ++ first)).mono (fun _ hw => hw) (fun c v => ?_) (fun _ _ hf => hf) w hw
  rintro ⟨second, hv, hc⟩
  exact ⟨first ++ second, hv.trans (List.append_assoc _ _ _), hc⟩

theorem lift_bind {x : Except (Fault α) β} (hf : ∀ b, x = .ok b → (f b).Leaves R) : Leaves (Build.lift x >>= f) R :=
  fun cs => Ends.lift_bind_ok fun b hb => hf b hb cs

/-- Steps that leave the constraints alone, and what follows. -/
theorem keeps_bind (h : ∀ w, (steps.runOn w).2.model.problem.constraints = w.model.problem.constraints)
    (hf : ∀ b, (f b).Leaves R) : Leaves (steps >>= f) R := by
  have hkeeps : steps.Leaves fun _ added => added = [] := by
    intro cs w hw
    have hkeep := h w
    cases hrun : steps.runOn w with
    | mk result v =>
        rw [hrun] at hkeep
        cases result with
        | ok b => exact ⟨[], (hkeep.trans hw).trans (List.append_nil cs).symm, rfl⟩
        | error e => trivial
  refine hkeeps.bind fun b first hfirst => ?_
  subst hfirst
  exact hf b

theorem addConstraint (name : String) (c : Constraint α) :
    (Build.addConstraint (some name) c).Leaves fun _ added => added = [(name, c)] := by
  rintro _ w rfl
  by_cases hname : name ∈ w.model.problem.constraints.map Prod.fst
  · rw [runOn_addConstraint_taken hname c]
    trivial
  · rw [runOn_addConstraint (Problem.addConstraint_eq_extend c hname)]
    exact ⟨_, rfl, rfl⟩

/-- Steps for every member of a list, whose constraints come in parts. -/
theorem forM {xs : List β} {f : β → Build α Unit} {Q : β → List (String × Constraint α) → Prop}
    (h : ∀ x ∈ xs, (f x).Leaves fun _ => Q x) :
    (xs.forM f).Leaves fun _ added => ∃ parts : List (List (String × Constraint α)), added = parts.flatten ∧
      List.Forall₂ Q xs parts := by
  induction xs with
  | nil => exact pure ⟨[], rfl, .nil⟩
  | cons x xs ih =>
      refine (h x List.mem_cons_self).bind fun _ first hfirst => ?_
      refine (ih fun y hy => h y (List.mem_cons_of_mem _ hy)).mono fun _ added => ?_
      rintro ⟨parts, rfl, hparts⟩
      exact ⟨first :: parts, rfl, .cons hfirst hparts⟩

end Leaves
end Build
end InfluenceDiagrams
