import InfluenceDiagrams.Proofs.Model.Insertion
import InfluenceDiagrams.Proofs.Model.Rounds
import InfluenceDiagrams.Proofs.Program.Met

/-!
# `InfluenceDiagrams.Proofs.Model.Preservation` — what a run keeps, however it ends

A run asks the solver, lists the variables, calls the callbacks and adds what they submit. Whatever the solver
says, and whether or not it or a callback has a fault, a property of the workspace that each of these parts keeps
holds in the end. The candidates that callbacks see and the constraints that they submit may be described as well,
since a property of the problem usually needs to know of the constraints that are added.

## Contents
- **`met_subset_addNext`, `listed_subset_addNext`** — what a problem with one more constraint has met.
- **`Workspace.asked`** — the workspace when a question has been put.
- **`LazyConstraint.Bare`** — a lazy constraint without a name.
- **`Upkeep`** — each part of a run keeps a property of the workspace.
- **`Upkeep.offer_ends`, `Upkeep.runSolver_ends`, `Upkeep.solveRounds_ends`** — the parts, as the program does them.
- **`Upkeep.solve_ends`** — a whole run.
-/

namespace InfluenceDiagrams

variable {α : Type}

/-! ## Constraints without names -/

namespace Problem

theorem met_subset_addNext (p : Problem α) (c : Constraint α) : p.met ⊆ (p.addNext c).met :=
  met_subset_meet { p with constraints := p.constraints ++ [(automaticName p.nextNumber, c)] } _

theorem listed_subset_addNext (p : Problem α) (c : Constraint α) : p.listed ⊆ (p.addNext c).listed :=
  listed_subset_of (List.map_subset _ (met_subset_addNext p c)) rfl

end Problem

/-! ## The parts of a run -/

/-- A lazy constraint has no name of its own, and its constraint has a property. -/
def LazyConstraint.Bare (L : Constraint α → Prop) (cut : LazyConstraint α) : Prop :=
  cut.name = none ∧ L cut.constraint

variable [Scalar α]

/-- The workspace when a question has been put to the solver, which has not answered yet. -/
def Workspace.asked (w : Workspace α) : Workspace α :=
  { w with model := { w.model with problem := w.model.problem.withAnchor.observe } }

/-- Each part of a run keeps a property `I` of the workspace. The candidates that are shown have the property `K`,
the constraints that are submitted have no name and the property `L`, and the faults of callbacks the property `E`. -/
structure Upkeep (I : Workspace α → Prop) (K : Candidate α → Prop) (L : Constraint α → Prop)
    (E : Fault α → Prop) : Prop where
  asked : ∀ w, I w → I w.asked
  answered : ∀ w verdict, I w → I (w.answered verdict)
  shown : ∀ w, I w → I w.shown ∧ K w.shown.model.candidate
  evaluated : ∀ w c, I w → K c → ∀ cb ∈ w.model.callbacks,
    Yields (cb.evaluate c) (fun answer => ∀ cut ∈ answer, cut.Bare L) E
  recorded : ∀ w s, I w → L s.cut.constraint → I { w with model := w.model.record s }
  added : ∀ w c, I w → L c → I { w with model := { w.model with problem := w.model.problem.addNext c } }
  nameless : ∀ f, f.Nameless → E f

namespace Upkeep

variable {I : Workspace α → Prop} {K : Candidate α → Prop} {L : Constraint α → Prop} {E : Fault α → Prop}
  {solver : Solver α}

theorem offer_ends (h : Upkeep I K L E) {c : Candidate α} (hc : K c) (i : Nat) :
    (offer i c).Ends I (fun cut w => I w ∧ ∀ k ∈ cut, k.Bare L) (fun f w => I w ∧ E f) := by
  unfold offer
  refine Build.Ends.getModel_bind fun m => ?_
  rintro w ⟨hw, rfl⟩
  cases hcb : w.model.callbacks[i]? with
  | none => exact ⟨hw, fun k hk => by cases hk⟩
  | some cb =>
      dsimp only
      by_cases hadded : cb.added = true
      · rw [if_pos hadded]
        exact ⟨hw, fun k hk => by cases hk⟩
      · rw [if_neg hadded]
        have hanswer := h.evaluated w c hw hc cb (List.mem_of_getElem? hcb)
        refine Build.Ends.lift_bind (P := (· = w)) hanswer (fun f v hf hv => ⟨hv ▸ hw, hf⟩)
          (fun answer hcuts => ?_) w rfl
        rintro v rfl
        cases answer with
        | none => exact ⟨hw, fun k hk => by cases hk⟩
        | some cut =>
            have hcut := hcuts cut rfl
            refine ⟨h.recorded v ⟨i, cb.name, cut⟩ hw hcut.2, ?_⟩
            rintro _ ⟨⟩
            exact hcut

theorem offerAll_ends (h : Upkeep I K L E) {c : Candidate α} (hc : K c) (places : List Nat) :
    (offerAll c places).Ends I (fun cuts w => I w ∧ ∀ k ∈ cuts, k.Bare L) (fun f w => I w ∧ E f) := by
  induction places with
  | nil => exact Build.Ends.pure fun w hw => ⟨hw, fun k hk => absurd hk List.not_mem_nil⟩
  | cons i places ih =>
      unfold offerAll
      refine (h.offer_ends hc i).bind fun cut => ?_
      rintro w ⟨hw, hcut⟩
      refine Build.Ends.bind (ih.mono (fun w hw => hw) (fun cuts v hv => hv) fun f v hf => hf) ?_ w hw
      intro cuts v hv
      refine ⟨hv.1, List.forall_mem_append.2 ⟨fun k hk => hcut k (Option.mem_toList.1 hk), hv.2⟩⟩

theorem addLazy_ends (h : Upkeep I K L E) {cuts : List (LazyConstraint α)} (hcuts : ∀ k ∈ cuts, k.Bare L) :
    (addLazy cuts).Ends I (fun _ => I) (fun f w => I w ∧ E f) := by
  induction cuts with
  | nil => exact Build.Ends.pure fun w hw => hw
  | cons cut cuts ih =>
      obtain ⟨⟨hname, hcut⟩, hcuts⟩ := List.forall_mem_cons.1 hcuts
      unfold addLazy
      rw [hname]
      exact Build.Ends.bind (Q := fun _ => I) (Build.Ends.addNext fun w hw => h.added w _ hw hcut) fun _ => ih hcuts

theorem offerPresent_ends (h : Upkeep I K L E) :
    (offerPresent (α := α)).Ends I (fun cuts w => I w ∧ ∀ k ∈ cuts, k.Bare L) (fun f w => I w ∧ E f) := by
  unfold offerPresent
  refine Build.Ends.bind (Q := fun _ w => I w ∧ K w.model.candidate) (Build.Ends.modifyProblem h.shown) fun _ => ?_
  refine Build.Ends.getModel_bind fun m => ?_
  rintro w ⟨⟨hw, hc⟩, rfl⟩
  exact h.offerAll_ends hc _ w hw

theorem runSolver_ends (h : Upkeep I K L E) (hsolver : ∀ call p f, solver call p = .error f → E f) (call : Nat) :
    (runSolver solver call).Ends I (fun _ => I) (fun f w => I w ∧ E f) := by
  intro w hw
  cases hverdict : solver call w.model.problem.withAnchor.observe with
  | ok verdict =>
      rw [runSolver_eq hverdict]
      exact h.answered w verdict hw
  | error f =>
      have hrun : (runSolver solver call).runOn w = (.error f, w.asked) := by
        unfold runSolver
        rw [Build.runOn_bind_ok (Build.runOn_getModel w)]
        refine (Build.runOn_bind_ok (Build.runOn_modifyModel _ w)).trans ?_
        rw [hverdict]
        rfl
      rw [hrun]
      exact ⟨h.asked w hw, hsolver call _ f hverdict⟩

/-- Less may be said about faults. -/
theorem mono (h : Upkeep I K L E) {E' : Fault α → Prop} (hE : ∀ f, E f → E' f) : Upkeep I K L E' :=
  { h with
    evaluated := fun w c hw hc cb hcb => (h.evaluated w c hw hc cb hcb).mono (fun _ _ ha => ha) hE
    nameless := fun f hf => hE f (h.nameless f hf) }

/-! ## Whole runs -/

theorem solveRounds_ends (h : Upkeep I K L E) (hsolver : ∀ call p f, solver call p = .error f → E f)
    (left call : Nat) : (solveRounds solver left call).Ends I (fun _ => I) (fun f w => I w ∧ E f) := by
  -- the two cases of the recursion differ in what follows when constraints have been added
  have hround : ∀ (call : Nat) (status : Status) (rest : Build α (Status × Nat)),
      rest.Ends I (fun _ => I) (fun f w => I w ∧ E f) → Build.Ends (do
        let m ← Build.getModel
        if status ≠ .optimal ∨ m.callbacks.isEmpty then return (status, call)
        else
          let cuts ← offerPresent
          if cuts.isEmpty then return (status, call)
          else
            addLazy cuts
            rest) I (fun _ => I) (fun f w => I w ∧ E f) := by
    intro call status rest hrest
    refine Build.Ends.getModel_bind fun m => ?_
    split
    · exact Build.Ends.pure fun w hw => hw.1
    · refine (h.offerPresent_ends.mono (fun w hw => hw.1) (fun _ _ hv => hv) fun _ _ hf => hf).bind fun cuts => ?_
      split
      · exact Build.Ends.pure fun w hw => hw.1
      · rintro w ⟨hw, hcuts⟩
        exact (h.addLazy_ends hcuts).bind (fun _ => hrest) w hw
  induction left generalizing call with
  | zero =>
      unfold solveRounds
      refine (h.runSolver_ends hsolver call).bind fun status => ?_
      exact hround call status (pure (status, call)) (Build.Ends.pure fun w hw => hw)
  | succ left ih =>
      unfold solveRounds
      refine (h.runSolver_ends hsolver call).bind fun status => ?_
      exact hround call status (solveRounds solver left (call + 1)) (ih (call + 1))

/-- **A run.** What each of its parts keeps, it keeps, and its faults are those of the solver and of the callbacks,
or not about names. -/
theorem solve_ends (h : Upkeep I K L E) (hsolver : ∀ call p f, solver call p = .error f → E f) :
    (solve solver).Ends I (fun _ => I) (fun f w => I w ∧ E f) := by
  have hvalue : ∀ (point : VarKey → Option (Numeral α)) (acc : α) (terms : List (Variable α × α)),
      Yields (LinearExpr.addValues point acc terms) (fun _ => True) Fault.Nameless := by
    intro point acc terms
    induction terms generalizing acc with
    | nil => trivial
    | cons t terms ih =>
        unfold LinearExpr.addValues
        split
        · trivial
        · refine Yields.bind (p := fun _ => True) ?_ fun x _ => ih _
          unfold Numeral.finite
          split <;> trivial
  unfold solve
  refine Build.Ends.getModel_bind fun m => ?_
  refine ((h.solveRounds_ends hsolver _ 0).mono (fun w hw => hw.1) (fun _ _ hv => hv) fun _ _ hf => hf).bind fun b => ?_
  obtain ⟨status, rounds⟩ := b
  dsimp only
  split
  · refine Build.Ends.getModel_bind fun m => ?_
    split
    · exact Build.Ends.lift fun w hw => ⟨hw.1, h.nameless _ trivial⟩
    · refine Build.Ends.lift_bind (hvalue _ _ _) (fun f w hf hw => ⟨hw.1, h.nameless f hf⟩) fun b _ => ?_
      exact Build.Ends.pure fun w hw => hw.1
  · exact Build.Ends.pure fun w hw => hw

end Upkeep
end InfluenceDiagrams
