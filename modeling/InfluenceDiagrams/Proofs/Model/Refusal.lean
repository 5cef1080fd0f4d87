import InfluenceDiagrams.Model.LazyCuts
import InfluenceDiagrams.Proofs.Model.Faults

/-!
# `InfluenceDiagrams.Proofs.Model.Refusal` — a request that is refused leaves the model as it was

A step with a fault keeps what was done before it. The requests that fill a model check what they are given, and look
up the probabilities and utilities of all paths, before they change anything; a notice may be given, but it is not part
of the model. What can fail afterwards are numbers that are too large and names that are taken, and strategy
constraints of variables that do not belong to the diagram. None of these faults has a wording of its own, so that
where a fault has one, or is that of a path that has no probability or no utility, nothing has been changed yet.

## Contents
- **`Fault.Worded`** — the faults with a wording; **`Fault.worded_iff`**.
- **`Build.Refuses`** — steps that leave the model as it was where they have certain faults; `Refuses.lift_bind`,
  `Refuses.of_gives`.
- **`Request`** — what may be asked for while a model is built.
- **`members_eval`, `utilities_eval`** — what has been looked up before the model is changed.
- **`Request.Refusal`** — the faults with which a request is refused.
- **`Request.refuses`**, **`Refusals.model_eq`** — one request, and one after another.
- **`refused_request_keeps_model`** — the main statement.
-/

namespace InfluenceDiagrams

variable {α : Type}

/-! ## Faults with a wording -/

/-- Faults that are raised on purpose and have a wording, unlike those inside a table, a list or a number, and those of
the linear program. -/
def Fault.Worded : Fault α → Prop
  | .outOfRange | .missingKey | .zeroDivisor | .overflow | .beyondWords | .raggedTable
  | .tooManyDimensions | .negativeRoot | .emptyExtremum | .negativeTolerance | .notANumber | .negativeCount
  | .unusableCount | .dimensionsLeft | .shapeMismatch | .notFinite | .duplicateConstraint _ | .noObjective
  | .unreadableProblem => False
  | _ => True

theorem Fault.worded_iff (f : Fault Float) : f.Worded ↔ f.message?.isSome = true := by
  cases f <;> simp [Worded, message?]

theorem Fault.OfProgram.not_worded {f : Fault α} (h : f.OfProgram) : ¬f.Worded := by
  rcases h with h | ⟨name, rfl⟩
  · cases f <;> first | exact not_false | exact h.elim
  · exact not_false

/-! ## Refusing -/

namespace Build

variable {β γ : Type}

/-- The steps leave the model as it was where they have a fault of a certain kind. -/
def Refuses (steps : Build α β) (F : Fault α → Prop) : Prop :=
  ∀ m, steps.Ends (fun w => w.model = m) (fun _ _ => True) fun f w => F f → w.model = m

namespace Refuses

variable {steps : Build α β} {F : Fault α → Prop}

/-- What is computed does not touch the model, and what follows knows the result. -/
theorem lift_bind {x : Except (Fault α) γ} {f : γ → Build α β} (hf : ∀ b, x = .ok b → (f b).Refuses F) :
    Refuses (Build.lift x >>= f) F := by
  intro m
  have hx : Yields x (fun b => x = .ok b) fun _ => True := by cases x <;> trivial
  exact Ends.lift_bind hx (fun _ _ _ hw _ => hw) fun b hb => hf b hb m

theorem lift (x : Except (Fault α) β) : (Build.lift x).Refuses F := by
  intro m
  refine Ends.lift fun w hw => ?_
  cases x with
  | ok b => trivial
  | error f => exact fun _ => hw

/-- A notice is not part of the model. -/
theorem notify_bind {n : Notice} {f : Unit → Build α β} (hf : (f ()).Refuses F) :
    Refuses (Build.notify n >>= f) F :=
  fun m => Ends.bind (Q := fun _ w => w.model = m) (Ends.notify fun _ hw => hw) fun _ => hf m

/-- Steps that have no fault of the kind may change the model. -/
theorem of_gives {p : β → Prop} {E : Fault α → Prop} (h : steps.Gives p E) (hE : ∀ f, E f → ¬F f) :
    steps.Refuses F :=
  fun _ => Ends.mono h (fun _ _ => trivial) (fun _ _ _ => trivial) fun f _ hf hF => absurd hF (hE f hf)

theorem pure (b : β) : (Pure.pure b : Build α β).Refuses F := fun _ => Ends.pure fun _ _ => trivial

end Refuses
end Build

/-! ## Requests -/

/-- What may be asked for while a model is built: the variables of paths, the objectives, the cut on the number of
active paths, and what a callback says of a candidate. -/
inductive Request (α : Type) where
  | pathVariables (dia : Diagram α) (z : List (DecisionVariables α)) (rules : List ForbiddenRule) (fixed : FixedStates)
      (eager : Bool) (scale : α)
  | expectedValue (dia : Diagram α) (x : PathVariables α) (scale : α)
  | tailValue (dia : Diagram α) (x : PathVariables α) (alpha scale : α)
  | activePathsCut (dia : Diagram α) (x : PathVariables α) (tolerance : α)
  | offer (i : Nat) (c : Candidate α)

/-- What a request gives. -/
def Request.Result : Request α → Type
  | .pathVariables .. => PathVariables α
  | .expectedValue .. | .tailValue .. => LinearExpr α
  | .activePathsCut .. => Unit
  | .offer .. => Option (LazyConstraint α)

variable [Scalar α]

/-! ## What has been looked up -/

/-- Where the paths with variables are known, every path that is not forbidden has a probability. -/
theorem members_eval [Lengths] {dia : Diagram α} {rules : List ForbiddenRule} {fixed : FixedStates}
    {ms : List (Path × α)} (h : members dia rules fixed = .ok ms) :
    ∀ s ∈ paths dia.S fixed, isForbidden? s rules = some false → ∃ p, dia.P.eval s = .ok p := by
  have hmember : ∀ s, Yields (memberProb dia rules s)
      (fun _ => isForbidden? s rules = some false → ∃ p, dia.P.eval s = .ok p) fun _ => True := by
    intro s
    unfold memberProb
    cases hhit : isForbidden? s rules with
    | none => trivial
    | some hit =>
        cases hit with
        | true => exact fun hfree => absurd hfree (by simp)
        | false =>
            cases heval : dia.P.eval s with
            | error f => trivial
            | ok p => exact fun _ => ⟨p, rfl⟩
  have hyields : Yields (members dia rules fixed)
      (fun _ => ∀ s ∈ paths dia.S fixed, isForbidden? s rules = some false → ∃ p, dia.P.eval s = .ok p)
      fun _ => True := by
    unfold members
    refine ((listPaths_yields dia.S fixed).mono (fun _ _ hss => hss) fun _ _ => trivial).bind fun ss hss => ?_
    subst hss
    refine (Yields.mapM fun s _ => hmember s).bind fun probs hprobs => ?_
    exact fun s hs => (exists_of_mem_left hprobs hs).elim fun _ h => h.2
  exact hyields.of_ok h

/-- Where the utilities are known, every path with a variable has one. -/
theorem utilities_eval {dia : Diagram α} {ms : List (PathVariable α)} {us : List α}
    (h : utilities dia ms = .ok us) : ∀ m ∈ ms, ∃ u, dia.U.eval m.path = .ok u :=
  fun _ hm => (exists_of_mem_left (forall₂_of_mapM_ok h) hm).imp fun _ hu => hu.2

/-! ## Refused requests -/

namespace Request

/-- What is done when something is asked for. -/
def run [Lengths] : (r : Request α) → Build α r.Result
  | .pathVariables dia z rules fixed eager scale => InfluenceDiagrams.pathVariables dia z rules fixed eager scale
  | .expectedValue dia x scale => Build.lift (InfluenceDiagrams.expectedValue dia x scale)
  | .tailValue dia x alpha scale => InfluenceDiagrams.tailValue dia x alpha scale
  | .activePathsCut dia x tolerance => registerActivePathsCut dia x tolerance
  | .offer i c => InfluenceDiagrams.offer i c

/-- The fault of a path whose probability or utility the request asks for. -/
def FailedLookup (f : Fault α) : Request α → Prop
  | .pathVariables dia _ rules fixed _ _ =>
      ∃ s ∈ paths dia.S fixed, isForbidden? s rules = some false ∧ dia.P.eval s = .error f
  | .expectedValue dia x _ | .tailValue dia x _ _ => ∃ m ∈ x.members, dia.U.eval m.path = .error f
  | .activePathsCut .. | .offer .. => False

/-- The faults with which a request is refused: those with a wording, and those of looking up a probability or a
utility. -/
def Refusal (r : Request α) (f : Fault α) : Prop := f.Worded ∨ r.FailedLookup f

theorem pathVariables_refuses [Lengths] (dia : Diagram α) (z : List (DecisionVariables α)) (rules : List ForbiddenRule)
    (fixed : FixedStates) (eager : Bool) (scale : α) :
    (InfluenceDiagrams.pathVariables dia z rules fixed eager scale).Refuses
      (Request.pathVariables dia z rules fixed eager scale).Refusal := by
  rw [pathVariables_eq]
  refine Build.Refuses.lift_bind fun _ _ => ?_
  extract_lets afterNotice
  have hafter : (afterNotice ()).Refuses (Request.pathVariables dia z rules fixed eager scale).Refusal := by
    refine Build.Refuses.lift_bind fun _ _ => Build.Refuses.lift_bind fun ms hms => ?_
    refine Build.Refuses.of_gives (linkPaths_gives dia z fixed eager scale ms) fun f hf => ?_
    rintro (hworded | ⟨s, hs, hfree, heval⟩)
    · rcases hf with hf | ⟨rfl, -⟩
      · exact hf.not_worded hworded
      · exact hworded
    · -- the probability of the path has been looked up already
      obtain ⟨p, hp⟩ := members_eval hms s hs hfree
      cases heval.symm.trans hp
  split
  · exact Build.Refuses.notify_bind hafter
  · exact hafter

theorem tailValue_refuses (dia : Diagram α) (x : PathVariables α) (alpha scale : α) :
    (InfluenceDiagrams.tailValue dia x alpha scale).Refuses (Request.tailValue dia x alpha scale).Refusal := by
  rw [tailValue_eq]
  refine Build.Refuses.lift_bind fun _ _ => Build.Refuses.lift_bind fun _ _ => Build.Refuses.lift_bind fun _ _ => ?_
  refine Build.Refuses.lift_bind fun us hus => Build.Refuses.lift_bind fun l _ => ?_
  refine Build.Refuses.of_gives (addTail_gives x alpha scale us l) fun f hf => ?_
  rintro (hworded | ⟨m, hm, heval⟩)
  · exact hf.not_worded hworded
  · obtain ⟨u, hu⟩ := utilities_eval hus m hm
    cases heval.symm.trans hu

/-- A cut is registered last. -/
theorem activePathsCut_refuses (dia : Diagram α) (x : PathVariables α) (tolerance : α) (F : Fault α → Prop) :
    (registerActivePathsCut dia x tolerance).Refuses F := by
  unfold registerActivePathsCut
  refine Build.Refuses.lift_bind fun P _ => Build.Refuses.lift_bind fun _ _ => ?_
  refine Build.Refuses.notify_bind (Build.Refuses.lift_bind fun required _ => ?_)
  exact fun m => Build.Ends.modifyModel fun _ _ => trivial

omit [Scalar α] in
/-- A callback is marked when its constraint is there. -/
theorem offer_refuses (i : Nat) (c : Candidate α) (F : Fault α → Prop) :
    (InfluenceDiagrams.offer i c).Refuses F := by
  unfold InfluenceDiagrams.offer
  intro m
  refine Build.Ends.getModel_bind fun m' => ?_
  refine Build.Ends.mono (P := fun w => w.model = m) ?_ (fun _ hw => hw.1) (fun _ _ h => h) fun _ _ h => h
  split
  · exact Build.Refuses.pure _ m
  · split
    · exact Build.Refuses.pure _ m
    · refine Build.Refuses.lift_bind (fun answer _ => ?_) m
      split
      · exact Build.Refuses.pure _
      · exact fun _ => Build.Ends.bind (Q := fun _ _ => True) (Build.Ends.modifyModel fun _ _ => trivial)
          fun _ => Build.Ends.pure fun _ _ => trivial

/-- **One request.** -/
theorem refuses [Lengths] (r : Request α) : r.run.Refuses r.Refusal := by
  cases r with
  | pathVariables dia z rules fixed eager scale => exact pathVariables_refuses dia z rules fixed eager scale
  | expectedValue dia x scale => exact Build.Refuses.lift _
  | tailValue dia x alpha scale => exact tailValue_refuses dia x alpha scale
  | activePathsCut dia x tolerance => exact activePathsCut_refuses dia x tolerance _
  | offer i c => exact offer_refuses i c _

end Request

/-- Requests that are made one after another and are all refused. -/
inductive Refusals [Lengths] : List (Request α) → Workspace α → Workspace α → Prop
  | nil {w : Workspace α} : Refusals [] w w
  | cons {r : Request α} {rs : List (Request α)} {w v u : Workspace α} {f : Fault α}
      (hrun : r.run.runOn w = (.error f, v)) (hf : r.Refusal f) (hrest : Refusals rs v u) : Refusals (r :: rs) w u

/-- **One request after another.** -/
theorem Refusals.model_eq [Lengths] {rs : List (Request α)} {w v : Workspace α} (h : Refusals rs w v) :
    v.model = w.model := by
  induction h with
  | nil => rfl
  | cons hrun hf _ ih => exact ih.trans ((Request.refuses _ _).of_error rfl hrun hf)

/-! ## The main statement -/

/-- **A request that is refused.** Whatever model there is, if a request ends in a fault that has a wording, or in one
of looking up the probability or the utility of a path, the model is what it was: its constraints with their names, the
objective, the counters, the tail objectives, the callbacks with their marks, and the constraints submitted. -/
theorem refused_request_keeps_model [Lengths] (r : Request α) {w v : Workspace α} {f : Fault α}
    (hrun : r.run.runOn w = (.error f, v)) (hf : r.Refusal f) : v.model = w.model :=
  (r.refuses w.model).of_error rfl hrun hf

/-- The paths of the umbrella cannot have variables where a forecast of no kind is fixed. A notice about forbidden
paths has been given by then, but the model stays empty. -/
theorem refused_request_keeps_model_umbrella :
    ∃ v, (Request.pathVariables umbrella [] [⟨[0, 1], [[0, 1]]⟩] (.ofPairs [(1, 2)]) true 1).run.runOn
        ⟨.empty ModelOptions.defaultName, []⟩ = (.error (.invalidFixedState 1 (.outside 2 2)), v) ∧
      v.notices = [.forbiddenPaths] ∧ v.model = .empty ModelOptions.defaultName := by
  refine ⟨⟨.empty ModelOptions.defaultName, [.forbiddenPaths]⟩, rfl, rfl, ?_⟩
  exact refused_request_keeps_model
    (.pathVariables umbrella [] [⟨[0, 1], [[0, 1]]⟩] (.ofPairs [(1, 2)]) true 1)
    (w := ⟨.empty ModelOptions.defaultName, []⟩) rfl (Or.inl trivial)

end InfluenceDiagrams
