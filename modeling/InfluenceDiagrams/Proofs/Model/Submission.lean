import Mathlib.Data.List.Induction
import InfluenceDiagrams.Model.Solve
import InfluenceDiagrams.Proofs.Model.Building

/-!
# `InfluenceDiagrams.Proofs.Model.Submission` — what lazy callbacks submit

A callback that has an answer to a candidate either objects to it, by submitting its constraint, or does not.
Submitting marks the callback and records the constraint, and a callback that is marked submits nothing, so that
from one model to a later one every callback has submitted at most once.

## Contents
- **`Submission`, `DecisionModel.submissionAt`, `DecisionModel.submissions`** — what is submitted at a candidate.
- **`DecisionModel.recordAll`** — the model when some constraints have been submitted.
- **`exists_of_mem_record`** — what recording a constraint does to the callbacks.
- **`offer_eq`, `offerAll_eq`** — the program shows a candidate to one callback, and to all of them.
- **`Submits`** — from one model to another some constraints have been submitted; `Submits.trans`.
-/

namespace InfluenceDiagrams

variable {α : Type}

/-- A constraint that the callback in some place submits under its name. -/
structure Submission (α : Type) where
  place : Nat
  name : String
  cut : LazyConstraint α

namespace DecisionModel

/-- Every callback has an answer to every candidate. -/
def Answering (m : DecisionModel α) : Prop :=
  ∀ cb ∈ m.callbacks, ∀ c, ∃ answer, cb.evaluate c = .ok answer

/-- Every callback that has not submitted has an answer to one candidate. -/
def AnswersTo (m : DecisionModel α) (c : Candidate α) : Prop :=
  ∀ cb ∈ m.callbacks, cb.added = false → ∃ answer, cb.evaluate c = .ok answer

/-- What the callback in a place submits at a candidate; nothing if it has submitted before. -/
def submissionAt (m : DecisionModel α) (c : Candidate α) (i : Nat) : Option (Submission α) :=
  (m.callbacks[i]?).bind fun cb =>
    if cb.added then none
    else
      match cb.evaluate c with
      | .ok (some cut) => some ⟨i, cb.name, cut⟩
      | _ => none

/-- What the callbacks submit at a candidate, in the order of their registration. -/
def submissions (m : DecisionModel α) (c : Candidate α) : List (Submission α) :=
  (List.range m.callbacks.length).filterMap (m.submissionAt c)

/-- The model when a constraint has been submitted: its callback is marked, and it is recorded. -/
def record (m : DecisionModel α) (s : Submission α) : DecisionModel α :=
  { m with
    callbacks := m.callbacks.modify s.place fun cb => { cb with added := true }
    submitted := m.submitted ++ [(s.name, s.cut)] }

/-- The model when some constraints have been submitted, one after the other. -/
def recordAll (m : DecisionModel α) (ss : List (Submission α)) : DecisionModel α := ss.foldl record m

end DecisionModel

/-- The workspace when some constraints have been submitted. -/
def Workspace.recordAll (w : Workspace α) (ss : List (Submission α)) : Workspace α :=
  { w with model := w.model.recordAll ss }

namespace DecisionModel

variable {m : DecisionModel α} {c : Candidate α} {i : Nat} {s : Submission α}

theorem recordAll_append (m : DecisionModel α) (a b : List (Submission α)) :
    m.recordAll (a ++ b) = (m.recordAll a).recordAll b :=
  List.foldl_append

theorem problem_recordAll (m : DecisionModel α) (ss : List (Submission α)) :
    (m.recordAll ss).problem = m.problem := by
  induction ss generalizing m with
  | nil => rfl
  | cons s ss ih => exact ih (m.record s)

theorem record_callbacks (m : DecisionModel α) (s : Submission α) (i : Nat) :
    (m.record s).callbacks[i]? =
      (m.callbacks[i]?).map fun cb => if s.place = i then { cb with added := true } else cb := by
  rw [record, List.getElem?_modify]
  by_cases hi : s.place = i
  · simp [hi]
  · simp [hi]

/-- What a callback that has not submitted anything has to say. -/
theorem submissionAt_eq {cb : LazyCallback α} {answer : Option (LazyConstraint α)} (hcb : m.callbacks[i]? = some cb)
    (hadded : cb.added = false) (hanswer : cb.evaluate c = .ok answer) :
    m.submissionAt c i = answer.map fun cut => ⟨i, cb.name, cut⟩ := by
  rw [submissionAt, hcb, Option.bind_some, hadded, hanswer]
  cases answer <;> rfl

theorem submissionAt_eq_some (h : m.submissionAt c i = some s) :
    ∃ cb, m.callbacks[i]? = some cb ∧ cb.added = false ∧ cb.evaluate c = .ok (some s.cut) ∧
      s = ⟨i, cb.name, s.cut⟩ := by
  obtain ⟨cb, hcb, h⟩ := Option.bind_eq_some_iff.1 h
  refine ⟨cb, hcb, ?_⟩
  split at h
  · cases h
  · rename_i hadded
    split at h
    · rename_i cut hcut
      obtain rfl := Option.some.inj h
      exact ⟨by simpa using hadded, hcut, rfl⟩
    · cases h

/-- What one callback submits has nothing to do with whether another one has submitted. -/
theorem submissionAt_record (h : s.place ≠ i) : (m.record s).submissionAt c i = m.submissionAt c i := by
  rw [submissionAt, submissionAt, record_callbacks]
  simp only [h, if_false, Option.map_id']

theorem submissionAt_recordAll {ss : List (Submission α)} (h : ∀ s ∈ ss, s.place ≠ i) :
    (m.recordAll ss).submissionAt c i = m.submissionAt c i := by
  induction ss generalizing m with
  | nil => rfl
  | cons s ss ih =>
      obtain ⟨hs, hss⟩ := List.forall_mem_cons.1 h
      exact (ih hss).trans (submissionAt_record hs)

/-- Recording a submission does not change what the callbacks say, and it changes marked callbacks only. -/
theorem exists_of_mem_record {cb : LazyCallback α} (h : cb ∈ (m.record s).callbacks) :
    ∃ old ∈ m.callbacks, cb.evaluate = old.evaluate ∧ (cb.added = false → cb = old) := by
  obtain ⟨i, hi⟩ := List.getElem?_of_mem h
  rw [record_callbacks, Option.map_eq_some_iff] at hi
  obtain ⟨old, hold, rfl⟩ := hi
  refine ⟨old, List.mem_of_getElem? hold, ?_⟩
  split
  · exact ⟨rfl, fun hadded => by cases hadded⟩
  · exact ⟨rfl, fun _ => rfl⟩

theorem Answering.record (h : m.Answering) (s : Submission α) : (m.record s).Answering := by
  intro cb hcb
  obtain ⟨old, hold, heq, -⟩ := exists_of_mem_record hcb
  rw [heq]
  exact h old hold

theorem Answering.recordAll (h : m.Answering) (ss : List (Submission α)) : (m.recordAll ss).Answering := by
  induction ss generalizing m with
  | nil => exact h
  | cons s ss ih => exact ih (h.record s)

theorem Answering.answersTo (h : m.Answering) (c : Candidate α) : m.AnswersTo c := fun cb hcb _ => h cb hcb c

theorem AnswersTo.record (h : m.AnswersTo c) (s : Submission α) : (m.record s).AnswersTo c := by
  intro cb hcb hadded
  -- a callback that is marked is not asked
  obtain ⟨old, hold, -, heq⟩ := exists_of_mem_record hcb
  obtain rfl := heq hadded
  exact h cb hold hadded

theorem AnswersTo.recordAll (h : m.AnswersTo c) (ss : List (Submission α)) : (m.recordAll ss).AnswersTo c := by
  induction ss generalizing m with
  | nil => exact h
  | cons s ss ih => exact ih (h.record s)

end DecisionModel

/-! ## The program -/

section Program

variable {w : Workspace α} (c : Candidate α)

/-- **One callback.** -/
theorem offer_eq (h : w.model.AnswersTo c) (i : Nat) :
    (offer i c).runOn w = (.ok ((w.model.submissionAt c i).map Submission.cut),
      w.recordAll (w.model.submissionAt c i).toList) := by
  unfold offer
  rw [Build.runOn_bind_ok (Build.runOn_getModel w), DecisionModel.submissionAt]
  cases hcb : w.model.callbacks[i]? with
  | none => rfl
  | some cb =>
      dsimp only [Option.bind_some]
      by_cases hadded : cb.added = true
      · rw [if_pos hadded, if_pos hadded]
        rfl
      · rw [if_neg hadded, if_neg hadded]
        obtain ⟨answer, hanswer⟩ := h cb (List.mem_of_getElem? hcb) (by simpa using hadded)
        rw [Build.runOn_bind_ok (Build.runOn_lift_ok hanswer w), hanswer]
        cases answer with
        | none => rfl
        | some cut =>
            rw [Build.runOn_bind_ok (Build.runOn_modifyModel _ w)]
            rfl

/-- A callback that does not object leaves everything as it is. -/
theorem offer_eq_none {i : Nat} {cb : LazyCallback α} (hcb : w.model.callbacks[i]? = some cb)
    (hanswer : cb.evaluate c = .ok none) : (offer i c).runOn w = (.ok none, w) := by
  unfold offer
  rw [Build.runOn_bind_ok (Build.runOn_getModel w), hcb]
  dsimp only
  split
  · rfl
  · rw [Build.runOn_bind_ok (Build.runOn_lift_ok hanswer w)]
    rfl

/-- **All callbacks.** A callback sees the same model as if it were asked alone. -/
theorem offerAll_eq (h : w.model.AnswersTo c) {places : List Nat} (hplaces : places.Nodup) :
    (offerAll c places).runOn w = (.ok ((places.filterMap (w.model.submissionAt c)).map Submission.cut),
      w.recordAll (places.filterMap (w.model.submissionAt c))) := by
  induction places generalizing w with
  | nil => rfl
  | cons i places ih =>
      obtain ⟨hi, hplaces⟩ := List.nodup_cons.1 hplaces
      let first := (w.model.submissionAt c i).toList
      have hfirst : ∀ j ∈ places, ∀ s ∈ first, s.place ≠ j := by
        rintro j hj s hs rfl
        obtain ⟨cb, -, -, -, heq⟩ := DecisionModel.submissionAt_eq_some (Option.mem_toList.1 hs)
        rw [heq] at hj
        exact hi hj
      have hrest : places.filterMap ((w.recordAll first).model.submissionAt c) =
          places.filterMap (w.model.submissionAt c) :=
        List.filterMap_congr fun j hj => DecisionModel.submissionAt_recordAll (hfirst j hj)
      have hall : (i :: places).filterMap (w.model.submissionAt c) =
          first ++ places.filterMap (w.model.submissionAt c) := by
        rw [List.filterMap_cons]
        cases hs : w.model.submissionAt c i <;> simp [first, hs]
      have hrun := ih (w := w.recordAll first) (h.recordAll first) hplaces
      rw [hrest] at hrun
      unfold offerAll
      rw [Build.runOn_bind_ok (offer_eq c h i), Build.runOn_bind_ok hrun, hall, List.map_append]
      show (_, (w.recordAll first).recordAll _) = (_, w.recordAll _)
      rw [Workspace.recordAll, Workspace.recordAll, Workspace.recordAll, DecisionModel.recordAll_append]
      cases hs : w.model.submissionAt c i <;> simp [first, hs]

end Program

/-! ## Submitting at most once -/

theorem countP_modify {β : Type} {p : β → Bool} {f : β → β} {xs : List β} {i : Nat} {x : β}
    (hx : xs[i]? = some x) (hp : p x = true) (hf : p (f x) = false) : (xs.modify i f).countP p + 1 = xs.countP p := by
  induction xs generalizing i with
  | nil => cases hx
  | cons y xs ih =>
      cases i with
      | zero =>
          obtain rfl := Option.some.inj hx
          simp [hp, hf]
      | succ i =>
          rw [List.modify_succ_cons, List.countP_cons, List.countP_cons, ← ih hx]
          omega

/-- From one model to another some constraints have been submitted: each is recorded, its callback had not
submitted before and is marked now, and no two are from the same callback. -/
structure Submits (m : DecisionModel α) (ss : List (Submission α)) (m' : DecisionModel α) : Prop where
  recorded : m'.submitted = m.submitted ++ ss.map fun s => (s.name, s.cut)
  marked : ∀ i, m'.callbacks[i]? =
    (m.callbacks[i]?).map fun cb => if i ∈ ss.map Submission.place then { cb with added := true } else cb
  unmarked : ∀ s ∈ ss, ∃ cb, m.callbacks[s.place]? = some cb ∧ cb.name = s.name ∧ cb.added = false ∧
    ∃ c, cb.evaluate c = .ok (some s.cut)
  places_nodup : (ss.map Submission.place).Nodup
  pending : pendingCallbacks m' + ss.length = pendingCallbacks m

namespace Submits

variable {m m' m'' : DecisionModel α} {ss ss' : List (Submission α)}

/-- Nothing has been submitted. -/
theorem refl (hsubmitted : m'.submitted = m.submitted) (hcallbacks : m'.callbacks = m.callbacks) :
    Submits m [] m' where
  recorded := by simp [hsubmitted]
  marked i := by simp [hcallbacks]
  unmarked s hs := absurd hs List.not_mem_nil
  places_nodup := List.nodup_nil
  pending := by rw [pendingCallbacks, pendingCallbacks, hcallbacks, List.length_nil, Nat.add_zero]

/-- A callback that submits later has not submitted before. -/
theorem trans (h : Submits m ss m') (h' : Submits m' ss' m'') : Submits m (ss ++ ss') m'' where
  recorded := by rw [h'.recorded, h.recorded, List.map_append, List.append_assoc]
  marked i := by
    rw [h'.marked, h.marked, Option.map_map]
    congr 1
    funext cb
    simp only [Function.comp_apply, List.map_append, List.mem_append]
    by_cases hi : i ∈ ss.map Submission.place <;> by_cases hi' : i ∈ ss'.map Submission.place <;> simp [hi, hi']
  unmarked := by
    rw [List.forall_mem_append]
    refine ⟨h.unmarked, ?_⟩
    intro s hs
    obtain ⟨cb, hcb, hname, hadded, c, hcut⟩ := h'.unmarked s hs
    rw [h.marked, Option.map_eq_some_iff] at hcb
    obtain ⟨old, hold, rfl⟩ := hcb
    by_cases hi : s.place ∈ ss.map Submission.place
    · rw [if_pos hi] at hadded
      cases hadded
    · rw [if_neg hi] at hname hadded hcut
      exact ⟨old, hold, hname, hadded, c, hcut⟩
  places_nodup := by
    rw [List.map_append, List.nodup_append]
    refine ⟨h.places_nodup, h'.places_nodup, ?_⟩
    rintro i hi j hj rfl
    obtain ⟨s, hs, rfl⟩ := List.mem_map.1 hj
    obtain ⟨cb, hcb, -, hadded, -⟩ := h'.unmarked s hs
    rw [h.marked, Option.map_eq_some_iff] at hcb
    obtain ⟨old, -, rfl⟩ := hcb
    rw [if_pos hi] at hadded
    cases hadded
  pending := by
    have := h.pending
    have := h'.pending
    rw [List.length_append]
    omega

/-- One callback submits its constraint. -/
theorem record {c : Candidate α} {i : Nat} {s : Submission α} (hs : m.submissionAt c i = some s) :
    Submits m [s] (m.record s) := by
  obtain ⟨cb, hcb, hadded, hcut, heq⟩ := DecisionModel.submissionAt_eq_some hs
  have hplace : s.place = i := congrArg Submission.place heq
  have hname : cb.name = s.name := (congrArg Submission.name heq).symm
  constructor
  case recorded => rfl
  case marked =>
    intro j
    rw [DecisionModel.record_callbacks]
    simp only [List.map_singleton, List.mem_singleton, @eq_comm _ j]
  case unmarked =>
    intro t ht
    rw [List.mem_singleton.1 ht, hplace]
    exact ⟨cb, hcb, hname, hadded, c, hcut⟩
  case places_nodup => exact List.nodup_singleton _
  case pending =>
    rw [hplace.symm] at hcb
    exact countP_modify hcb (by rw [hadded]; rfl) rfl

/-- Callbacks in different places submit their constraints. -/
theorem recordAll {c : Candidate α} {places : List Nat} (hplaces : places.Nodup) :
    Submits m (places.filterMap (m.submissionAt c)) (m.recordAll (places.filterMap (m.submissionAt c))) := by
  induction places using List.reverseRecOn with
  | nil => exact refl rfl rfl
  | append_singleton places i ih =>
      rw [List.nodup_append] at hplaces
      have hbefore := ih hplaces.1
      rw [List.filterMap_append]
      cases hs : m.submissionAt c i with
      | none => simpa [hs] using hbefore
      | some s =>
          rw [List.filterMap_cons_some hs, List.filterMap_nil, DecisionModel.recordAll_append]
          refine hbefore.trans (record (c := c) (i := i) ?_)
          rw [DecisionModel.submissionAt_recordAll, hs]
          rintro t ht rfl
          obtain ⟨j, hj, hjt⟩ := List.mem_filterMap.1 ht
          obtain ⟨cb, -, -, -, heq⟩ := DecisionModel.submissionAt_eq_some hjt
          exact hplaces.2.2 j hj t.place (by simp) (congrArg Submission.place heq).symm

end Submits
end InfluenceDiagrams
