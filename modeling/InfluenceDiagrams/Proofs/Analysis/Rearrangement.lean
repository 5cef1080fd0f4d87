import InfluenceDiagrams.Analysis.StateProbabilities
import InfluenceDiagrams.Proofs.Strategy.CompatibleOrder

/-!
# `InfluenceDiagrams.Proofs.Analysis.Rearrangement` — the order in which a strategy is given

The vector of states is kept from one path to the next. A decision that observes itself or a later decision sees what
was written there for the path before, so the order in which decisions are filled in shows in the paths. It is the order
of their nodes, though, and not the order in which anyone has listed them: chance nodes and local strategies are sorted
before anything else is done, and as no node has two local strategies there is only one way to sort them.

What can be seen of the paths is a list of them, and the fault that ends it if there is one. Whoever goes through the
paths with a state of his own, and stops with a fault of his own, gets what this trace says and nothing else.

## Contents
- **`CompatiblePaths.checkFixed_congr`**, **`make_rearranged`** — chance nodes and local strategies in another order.
- **`CompatiblePaths.trace`** — the paths and the fault; **`foldPaths_eq_trace`** — going through the paths.
- **`ofDiagram_rearranged`**, **`overPaths_rearranged`**, **`expectedUtility_rearranged`** — what a strategy yields.
- **`rearrangement_unobserved`** — the main statement.
-/

namespace InfluenceDiagrams

variable {α : Type}

namespace CompatiblePaths

/-! ## Another order -/

/-- Fixed states are checked against the chance nodes in whatever order these come. -/
theorem checkFixed_congr {B C : List Node} (hsame : ∀ k, k ∈ B ↔ k ∈ C) (S : StateCounts)
    (pairs : List (Node × State)) : checkFixed (α := α) S B pairs = checkFixed S C pairs := by
  induction pairs with
  | nil => rfl
  | cons p pairs ih =>
      obtain ⟨k, state⟩ := p
      have hcontains : B.contains k = C.contains k := by
        rw [Bool.eq_iff_iff, List.contains_iff_mem, List.contains_iff_mem, hsame]
      rw [checkFixed, checkFixed, hcontains, ih]

/-- Chance nodes and local strategies may both be given in any order. -/
theorem make_rearranged {Y Z : Strategy} {B C : List Node} (hparts : Y.parts.Perm Z.parts)
    (hnodup : (Z.parts.map fun z => z.node.index).Nodup) (hchance : B.Perm C) (S : StateCounts) (fixed : FixedStates) :
    make (α := α) S B Y fixed = make S C Z fixed := by
  -- a node is its own key, so that it would not matter either if one came twice
  have hsorted : (B.mergeSort fun a b => decide (a ≤ b)) = C.mergeSort fun a b => decide (a ≤ b) :=
    mergeSort_perm_eq (fun c => c) (fun _ _ => decide_eq_true_iff) hchance fun _ _ _ _ heq => heq
  rw [make_congr hparts hnodup, make, make, checkFixed_congr (fun _ => hchance.mem_iff), hsorted]

/-! ## What can be seen of the paths -/

/-- The paths for a list of chance states up to the first fault, and that fault. -/
def traceFrom (cp : CompatiblePaths) (v : Path) : List (List State) → List Path × Option (Fault α)
  | [] => ([], none)
  | chance :: rest =>
      match cp.next v chance with
      | .error f => ([], some f)
      | .ok w => (w :: (cp.traceFrom w rest).1, (cp.traceFrom w rest).2)

/-- The compatible paths up to the first fault, and that fault. -/
def trace [Lengths] (cp : CompatiblePaths) : List Path × Option (Fault α) :=
  match cp.chanceStates (α := α) with
  | .error f => ([], some f)
  | .ok chances => cp.traceFrom cp.start chances

/-- Go through a trace: deal with its paths in order, and end with its fault if there is one. -/
def followTrace {σ : Type} (step : σ → Path → Except (Fault α) σ) (init : σ) (trace : List Path × Option (Fault α)) :
    Except (Fault α) σ := do
  let acc ← trace.1.foldlM step init
  match trace.2 with
  | none => .ok acc
  | some f => .error f

variable {σ : Type} (cp : CompatiblePaths) (step : σ → Path → Except (Fault α) σ)

theorem foldFrom_eq_trace (chances : List (List State)) :
    ∀ (v : Path) (acc : σ), cp.foldFrom step v acc chances = followTrace step acc (cp.traceFrom v chances) := by
  induction chances with
  | nil => intro v acc; rfl
  | cons chance chances ih =>
      intro v acc
      rw [foldFrom, traceFrom]
      cases cp.next (α := α) v chance with
      | error f => rfl
      | ok w =>
          change (step acc w).bind (fun acc => cp.foldFrom step w acc chances) =
            ((w :: (cp.traceFrom w chances).1).foldlM step acc).bind _
          rw [List.foldlM_cons]
          cases step acc w with
          | error f => rfl
          | ok next => exact ih w next

/-- Going through the paths is going through their trace. -/
theorem foldPaths_eq_trace [Lengths] (init : σ) : cp.foldPaths step init = followTrace step init cp.trace := by
  rw [foldPaths, trace]
  cases cp.chanceStates (α := α) with
  | error f => rfl
  | ok chances => exact foldFrom_eq_trace cp step chances cp.start init

end CompatiblePaths

/-! ## What a strategy yields -/

section Yield

variable {Y Z : Strategy} (hparts : Y.parts.Perm Z.parts) (hnodup : (Z.parts.map fun z => z.node.index).Nodup)
  (dia : Diagram α)

include hparts hnodup

theorem ofDiagram_rearranged (fixed : FixedStates) :
    CompatiblePaths.ofDiagram dia Y fixed = CompatiblePaths.ofDiagram dia Z fixed :=
  CompatiblePaths.make_rearranged hparts hnodup (.refl _) dia.S fixed

theorem overPaths_rearranged [Lengths] {σ : Type} (step : σ → Path → Except (Fault α) σ) (init : σ) :
    overPaths dia Y step init = overPaths dia Z step init := by
  rw [overPaths, overPaths, ofDiagram_rearranged hparts hnodup]

variable [Scalar α]

theorem expectedUtility_rearranged [Lengths] : expectedUtility dia Y = expectedUtility dia Z :=
  overPaths_rearranged hparts hnodup dia _ 0

theorem utilityDistribution_rearranged [Lengths] : utilityDistribution dia Y = utilityDistribution dia Z := by
  rw [utilityDistribution, utilityDistribution, overPaths_rearranged hparts hnodup]

theorem stateProbabilities_rearranged [Lengths] (node : Option Node) (state : Option State)
    (prior : Option (StateProbabilities α)) :
    stateProbabilities dia Y node state prior = stateProbabilities dia Z node state prior := by
  have hunconditional : StateProbabilities.unconditional dia Y = StateProbabilities.unconditional dia Z := by
    rw [StateProbabilities.unconditional, StateProbabilities.unconditional, ofDiagram_rearranged hparts hnodup]
  have hgiven : ∀ (prior : StateProbabilities α) (k : Node) (s : State),
      prior.given dia Y k s = prior.given dia Z k s := by
    intro prior k s
    rw [StateProbabilities.given, StateProbabilities.given, ofDiagram_rearranged hparts hnodup]
  unfold stateProbabilities
  cases node with
  | none => exact hunconditional
  | some k =>
      cases state with
      | none => rfl
      | some s =>
          cases prior with
          | none =>
              change (StateProbabilities.unconditional dia Y).bind _ = (StateProbabilities.unconditional dia Z).bind _
              rw [hunconditional]
              congr 1
              funext prior
              exact hgiven prior k s
          | some prior => exact hgiven prior k s

end Yield

/-! ## The main statement -/

/-- **Rearranging a strategy.** Let no node have two local strategies, whatever these observe, and let the local
strategies and the chance nodes be given in any two orders, over any state space and with any fixed states. The
compatible paths are the same, or they are refused with the same fault: their trace is the same, path by path and with
the fault that ends it, and going through them with any state, whatever is done with a path and however that may fail,
is following that trace. For every diagram the expected utility, the distribution of the utility and all state
probabilities on top of any earlier ones are the same, faults included. -/
theorem rearrangement_unobserved [Lengths] {α : Type} [Scalar α] {Y Z : Strategy} (hparts : Y.parts.Perm Z.parts)
    (hnodup : (Z.parts.map fun z => z.node.index).Nodup) :
    (∀ (S : StateCounts) {B C : List Node}, B.Perm C → ∀ fixed : FixedStates,
      CompatiblePaths.make (α := α) S B Y fixed = CompatiblePaths.make S C Z fixed ∧
      ∃ outcome : Except (Fault α) (List Path × Option (Fault α)),
        (CompatiblePaths.make S B Y fixed).map CompatiblePaths.trace = outcome ∧
        (CompatiblePaths.make S C Z fixed).map CompatiblePaths.trace = outcome ∧
        ∀ {σ : Type} (step : σ → Path → Except (Fault α) σ) (init : σ),
          ((CompatiblePaths.make S B Y fixed).bind fun cp => cp.foldPaths step init) =
            outcome.bind (CompatiblePaths.followTrace step init)) ∧
    ∀ dia : Diagram α, expectedUtility dia Y = expectedUtility dia Z ∧
      utilityDistribution dia Y = utilityDistribution dia Z ∧
      ∀ (node : Option Node) (state : Option State) (prior : Option (StateProbabilities α)),
        stateProbabilities dia Y node state prior = stateProbabilities dia Z node state prior := by
  constructor
  · intro S B C hchance fixed
    have hmake := CompatiblePaths.make_rearranged (α := α) hparts hnodup hchance S fixed
    refine ⟨hmake, _, rfl, by rw [hmake], ?_⟩
    intro σ step init
    cases CompatiblePaths.make (α := α) S B Y fixed with
    | error f => rfl
    | ok cp => exact CompatiblePaths.foldPaths_eq_trace cp step init
  · intro dia
    exact ⟨expectedUtility_rearranged hparts hnodup dia, utilityDistribution_rearranged hparts hnodup dia,
      stateProbabilities_rearranged hparts hnodup dia⟩

/-- The first decision observes itself and the second one, so that it looks at the path before twice. The second one
knows three sides of a die. -/
def backward : Strategy :=
  ⟨[⟨⟨1, [1, 3]⟩, ⟨[2, 2, 2], [false, true, true, false, true, false, false, true], rfl⟩⟩,
    ⟨⟨3, [2]⟩, ⟨[3, 2], [true, false, false, true, true, false], rfl⟩⟩]⟩

/-- Three paths can be made, and the fourth one cannot, since the die has a fourth side. It is the same if both the
chance nodes and the decisions are listed the other way round. -/
theorem rearrangement_unobserved_backward :
    (∃ cp, CompatiblePaths.make (α := Rat) [2, 2, 4, 2] [2, 0] ⟨backward.parts.reverse⟩ .empty = .ok cp ∧
      cp.trace (α := Rat) = ([[0, 1, 0, 0], [0, 0, 1, 1], [0, 0, 2, 0]], some .outOfRange)) ∧
      ∀ dia : Diagram Rat, expectedUtility dia ⟨backward.parts.reverse⟩ = expectedUtility dia backward := by
  obtain ⟨hpaths, hyield⟩ := rearrangement_unobserved (α := Rat) (Y := ⟨backward.parts.reverse⟩)
    (List.reverse_perm backward.parts) (by decide)
  obtain ⟨hmake, -⟩ := hpaths [2, 2, 4, 2] (List.Perm.swap 0 2 []) .empty
  refine ⟨⟨⟨[2, 2, 4, 2], [0, 2], backward.parts, .empty⟩, ?_, rfl⟩, fun dia => (hyield dia).1⟩
  -- the other way round, both are in order
  rw [hmake, CompatiblePaths.make, List.mergeSort_of_pairwise (by decide), List.mergeSort_of_pairwise (by decide)]
  rfl

end InfluenceDiagrams
