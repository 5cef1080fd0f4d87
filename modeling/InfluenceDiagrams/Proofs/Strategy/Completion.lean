import InfluenceDiagrams.Strategy.Compatible
import InfluenceDiagrams.Proofs.Diagram.WellFormed

/-!
# `InfluenceDiagrams.Proofs.Strategy.Completion` — filling in the decisions

Compatible paths are made from chance states by letting the decision nodes select their states one after
the other, in a vector that is used again for the next path. If a decision observes chance nodes and
earlier decisions only, all that it looks at has been written for the present path. Then the vector that
comes out is the one path that has these chance states and that the strategy allows, whatever was in the
vector before.

## Contents
- **`Strategy.allows`** — a path has the selected state at every decision node.
- **`CompatiblePaths.selectStates_cons`, `Selectable.run_spec`** — one decision, and all decisions, select their states.
- **`CompatiblePaths.Runnable`** — no look-up is out of range; **`Runnable.next_spec`**, **`Runnable.pathsFrom_spec`**: the
  vector stays in space, whatever decisions observe.
- **`CompatiblePaths.Fillable`** — what has to hold of the nodes.
- **`next_spec`** — one path: in space, with the given chance states, allowed.
- **`eq_of_chance_eq`** — chance states determine an allowed path.
- **`pathsFrom_spec`** — all paths, by induction on the chance states.
-/

namespace InfluenceDiagrams

/-! ## Allowed paths -/

/-- The path has, at the node of a local strategy, the state that is selected in its information state. -/
def LocalStrategy.agrees (z : LocalStrategy) (s : Path) : Bool :=
  match (subPath? s z.node.info).bind z.choose? with
  | some k => nth? s z.node.index == some k
  | none => false

/-- A strategy allows a path that agrees with all its local strategies. -/
def Strategy.allows (Z : Strategy) (s : Path) : Bool := Z.parts.all fun z => z.agrees s

theorem LocalStrategy.agrees_iff {S : StateCounts} {s : Path} (hs : InSpace S s) {z : LocalStrategy}
    (hinfo : ∀ i ∈ z.node.info, InRange S.length i) (hindex : InRange S.length z.node.index) :
    z.agrees s = true ↔ z.choose? (z.node.info.map (entry s)) = some (entry s z.node.index) := by
  unfold LocalStrategy.agrees
  rw [hs.subPath? hinfo, hs.nth? hindex, Option.bind_some]
  cases z.choose? (z.node.info.map (entry s)) with
  | none => simp
  | some k =>
      show (some (entry s z.node.index) == some k) = true ↔ some k = some (entry s z.node.index)
      rw [beq_iff_eq]
      exact eq_comm

/-! ## Writing states -/

theorem setStates?_spec {S : StateCounts} {nodes : List Node} (hnodup : nodes.Nodup)
    (hrange : ∀ c ∈ nodes, InRange S.length c) :
    ∀ {states : List State}, List.Forall₂ (fun c x => InRange (entry S c) x) nodes states →
      ∀ {v : Path}, InSpace S v → ∃ w, CompatiblePaths.setStates? v (nodes.zip states) = some w ∧
        InSpace S w ∧ nodes.map (entry w) = states ∧
          ∀ k, InRange S.length k → k ∉ nodes → entry w k = entry v k := by
  induction nodes with
  | nil =>
      rintro _ ⟨⟩ v hv
      exact ⟨v, rfl, hv, rfl, fun _ _ _ => rfl⟩
  | cons c nodes ih =>
      rintro _ (_ | @⟨_, x, _, states, hx, hstates⟩) v hv
      have hc := hrange c List.mem_cons_self
      have hcn := (List.nodup_cons.1 hnodup).1
      have hset := hv.set hc hx
      obtain ⟨w, hw, hwin, hwmap, hwelse⟩ := ih (List.nodup_cons.1 hnodup).2
        (fun i hi => hrange i (List.mem_cons_of_mem _ hi)) hstates hset
      have hlen : InRange v.length c := by rw [hv.length_eq]; exact hc
      have hwc : entry w c = x := by
        rw [hwelse c hc hcn, entry_set_self hlen.toNat_lt]
      refine ⟨w, ?_, hwin, by rw [List.map_cons, hwc, hwmap], ?_⟩
      · rw [List.zip_cons_cons, CompatiblePaths.setStates?, replace?_eq_set hlen]
        exact hw
      · intro k hk hkn
        rw [List.mem_cons, not_or] at hkn
        rw [hwelse k hk hkn.2, entry_set_ne hc.1 hk.1 hkn.1]

variable {α : Type}

/-! ## Selecting states -/

/-- **One step.** A decision selects a state of its node in the information state of the vector, and the others go on
from there. Whatever the decision observes, it finds a state there. -/
theorem CompatiblePaths.selectStates_cons {S : StateCounts} (hpos : ∀ n ∈ S, 1 ≤ n) {z : LocalStrategy} (hz : z.Fits S)
    (hindex : InRange S.length z.node.index) (hinfo : ∀ i ∈ z.node.info, InRange S.length i) {v : Path}
    (hv : InSpace S v) (rest : List LocalStrategy) :
    ∃ k, z.choose? (z.node.info.map (entry v)) = some k ∧ InRange (entry S z.node.index) k ∧
      selectStates (α := α) v (z :: rest) = selectStates (v.set z.node.index.toNat k) rest := by
  have hlen : InRange v.length z.node.index := by rw [hv.length_eq]; exact hindex
  obtain ⟨k, hk, hkr, -⟩ := LocalStrategy.choose?_spec hz (Table.indexOf_map hv hinfo)
  refine ⟨k, hk, ?_, ?_⟩
  · have := entry_pos hpos hindex
    rwa [Table.extent, Int.toNat_of_nonneg (by omega)] at hkr
  · rw [selectStates, hv.subPath? hinfo]
    change (z.choose (z.node.info.map (entry v))).bind _ = _
    rw [LocalStrategy.choose, hk]
    change (orFault Fault.outOfRange (replace? v z.node.index k)).bind _ = _
    rw [replace?_eq_set hlen]
    rfl

/-- Decisions in ascending order of their nodes, each of which observes none that is still to come. -/
structure Selectable (S : StateCounts) (parts : List LocalStrategy) : Prop where
  sorted : parts.Pairwise fun y z => y.node.index < z.node.index
  fits : ∀ z ∈ parts, z.Fits S
  index_inRange : ∀ z ∈ parts, InRange S.length z.node.index
  info_inRange : ∀ z ∈ parts, ∀ i ∈ z.node.info, InRange S.length i
  observed : ∀ z ∈ parts, ∀ y ∈ parts, y.node.index ∈ z.node.info → y.node.index < z.node.index

namespace Selectable

variable {S : StateCounts} {z : LocalStrategy} {parts rest : List LocalStrategy} {v : Path}

theorem tail (h : Selectable S (z :: rest)) : Selectable S rest where
  sorted := (List.pairwise_cons.1 h.sorted).2
  fits y hy := h.fits y (List.mem_cons_of_mem _ hy)
  index_inRange y hy := h.index_inRange y (List.mem_cons_of_mem _ hy)
  info_inRange y hy := h.info_inRange y (List.mem_cons_of_mem _ hy)
  observed y hy x hx := h.observed y (List.mem_cons_of_mem _ hy) x (List.mem_cons_of_mem _ hx)

/-- The first decision does not observe its own node. -/
theorem ne_of_mem_info (h : Selectable S (z :: rest)) {i : Node} (hi : i ∈ z.node.info) : i ≠ z.node.index := by
  rintro rfl
  exact absurd (h.observed z List.mem_cons_self z List.mem_cons_self hi) (lt_irrefl _)

/-- The first decision observes none of the later ones. -/
theorem ne_later_of_mem_info (h : Selectable S (z :: rest)) {i : Node} (hi : i ∈ z.node.info) :
    ∀ y ∈ rest, i ≠ y.node.index := by
  rintro y hy rfl
  have hlt := h.observed z List.mem_cons_self y (List.mem_cons_of_mem _ hy) hi
  exact absurd ((List.pairwise_cons.1 h.sorted).1 y hy) (not_lt_of_gt hlt)

/-- **All steps.** The decisions end up selected in the information states of the result, and the other nodes
keep their states. -/
theorem run_spec (h : Selectable S parts) (hpos : ∀ n ∈ S, 1 ≤ n) :
    ∀ {v : Path}, InSpace S v → ∃ w, CompatiblePaths.selectStates (α := α) v parts = .ok w ∧ InSpace S w ∧
      (∀ z ∈ parts, z.agrees w = true) ∧
      ∀ k, InRange S.length k → (∀ z ∈ parts, k ≠ z.node.index) → entry w k = entry v k := by
  induction parts with
  | nil =>
      intro v hv
      exact ⟨v, rfl, hv, fun z hz => absurd hz List.not_mem_nil, fun _ _ _ => rfl⟩
  | cons z rest ih =>
      intro v hv
      have hz := h.index_inRange z List.mem_cons_self
      have hinfo := h.info_inRange z List.mem_cons_self
      obtain ⟨k, hk, hkr, hstep⟩ :=
        CompatiblePaths.selectStates_cons (α := α) hpos (h.fits z List.mem_cons_self) hz hinfo hv rest
      have hlen : InRange v.length z.node.index := by rw [hv.length_eq]; exact hz
      obtain ⟨w, hw, hwin, hwsel, hwelse⟩ := ih h.tail (hv.set hz hkr)
      -- neither what the decision has looked at nor its state is written again
      have hseen : ∀ i ∈ z.node.info, entry w i = entry v i := by
        intro i hi
        rw [hwelse i (hinfo i hi) (h.ne_later_of_mem_info hi),
          entry_set_ne hz.1 (hinfo i hi).1 (h.ne_of_mem_info hi)]
      have hown : entry w z.node.index = k := by
        rw [hwelse _ hz fun y hy => ne_of_lt ((List.pairwise_cons.1 h.sorted).1 y hy), entry_set_self hlen.toNat_lt]
      refine ⟨w, hstep.trans hw, hwin, ?_, ?_⟩
      · intro y hy
        rcases List.mem_cons.1 hy with rfl | hy
        · rw [LocalStrategy.agrees_iff hwin hinfo hz, List.map_congr_left hseen, hk, hown]
        · exact hwsel y hy
      · intro i hi hne
        rw [hwelse i hi fun y hy => hne y (List.mem_cons_of_mem _ hy),
          entry_set_ne hz.1 hi.1 (hne z List.mem_cons_self)]

end Selectable

/-! ## What has to hold of the nodes -/

namespace CompatiblePaths

/-- Chance nodes, each once, and decision nodes with all that they observe lie in the state space, the tables of the
decisions match it, and fixed states are states of their nodes. Decisions may observe any nodes. -/
structure Runnable (cp : CompatiblePaths) : Prop where
  counts_pos : ∀ n ∈ cp.S, 1 ≤ n
  chance_nodup : cp.C.Nodup
  chance_inRange : ∀ c ∈ cp.C, InRange cp.S.length c
  fits : ∀ z ∈ cp.parts, z.Fits cp.S
  index_inRange : ∀ z ∈ cp.parts, InRange cp.S.length z.node.index
  info_inRange : ∀ z ∈ cp.parts, ∀ i ∈ z.node.info, InRange cp.S.length i
  fixed_inRange : ∀ p ∈ cp.fixed.pairs, InRange (entry cp.S p.1) p.2

/-- Every node is a chance node or the node of a local strategy, fixed states are those of chance nodes,
and decisions observe chance nodes and earlier decisions only. -/
structure Fillable (cp : CompatiblePaths) : Prop where
  counts_pos : ∀ n ∈ cp.S, 1 ≤ n
  chance_sorted : cp.C.Pairwise (· < ·)
  parts_sorted : cp.parts.Pairwise fun y z => y.node.index < z.node.index
  covers : ∀ k, InRange cp.S.length k ↔ k ∈ cp.C ∨ ∃ z ∈ cp.parts, z.node.index = k
  disjoint : ∀ c ∈ cp.C, ∀ z ∈ cp.parts, c ≠ z.node.index
  fits : ∀ z ∈ cp.parts, z.Fits cp.S
  info_inRange : ∀ z ∈ cp.parts, ∀ i ∈ z.node.info, InRange cp.S.length i
  observed : ∀ z ∈ cp.parts, ∀ i ∈ z.node.info, i ∈ cp.C ∨ i < z.node.index
  fixed_chance : ∀ p ∈ cp.fixed.pairs, p.1 ∈ cp.C ∧ InRange (entry cp.S p.1) p.2

variable {cp : CompatiblePaths}

namespace Runnable

/-- The states that the chance nodes may take. -/
theorem mem_chance_choices (h : cp.Runnable) {chance : List State}
    (hc : chance ∈ choices (cp.C.map fun c => domain cp.fixed c (entry cp.S c))) :
    List.Forall₂ (fun c x => InRange (entry cp.S c) x) cp.C chance := by
  rw [mem_choices, List.forall₂_map_right_iff] at hc
  refine hc.flip.imp ?_
  intro c x hx
  unfold domain at hx
  split at hx
  · rename_i v hv
    rw [List.mem_singleton.1 hx]
    exact h.fixed_inRange _ (FixedStates.mem_of_state? hv)
  · exact mem_statesBelow.1 hx

theorem start_inSpace (h : cp.Runnable) : InSpace cp.S cp.start := by
  refine ⟨by simp [start], ?_⟩
  intro k hk
  have hpos := entry_pos h.counts_pos hk
  have hzero : entry cp.start k = 0 := by
    rw [entry_eq_getElem (by simpa [start] using hk.toNat_lt)]
    simp [start]
  rw [hzero]
  constructor <;> omega

/-- The decisions find states to select in, which may be those of the path before. -/
theorem selectStates_spec (h : cp.Runnable) {parts : List LocalStrategy} (hparts : ∀ z ∈ parts, z ∈ cp.parts) :
    ∀ {v : Path}, InSpace cp.S v → ∃ w, selectStates (α := α) v parts = .ok w ∧ InSpace cp.S w := by
  induction parts with
  | nil => exact fun hv => ⟨_, rfl, hv⟩
  | cons z rest ih =>
      intro v hv
      have hz := hparts z List.mem_cons_self
      obtain ⟨k, -, hk, hstep⟩ :=
        selectStates_cons (α := α) h.counts_pos (h.fits z hz) (h.index_inRange z hz) (h.info_inRange z hz) hv rest
      rw [hstep]
      exact ih (fun y hy => hparts y (List.mem_cons_of_mem _ hy)) (hv.set (h.index_inRange z hz) hk)

/-- The next vector is in space if the one before was. -/
theorem next_spec (h : cp.Runnable) {v : Path} (hv : InSpace cp.S v) {chance : List State}
    (hc : List.Forall₂ (fun c x => InRange (entry cp.S c) x) cp.C chance) :
    ∃ w, cp.next (α := α) v chance = .ok w ∧ InSpace cp.S w := by
  obtain ⟨u, hu, huin, -⟩ := setStates?_spec h.chance_nodup h.chance_inRange hc hv
  obtain ⟨w, hw, hwin⟩ := h.selectStates_spec (α := α) (fun _ hz => hz) huin
  refine ⟨w, ?_, hwin⟩
  rw [next, hu]
  exact hw

/-- All vectors are in space, by induction on the chance states. -/
theorem pathsFrom_spec (h : cp.Runnable) {chances : List (List State)}
    (hc : ∀ chance ∈ chances, List.Forall₂ (fun c x => InRange (entry cp.S c) x) cp.C chance) :
    ∀ {v : Path}, InSpace cp.S v → ∃ ss, cp.pathsFrom (α := α) v chances = .ok ss ∧
      ss.length = chances.length ∧ ∀ s ∈ ss, InSpace cp.S s := by
  induction chances with
  | nil => exact fun _ => ⟨[], rfl, rfl, fun s hs => absurd hs List.not_mem_nil⟩
  | cons chance chances ih =>
      intro v hv
      obtain ⟨w, hw, hwin⟩ := h.next_spec (α := α) hv (hc chance List.mem_cons_self)
      obtain ⟨ss, hss, hlen, hall⟩ := ih (fun x hx => hc x (List.mem_cons_of_mem _ hx)) hwin
      refine ⟨w :: ss, ?_, by rw [List.length_cons, List.length_cons, hlen], List.forall_mem_cons.2 ⟨hwin, hall⟩⟩
      rw [pathsFrom, hw]
      change (cp.pathsFrom w chances).bind _ = _
      rw [hss]
      rfl

end Runnable

namespace Fillable

theorem chance_inRange (h : cp.Fillable) {c : Node} (hc : c ∈ cp.C) : InRange cp.S.length c :=
  (h.covers c).2 (Or.inl hc)

theorem index_inRange (h : cp.Fillable) {z : LocalStrategy} (hz : z ∈ cp.parts) :
    InRange cp.S.length z.node.index :=
  (h.covers _).2 (Or.inr ⟨z, hz, rfl⟩)

theorem chance_nodup (h : cp.Fillable) : cp.C.Nodup :=
  h.chance_sorted.imp fun hlt => ne_of_lt hlt

theorem within (h : cp.Fillable) : cp.fixed.Within cp.S := by
  intro p hp
  obtain ⟨hc, hstate⟩ := h.fixed_chance p hp
  exact ⟨h.chance_inRange hc, hstate⟩

theorem agrees_iff (h : cp.Fillable) {s : Path} (hs : InSpace cp.S s) {z : LocalStrategy}
    (hz : z ∈ cp.parts) :
    z.agrees s = true ↔ z.choose? (z.node.info.map (entry s)) = some (entry s z.node.index) :=
  LocalStrategy.agrees_iff hs (h.info_inRange z hz) (h.index_inRange hz)

theorem observed_earlier (h : cp.Fillable) {y z : LocalStrategy} (hy : y ∈ cp.parts)
    (hz : z ∈ cp.parts) (hi : y.node.index ∈ z.node.info) : y.node.index < z.node.index := by
  rcases h.observed z hz _ hi with hc | hlt
  · exact absurd rfl (h.disjoint _ hc y hy)
  · exact hlt

theorem selectable (h : cp.Fillable) : Selectable cp.S cp.parts where
  sorted := h.parts_sorted
  fits := h.fits
  index_inRange _ hz := h.index_inRange hz
  info_inRange := h.info_inRange
  observed _ hz _ hy := h.observed_earlier hy hz

theorem runnable (h : cp.Fillable) : cp.Runnable where
  counts_pos := h.counts_pos
  chance_nodup := h.chance_nodup
  chance_inRange _ hc := h.chance_inRange hc
  fits := h.fits
  index_inRange _ hz := h.index_inRange hz
  info_inRange := h.info_inRange
  fixed_inRange p hp := (h.fixed_chance p hp).2

/-! ## One path -/

/-- The next path has the given chance states and is allowed, whatever the vector held before. -/
theorem next_spec (h : cp.Fillable) {v : Path} (hv : InSpace cp.S v) {chance : List State}
    (hc : List.Forall₂ (fun c x => InRange (entry cp.S c) x) cp.C chance) :
    ∃ w, cp.next (α := α) v chance = .ok w ∧ InSpace cp.S w ∧ cp.C.map (entry w) = chance ∧
      ∀ z ∈ cp.parts, z.agrees w = true := by
  -- the chance nodes are written first, and the decisions leave them alone
  obtain ⟨u, hu, huin, humap, -⟩ := setStates?_spec h.chance_nodup
    (fun c hc => h.chance_inRange hc) hc hv
  obtain ⟨w, hw, hwin, hwsel, hwelse⟩ := h.selectable.run_spec (α := α) h.counts_pos huin
  refine ⟨w, ?_, hwin, ?_, hwsel⟩
  · rw [next, hu]
    exact hw
  · rw [← humap]
    apply List.map_congr_left
    intro c hc
    exact hwelse c (h.chance_inRange hc) fun z hz => h.disjoint c hc z hz

/-! ## Chance states determine the path -/

/-- Two allowed paths that agree on the chance nodes below a node, and on all chance nodes that are
observed below it, agree on all nodes below it. -/
theorem entry_eq_of_chance_eq (h : cp.Fillable) {s t : Path} (hs : InSpace cp.S s) (ht : InSpace cp.S t)
    (hsel : ∀ z ∈ cp.parts, z.agrees s = true) (htel : ∀ z ∈ cp.parts, z.agrees t = true) {m : Int}
    (hchance : ∀ c ∈ cp.C, c < m → entry s c = entry t c)
    (hseen : ∀ z ∈ cp.parts, z.node.index < m → ∀ i ∈ z.node.info, i ∈ cp.C → entry s i = entry t i) :
    ∀ k, InRange cp.S.length k → k < m → entry s k = entry t k := by
  intro k
  -- decisions are followed back to chance nodes along observations of earlier nodes
  induction hn : k.toNat using Nat.strong_induction_on generalizing k with
  | _ n ih =>
      subst hn
      intro hk hkm
      rcases (h.covers k).1 hk with hc | ⟨z, hz, rfl⟩
      · exact hchance k hc hkm
      · have hinfo : z.node.info.map (entry s) = z.node.info.map (entry t) := by
          apply List.map_congr_left
          intro i hi
          by_cases hc : i ∈ cp.C
          · exact hseen z hz hkm i hi hc
          · have hlt := (h.observed z hz i hi).resolve_left hc
            have hir := h.info_inRange z hz i hi
            have hi0 := hir.1
            exact ih i.toNat (by lia) i rfl hir (lt_trans hlt hkm)
        have hs' := (h.agrees_iff hs hz).1 (hsel z hz)
        have ht' := (h.agrees_iff ht hz).1 (htel z hz)
        rw [hinfo, ht'] at hs'
        exact (Option.some.inj hs').symm

/-- Two allowed paths with the same chance states are equal. -/
theorem eq_of_chance_eq (h : cp.Fillable) {s t : Path} (hs : InSpace cp.S s) (ht : InSpace cp.S t)
    (hsel : ∀ z ∈ cp.parts, z.agrees s = true) (htel : ∀ z ∈ cp.parts, z.agrees t = true)
    (hchance : cp.C.map (entry s) = cp.C.map (entry t)) : s = t := by
  have hc : ∀ c ∈ cp.C, entry s c = entry t c := List.map_inj_left.1 hchance
  apply ext_entry (by rw [hs.length_eq, ht.length_eq])
  intro k hk
  rw [hs.length_eq] at hk
  exact h.entry_eq_of_chance_eq hs ht hsel htel (m := cp.S.length) (fun c hc' _ => hc c hc')
    (fun _ _ _ i _ hi => hc i hi) k hk hk.2

/-! ## All paths -/

/-- One path for each choice of chance states, in their order. No state of an earlier path is left in a
later one, because `next_spec` asks nothing of the vector but to be in space. -/
theorem pathsFrom_spec (h : cp.Fillable) {chances : List (List State)}
    (hc : ∀ chance ∈ chances, List.Forall₂ (fun c x => InRange (entry cp.S c) x) cp.C chance) :
    ∀ {v : Path}, InSpace cp.S v → ∃ ss, cp.pathsFrom (α := α) v chances = .ok ss ∧
      ss.map (fun s => cp.C.map (entry s)) = chances ∧
      ∀ s ∈ ss, InSpace cp.S s ∧ ∀ z ∈ cp.parts, z.agrees s = true := by
  induction chances with
  | nil =>
      intro v _
      exact ⟨[], rfl, rfl, fun s hs => by cases hs⟩
  | cons chance chances ih =>
      intro v hv
      obtain ⟨w, hw, hwin, hwmap, hwsel⟩ := h.next_spec (α := α) hv (hc chance List.mem_cons_self)
      obtain ⟨ss, hss, hmap, hall⟩ := ih (fun x hx => hc x (List.mem_cons_of_mem _ hx)) hwin
      refine ⟨w :: ss, ?_, by rw [List.map_cons, hwmap, hmap], ?_⟩
      · rw [pathsFrom, hw]
        change (cp.pathsFrom w chances).bind _ = _
        rw [hss]
        rfl
      · intro s hs
        rcases List.mem_cons.1 hs with rfl | hs
        · exact ⟨hwin, hwsel⟩
        · exact hall s hs

end Fillable
end CompatiblePaths
end InfluenceDiagrams
