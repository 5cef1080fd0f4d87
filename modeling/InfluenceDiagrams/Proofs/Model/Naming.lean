import Mathlib.Logic.Relation
import InfluenceDiagrams.Proofs.Model.Labels
import InfluenceDiagrams.Proofs.Model.Snapshot
import InfluenceDiagrams.Proofs.Model.TailConstraints

/-!
# `InfluenceDiagrams.Proofs.Model.Naming` — no name is used twice

After a model has been built, tail objectives are added to it, objectives are set, lazy cuts are registered and the
model is solved, in any order and any number of times. The variables that come in are named after what they
stand for, and every tail objective has a number of its own, so that no two variables have the same name. The
constraints of a tail objective are named after its number or not at all, and those that callbacks submit have no
names of their own; a constraint without a name gets one that is not taken. So no constraint is ever refused, and a
candidate has one value for every variable.

## Contents
- **`Variable.Labelled`** — a variable that stands for something, with expressions and constraints of such variables.
- **`Problem.Named`, `DecisionModel.Named`** — the invariant; what the steps on problems do to it.
- **`PathVariables.named_upkeep`** — a run keeps it.
- **`tailValue_ends`** — a tail objective keeps it.
- **`Revision`** — what may be done with a model that was built; **`Revision.named`** keeps it, too.
- **`createdLabels`**, **`Assembled.created_nodup`** — the variables that were created have distinct names.
- **`names_distinct`** — the main statement.
-/

namespace InfluenceDiagrams

variable {α : Type}

/-! ## Labelled variables -/

/-- The variable stands for something that the program has variables for. -/
def Variable.Labelled (v : Variable α) : Prop := ∃ l : Label, v.key = l.key

/-- Only labelled variables occur in the expression. -/
def LinearExpr.Labelled (e : LinearExpr α) : Prop := ∀ v ∈ e.vars, v.Labelled

/-- Only labelled variables occur in the constraint. -/
def Constraint.Labelled (c : Constraint α) : Prop := ∀ v ∈ c.vars, v.Labelled

/-- Labelled variables with one name are one variable. -/
theorem Variable.Labelled.key_eq_of_name {u v : Variable α} (hu : u.Labelled) (hv : v.Labelled)
    (h : u.name = v.name) : u.key = v.key := by
  obtain ⟨a, ha⟩ := hu
  obtain ⟨b, hb⟩ := hv
  rw [Variable.name, Variable.name, ha, hb] at h
  rw [ha, hb, Label.text_injective h]

/-- Distinct labelled variables have distinct names. -/
theorem names_nodup_of_keys {vs : List (Variable α)} (hvs : ∀ v ∈ vs, v.Labelled) (h : (vs.map Variable.key).Nodup) :
    (vs.map Variable.name).Nodup := by
  rw [List.Nodup, List.pairwise_map] at h ⊢
  exact h.imp_of_mem fun hu hv hne heq => hne ((hvs _ hu).key_eq_of_name (hvs _ hv) heq)

section Expressions

variable [Scalar α] {v : Variable α} {e f : LinearExpr α}

theorem anchor_labelled : (Problem.anchor (α := α)).Labelled := ⟨.anchor, Label.key_anchor.symm⟩

theorem ofVar_labelled (hv : v.Labelled) : (LinearExpr.ofVar v).Labelled := List.forall_mem_singleton.2 hv

theorem multiple_labelled (c : α) (hv : v.Labelled) :
    Yields (LinearExpr.multiple c v) LinearExpr.Labelled Fault.Nameless :=
  (multiple_yields c v).mono (fun _ _ he u hu => he.1 u hu ▸ hv) fun _ hf => hf.nameless

theorem scale_labelled (c : α) (he : e.Labelled) : Yields (LinearExpr.scale c e) LinearExpr.Labelled Fault.Nameless :=
  (scale_yields c e).mono (fun _ _ hm u hu => he u (hm.1 u hu)) fun _ hf => hf.nameless

theorem subNumber_labelled (c : α) (he : e.Labelled) : Yields (e.subNumber c) LinearExpr.Labelled Fault.Nameless :=
  (subNumber_yields e c).mono (fun _ _ hm u hu => he u (hm ▸ hu)) fun _ hf => hf.nameless

theorem LinearExpr.Labelled.sub (he : e.Labelled) (hf : f.Labelled) : (e.sub f).Labelled :=
  fun u hu => (LinearExpr.vars_sub hu).elim (he u) (hf u)

/-- The nine constraints of a path are made of labelled variables. -/
theorem TailLevels.constraints_labelled (l : TailLevels α) {quantile x : Variable α} {row : TailRow α}
    (hquantile : quantile.Labelled) (hbelow : row.below.Labelled) (hatMost : row.atMost.Labelled)
    (hstrict : row.strictMass.Labelled) (hmass : row.mass.Labelled) (hx : x.Labelled) (u p scale : α) :
    ∀ c ∈ l.constraints quantile row u p scale x, Yields c Constraint.Labelled Fault.Nameless := by
  have hdistance := subNumber_labelled u (ofVar_labelled hquantile)
  have haffine : ∀ (factor number : α) {v : Variable α}, v.Labelled →
      Yields (affine factor v number) LinearExpr.Labelled Fault.Nameless :=
    fun factor number v hv => (multiple_labelled factor hv).bind fun e he => subNumber_labelled number he
  have hone : Yields (LinearExpr.ofNumber (1 : α)) LinearExpr.Labelled Fault.Nameless := by
    unfold LinearExpr.ofNumber
    split
    · exact fun v hv => absurd hv List.not_mem_nil
    · trivial
  simp only [TailLevels.constraints, List.forall_mem_cons, List.not_mem_nil, false_implies, implies_true, and_true]
  refine ⟨?_, ?_, ?_, ?_, ?_, ?_, ?_, ?_, ?_⟩
  · exact hdistance.bind fun d hd => (multiple_labelled _ hbelow).bind fun e he => hd.sub he
  · exact hdistance.bind fun d hd => (haffine _ _ hbelow).bind fun e he => hd.sub he
  · exact hdistance.bind fun d hd => (haffine _ _ hatMost).bind fun e he => hd.sub he
  · exact hdistance.bind fun d hd => (subNumber_labelled 1 (ofVar_labelled hatMost)).bind fun e he =>
      (scale_labelled _ he).bind fun f hf => hd.sub hf
  · exact (multiple_labelled _ hbelow).bind fun e he => (ofVar_labelled hstrict).sub he
  · exact (multiple_labelled _ hatMost).bind fun e he => (ofVar_labelled hmass).sub he
  · exact (ofVar_labelled hstrict).sub (ofVar_labelled hmass)
  · exact (multiple_labelled _ hx).bind fun e he => (ofVar_labelled hmass).sub he
  · exact (multiple_labelled _ hx).bind fun taken htaken => hone.bind fun one hone =>
      (scale_labelled _ (hone.sub (ofVar_labelled hbelow))).bind fun slack hslack =>
        (htaken.sub hslack).sub (ofVar_labelled hstrict)

end Expressions

/-! ## The invariant -/

/-- The name of the constraint on the mass of the tail in a tail objective with a number. -/
def massName (k : Nat) : String := "cvar_mass_" ++ toString k

theorem massName_injective : Function.Injective massName :=
  fun _ _ h => natToString_injective (String.append_right_inj _ |>.1 h)

theorem massName_ne_automaticName (k n : Nat) : massName k ≠ automaticName n :=
  Diagram.append_ne_append (by decide) (by decide) (by decide) _ _

/-- The constraints have distinct names, numbers of tail objectives in them lie below a bound, and the variables that
have been met or occur in the objective are labelled, none of them met twice. -/
structure Problem.Named (p : Problem α) (bound : Nat) : Prop where
  names : (p.constraints.map Prod.fst).Nodup
  numbers : ∀ k, massName k ∈ p.constraints.map Prod.fst → k < bound
  keys : (p.met.map Variable.key).Nodup
  met : ∀ v ∈ p.met, v.Labelled
  objective : ∀ e, p.objective = some e → e.Labelled

namespace Problem.Named

variable {p : Problem α} {n : Nat}

theorem mono (h : p.Named n) {n' : Nat} (hn : n ≤ n') : p.Named n' :=
  { h with numbers := fun k hk => Nat.lt_of_lt_of_le (h.numbers k hk) hn }

theorem observe (h : p.Named n) : p.observe.Named n := by
  have hsame : p.observe.constraints = p.constraints ∧ p.observe.objective = p.objective := by
    unfold Problem.observe
    split <;> exact ⟨rfl, rfl⟩
  refine ⟨hsame.1 ▸ h.names, hsame.1 ▸ h.numbers, observe_keys_nodup h.keys, fun v hv => ?_, hsame.2 ▸ h.objective⟩
  rcases mem_met_observe hv with hv | ⟨e, he, hv⟩
  · exact h.met v hv
  · exact h.objective e he v hv

/-- Another objective over labelled variables. -/
theorem aim (h : p.Named n) {objective : Option (LinearExpr α)} (ho : ∀ e, objective = some e → e.Labelled)
    (sense : Sense) : Problem.Named { p with objective := objective, sense := sense } n :=
  ⟨h.names, h.numbers, h.keys, h.met, ho⟩

theorem withAnchor [Scalar α] (h : p.Named n) : p.withAnchor.Named n := by
  have hconstraints : p.withAnchor.constraints = p.constraints := by
    unfold Problem.withAnchor
    split <;> rfl
  refine ⟨hconstraints ▸ h.names, hconstraints ▸ h.numbers, p.met_withAnchor ▸ h.keys, p.met_withAnchor ▸ h.met, ?_⟩
  intro e he v hv
  rcases mem_vars_withAnchor he hv with ⟨f, hf, hv⟩ | rfl
  · exact h.objective f hf v hv
  · exact anchor_labelled

theorem afterAnchor [Scalar α] (h : p.Named n) {objective : Option (LinearExpr α)}
    (ho : ∀ e, objective = some e → e.Labelled) : (p.afterAnchor objective).Named n := by
  refine ⟨h.names, h.numbers, h.keys, h.met, ?_⟩
  intro e he v hv
  rcases mem_vars_afterAnchor he hv with ⟨f, hf, hv⟩ | rfl
  · exact ho f hf v hv
  · exact anchor_labelled

/-- One more constraint over labelled variables, under a name that is not taken. -/
theorem insert (h : p.Named n) {name : String} (hname : name ∉ p.constraints.map Prod.fst) {n' : Nat} (hn : n ≤ n')
    (hnumber : ∀ k, massName k = name → k < n') {c : Constraint α} (hc : c.Labelled) (unnamed : Nat) :
    Problem.Named (Problem.meet { p with constraints := p.constraints ++ [(name, c)], unnamed := unnamed }
      (c.terms.map Prod.fst)) n' := by
  have hnames : (p.constraints ++ [(name, c)]).map Prod.fst = p.constraints.map Prod.fst ++ [name] := List.map_append
  refine ⟨?_, fun k hk => ?_, meet_keys_nodup h.keys _, fun v hv => ?_, h.objective⟩
  · show ((p.constraints ++ [(name, c)]).map Prod.fst).Nodup
    rw [hnames, List.nodup_append]
    refine ⟨h.names, List.nodup_singleton _, ?_⟩
    rintro a ha b hb rfl
    exact hname (List.mem_singleton.1 hb ▸ ha)
  · change massName k ∈ (p.constraints ++ [(name, c)]).map Prod.fst at hk
    rw [hnames, List.mem_append, List.mem_singleton] at hk
    rcases hk with hk | hk
    · exact Nat.lt_of_lt_of_le (h.numbers k hk) hn
    · exact hnumber k hk
  · exact (mem_met_meet hv).elim (h.met v) (hc v)

theorem addNext (h : p.Named n) {c : Constraint α} (hc : c.Labelled) : (p.addNext c).Named n :=
  h.insert p.nextNumber_fresh.2 (Nat.le_refl n) (fun _ hk => absurd hk (massName_ne_automaticName _ _)) hc _

/-- The number that bounds those of the tail objectives is free. -/
theorem addMass (h : p.Named n) {c : Constraint α} (hc : c.Labelled) :
    massName n ∉ p.constraints.map Prod.fst ∧ (p.extend [(massName n, c)]).Named (n + 1) := by
  have hfree : massName n ∉ p.constraints.map Prod.fst := fun hmem => Nat.lt_irrefl n (h.numbers n hmem)
  refine ⟨hfree, ?_⟩
  have hadded := h.insert hfree (Nat.le_succ n) (fun k hk => massName_injective hk ▸ Nat.lt_succ_self n) hc p.unnamed
  unfold Problem.extend
  rw [List.flatMap_cons, List.flatMap_nil, List.append_nil]
  exact hadded

end Problem.Named

/-- The problem is named, the callbacks belong to the cuts over some path variables, and the tail objectives are
numbered below a bound, each with a number of its own. -/
structure DecisionModel.Named (m : DecisionModel α) (x : PathVariables α) [Scalar α] (bound : Nat) : Prop where
  problem : m.problem.Named bound
  callbacks : ∀ cb ∈ m.callbacks, x.Cut cb.evaluate
  tails : ∃ ks : List Nat, ks.Nodup ∧ (∀ k ∈ ks, k < bound) ∧
    List.Forall₂ (fun k (t : TailVariables α) => t.vars.map Variable.key = (tailLabels k x.paths).map Label.key)
      ks m.tails

section Models

variable [Scalar α] {m : DecisionModel α} {x : PathVariables α} {n : Nat}

theorem DecisionModel.Named.mono (h : m.Named x n) {n' : Nat} (hn : n ≤ n') : m.Named x n' := by
  obtain ⟨ks, hks, hbound, htails⟩ := h.tails
  exact ⟨h.problem.mono hn, h.callbacks, ks, hks, fun k hk => Nat.lt_of_lt_of_le (hbound k hk) hn, htails⟩

/-- The next tail objective has the bound as its number. -/
theorem DecisionModel.Named.addTail (h : m.Named x n) {p : Problem α} (hp : p.Named (n + 1)) {t : TailVariables α}
    (ht : t.vars.map Variable.key = (tailLabels n x.paths).map Label.key) :
    DecisionModel.Named { m with problem := p, tails := m.tails ++ [t] } x (n + 1) := by
  obtain ⟨ks, hks, hbound, htails⟩ := h.tails
  refine ⟨hp, h.callbacks, ks ++ [n], ?_, ?_, List.rel_append htails (.cons ht .nil)⟩
  · refine List.nodup_append.2 ⟨hks, List.nodup_singleton n, ?_⟩
    rintro a ha b hb rfl
    exact Nat.lt_irrefl n (List.mem_singleton.1 hb ▸ hbound a ha)
  · refine List.forall_mem_append.2 ⟨fun k hk => Nat.lt_succ_of_lt (hbound k hk), ?_⟩
    exact List.forall_mem_singleton.2 (Nat.lt_succ_self n)

/-- The workspace is named, with numbers up to that of the next tail objective. -/
abbrev Workspace.Named (w : Workspace α) (x : PathVariables α) : Prop := w.model.Named x w.model.nextIndex

/-! ## Runs -/

/-- A look-up is no reason to refuse a constraint. -/
theorem Candidate.value_ne_duplicate (c : Candidate α) (name : String) :
    Yields (c.value name) (fun _ => True) (fun f => ∀ name, f ≠ .duplicateConstraint name) := by
  by_cases h : c.Knows name
  · exact h.value_yields.mono (fun _ _ _ => trivial) fun f hf => hf.ne_duplicate
  · rw [Candidate.value_eq_error h]
    exact fun name heq => by cases heq

/-- A run keeps the names distinct, and no constraint is refused in it. -/
theorem PathVariables.named_upkeep (hx : ∀ v ∈ x.vars, v.Labelled) :
    Upkeep (fun w => w.Named x) (fun _ => True) Constraint.Labelled
      (fun f => ∀ name, f ≠ .duplicateConstraint name) where
  asked w h := ⟨h.problem.withAnchor.observe, h.callbacks, h.tails⟩
  answered w verdict h := ⟨h.problem.withAnchor.observe.afterAnchor h.problem.objective, h.callbacks, h.tails⟩
  shown w h := ⟨⟨h.problem.observe, h.callbacks, h.tails⟩, trivial⟩
  evaluated w c h _ cb hcb := by
    refine ((h.callbacks cb hcb).evaluate_yields (fun f hf => hf.ne_duplicate) fun m _ => c.value_ne_duplicate _).mono
      (fun answer _ hanswer cut hcut => ⟨(hanswer cut hcut).1, fun v hv => hx v ((hanswer cut hcut).2 v hv)⟩)
      fun f hf => hf
  recorded w s h _ := by
    refine ⟨h.problem, fun cb hcb => ?_, h.tails⟩
    obtain ⟨old, hold, heq, -⟩ := DecisionModel.exists_of_mem_record hcb
    rw [heq]
    exact h.callbacks old hold
  added w c h hc := ⟨h.problem.addNext hc, h.callbacks, h.tails⟩
  nameless f hf := hf.ne_duplicate

/-! ## Tail objectives -/

omit [Scalar α] in
/-- Constraints without names, each built just before it is added. -/
theorem addEach_ends {I : Workspace α → Prop}
    (hI : ∀ w c, I w → c.Labelled → I { w with model := { w.model with problem := w.model.problem.addNext c } })
    {cs : List (Except (Fault α) (Constraint α))} (hcs : ∀ c ∈ cs, Yields c Constraint.Labelled Fault.Nameless) :
    (addEach cs).Ends I (fun _ => I) (fun f w => I w ∧ f.Nameless) := by
  induction cs with
  | nil => exact Build.Ends.pure fun w hw => hw
  | cons c cs ih =>
      obtain ⟨hc, hcs⟩ := List.forall_mem_cons.1 hcs
      unfold addEach
      refine Build.Ends.lift_bind hc (fun f w hf hw => ⟨hw, hf⟩) fun k hk => ?_
      exact Build.Ends.bind (Q := fun _ => I) (Build.Ends.addNext fun w hw => hI w k hw hk) fun _ => ih hcs

/-- The constraints of all paths. -/
theorem addTailRows_ends {I : Workspace α → Prop}
    (hI : ∀ w c, I w → c.Labelled → I { w with model := { w.model with problem := w.model.problem.addNext c } })
    (l : TailLevels α) {quantile : Variable α} (hquantile : quantile.Labelled) (k : Nat) (scale : α)
    {ms : List (PathVariable α × α)} (hms : ∀ m ∈ ms, m.1.var.Labelled) :
    (addTailRows l quantile k scale ms).Ends I (fun rows w => I w ∧ rows = ms.map fun m => tailRow k scale m.1.path)
      (fun f w => I w ∧ f.Nameless) := by
  induction ms with
  | nil => exact Build.Ends.pure fun w hw => ⟨hw, rfl⟩
  | cons m ms ih =>
      obtain ⟨hm, hms⟩ := List.forall_mem_cons.1 hms
      obtain ⟨hbelow, hatMost, hstrict, hmass⟩ := tailRow_keys k scale m.1.path
      have hconstraints := l.constraints_labelled hquantile ⟨_, hbelow⟩ ⟨_, hatMost⟩ ⟨_, hstrict⟩ ⟨_, hmass⟩ hm
        m.2 m.1.prob scale
      unfold addTailRows
      refine (addEach_ends hI hconstraints).bind fun _ => (ih hms).bind fun rows => ?_
      refine Build.Ends.pure ?_
      rintro w ⟨hw, rfl⟩
      exact ⟨hw, rfl⟩

/-- The mean utility of a tail is a sum over the masses. -/
theorem tailExpression_yields (rows : List (TailRow α)) (us : List α) (mass : α) :
    Yields (tailExpression rows us mass) (fun e => ∀ v ∈ e.vars, ∃ row ∈ rows, v = row.mass) Fault.Nameless := by
  have hterm : ∀ r : TailRow α × α, Yields (tailTerm mass r.1 r.2) (fun e => ∀ v ∈ e.vars, v = r.1.mass)
      Fault.Nameless := by
    intro r
    refine (orFault_yields (by trivial)).bind fun c _ => ?_
    exact (multiple_yields c r.1.mass).mono (fun _ _ he => he.1) fun _ hf => hf.nameless
  refine ((Yields.mapM fun r _ => hterm r).mono (fun es _ hes => ?_) fun _ hf => hf).map
  intro v hv
  obtain ⟨e, he, hv⟩ := LinearExpr.vars_sum hv
  obtain ⟨r, hr, hvars⟩ := exists_of_mem_right hes he
  exact ⟨r.1, (List.of_mem_zip hr).1, hvars v hv⟩

/-- **A tail objective.** However the step ends, names are distinct, and its fault is not about names. The expression
is one over the variables that were added. -/
theorem tailValue_ends (hx : ∀ v ∈ x.vars, v.Labelled) (dia : Diagram α) (alpha scale : α) :
    (tailValue dia x alpha scale).Ends (fun w => w.Named x)
      (fun e w => w.Named x ∧ ∃ t ∈ w.model.tails, ∀ v ∈ e.vars, v ∈ t.vars)
      (fun f w => w.Named x ∧ f.Nameless) := by
  have hkeep : ∀ (f : Fault α) (w : Workspace α), f.Nameless → w.Named x → w.Named x ∧ f.Nameless :=
    fun f w hf hw => ⟨hw, hf⟩
  have hrequire : ∀ (b : Bool) (f : Fault α), f.Nameless →
      Yields (if b then .ok () else .error f) (fun _ => True) Fault.Nameless := by
    intro b f hf
    split
    · trivial
    · exact hf
  have hutilities : Yields (utilities dia x.members) (fun us => x.members.length = us.length) Fault.Nameless :=
    (Yields.mapM fun m _ => dia.U.eval_yields m.path).mono (fun us _ hus => hus.length_eq) fun _ hf => hf
  unfold tailValue
  refine Build.Ends.lift_bind (checkScale_yields scale) (fun f w hf => hkeep f w (hf ▸ trivial)) fun _ _ => ?_
  refine Build.Ends.lift_bind (hrequire _ _ trivial) hkeep fun _ _ => ?_
  refine Build.Ends.lift_bind (hrequire _ _ trivial) hkeep fun _ _ => ?_
  refine Build.Ends.lift_bind hutilities hkeep fun us hus => ?_
  refine Build.Ends.lift_bind (orFault_yields (by trivial)) hkeep fun l _ => ?_
  -- the number of the objective is taken from here on, and nothing has it yet
  refine Build.Ends.bind (Q := fun k w => w.model.Named x k ∧ w.model.nextIndex = k + 1)
    (fun w hw => ⟨⟨hw.problem, hw.callbacks, hw.tails⟩, rfl⟩) fun k => ?_
  extract_lets quantile
  have hquantile : quantile.Labelled := ⟨.quantile k, (Label.key_quantile k).symm⟩
  have hmembers : ∀ m ∈ x.members.zip us, m.1.var.Labelled :=
    fun m hm => hx _ (List.mem_map_of_mem (List.of_mem_zip hm).1)
  have hrows := addTailRows_ends (I := fun w => w.model.Named x k ∧ w.model.nextIndex = k + 1)
    (fun w c hw hc => ⟨⟨hw.1.problem.addNext hc, hw.1.callbacks, hw.1.tails⟩, hw.2⟩) l hquantile k scale hmembers
  have hpaths : (x.members.zip us).map (fun m => tailRow k scale m.1.path) = x.paths.map (tailRow k scale) := by
    have hfst : (x.members.zip us).map Prod.fst = x.members := List.map_fst_zip (Nat.le_of_eq hus)
    conv_rhs => rw [PathVariables.paths, List.map_map, ← hfst, List.map_map]
    rfl
  refine (hrows.mono (fun w hw => hw) (fun _ _ hv => hv) fun f w hf =>
    ⟨hf.1.1.mono (hf.1.2 ▸ Nat.le_succ k), hf.2⟩).bind fun rows => ?_
  rintro w ⟨⟨hw, hindex⟩, rfl⟩
  rw [hpaths]
  let total : Constraint α := .equals (.sumVars ((x.paths.map (tailRow k scale)).map TailRow.mass)) (alpha * scale)
  have htotal : total.Labelled := by
    intro v hv
    obtain ⟨row, hrow, rfl⟩ := List.mem_map.1 (LinearExpr.vars_sumVars hv)
    obtain ⟨s, -, rfl⟩ := List.mem_map.1 hrow
    exact ⟨_, (tailRow_keys k scale s).2.2.2⟩
  obtain ⟨hfree, hproblem⟩ := hw.problem.addMass htotal
  have hdone := hw.addTail hproblem (tailVariables_keys k scale l.least l.greatest alpha x.paths)
  have hadd : (Build.addConstraint (some ("cvar_mass_" ++ toString k)) total).runOn w =
      (.ok (), w.extend [(massName k, total)]) :=
    Build.runOn_addConstraint (Problem.addConstraint_eq_extend total hfree)
  rw [Build.runOn_bind_ok hadd, Build.runOn_bind_ok (Build.runOn_modifyModel _ _)]
  refine Build.Ends.lift (P := (· = _)) ?_ _ rfl
  rintro _ rfl
  rw [← hindex] at hdone
  refine (tailExpression_yields (x.paths.map (tailRow k scale)) us (alpha * scale)).mono (fun e _ he => ?_)
    fun f hf => ⟨hdone, hf⟩
  refine ⟨hdone, _, List.mem_append_right _ (List.mem_singleton.2 rfl), fun v hv => ?_⟩
  obtain ⟨row, hrow, rfl⟩ := he v hv
  exact List.mem_cons_of_mem _ (List.mem_flatMap.2 ⟨row, hrow, by simp⟩)

end Models

/-! ## What may be done with a model -/

section Revisions

variable [Scalar α] {z : List (DecisionVariables α)} {x : PathVariables α}

/-- The variables that have been created for a model: those of decisions and paths, and those of its tail objectives. -/
def createdVariables (z : List (DecisionVariables α)) (x : PathVariables α) (m : DecisionModel α) :
    List (Variable α) :=
  z.flatMap (fun d => d.z.map Prod.snd) ++ x.vars ++ m.tails.flatMap TailVariables.vars

/-- One step with a model that was built, however it ends. -/
inductive Revision (z : List (DecisionVariables α)) (x : PathVariables α) : Workspace α → Workspace α → Prop
  /-- A tail objective is asked for. -/
  | tail {w v : Workspace α} {result : Except (Fault α) (LinearExpr α)} (dia : Diagram α) (alpha scale : α)
      (hrun : (tailValue dia x alpha scale).runOn w = (result, v)) : Revision z x w v
  /-- An objective over the variables is set, or none. -/
  | aim {w v : Workspace α} {result : Except (Fault α) Unit} {objective : Option (LinearExpr α)} (sense : Sense)
      (hvars : ∀ e, objective = some e → ∀ u ∈ e.vars, u ∈ createdVariables z x w.model)
      (hrun : (Build.setObjective objective sense).runOn w = (result, v)) : Revision z x w v
  /-- A constraint over the variables is added without a name. -/
  | constrain {w v : Workspace α} {result : Except (Fault α) Unit} {c : Constraint α}
      (hvars : ∀ u ∈ c.vars, u ∈ createdVariables z x w.model)
      (hrun : (Build.addConstraint none c).runOn w = (result, v)) : Revision z x w v
  /-- The lazy cut on the probabilities is registered. -/
  | massCut {w v : Workspace α} {result : Except (Fault α) Unit} (scale tolerance : α)
      (hrun : (registerProbabilityCut x scale tolerance).runOn w = (result, v)) : Revision z x w v
  /-- The lazy cut on the number of paths is registered. -/
  | countCut {w v : Workspace α} {result : Except (Fault α) Unit} (dia : Diagram α) (tolerance : α)
      (hrun : (registerActivePathsCut dia x tolerance).runOn w = (result, v)) : Revision z x w v
  /-- A candidate is shown to a callback. -/
  | offer {w v : Workspace α} {result : Except (Fault α) (Option (LazyConstraint α))} (i : Nat) (c : Candidate α)
      (hrun : (InfluenceDiagrams.offer i c).runOn w = (result, v)) : Revision z x w v
  /-- The variables are listed. -/
  | list (w : Workspace α) : Revision z x w w.shown
  /-- Variables are given values. -/
  | assign (w : Workspace α) (values : List (VarKey × Option (Numeral α))) :
      Revision z x w { w with model := w.model.assign values }
  /-- The model is solved. -/
  | solve {w v : Workspace α} {result : Except (Fault α) (SolveResult α)} (solver : Solver α)
      (hrun : (InfluenceDiagrams.solve solver).runOn w = (result, v)) : Revision z x w v

omit [Scalar α] in
theorem Build.Ends.keeps {β : Type} {steps : Build α β} {I : Workspace α → Prop}
    (h : steps.Ends I (fun _ => I) (fun _ => I)) {w v : Workspace α} {result : Except (Fault α) β} (hw : I w)
    (hrun : steps.runOn w = (result, v)) : I v := by
  cases result with
  | ok b => exact h.of_ok hw hrun
  | error f => exact h.of_error hw hrun

theorem registerActivePathsCut_ends (dia : Diagram α) (tolerance : α) :
    (registerActivePathsCut dia x tolerance).Ends (fun w => w.Named x) (fun _ w => w.Named x)
      (fun _ w => w.Named x) := by
  have hany : ∀ {β : Type} (y : Except (Fault α) β), Yields y (fun _ => True) (fun _ => True) := by
    intro β y
    cases y <;> trivial
  unfold registerActivePathsCut
  refine Build.Ends.lift_bind (hany _) (fun _ _ _ hw => hw) fun P _ => ?_
  refine Build.Ends.lift_bind (hany _) (fun _ _ _ hw => hw) fun _ _ => ?_
  refine Build.Ends.bind (Q := fun _ w => w.Named x) (Build.Ends.notify fun w hw => hw) fun _ => ?_
  refine Build.Ends.lift_bind (hany _) (fun _ _ _ hw => hw) fun required _ => ?_
  refine Build.Ends.modifyModel fun w hw => ⟨hw.problem, ?_, hw.tails⟩
  exact List.forall_mem_append.2 ⟨hw.callbacks, List.forall_mem_singleton.2 (.count _ _ _)⟩

/-- The variables that have been created are labelled. -/
theorem labelled_of_created (hz : ∀ v ∈ z.flatMap (fun d => d.z.map Prod.snd), v.Labelled)
    (hx : ∀ v ∈ x.vars, v.Labelled) {m : DecisionModel α} {n : Nat} (h : m.Named x n) :
    ∀ v ∈ createdVariables z x m, v.Labelled := by
  obtain ⟨ks, -, -, htails⟩ := h.tails
  intro v hv
  rcases List.mem_append.1 hv with hv | hv
  · exact (List.mem_append.1 hv).elim (hz v) (hx v)
  · obtain ⟨t, ht, hv⟩ := List.mem_flatMap.1 hv
    obtain ⟨k, -, hkeys⟩ := exists_of_mem_right htails ht
    have hkey : v.key ∈ (tailLabels k x.paths).map Label.key := hkeys ▸ List.mem_map_of_mem hv
    obtain ⟨l, -, hl⟩ := List.mem_map.1 hkey
    exact ⟨l, hl.symm⟩

/-- **One step.** However it ends, names stay distinct. -/
theorem Revision.named (hz : ∀ v ∈ z.flatMap (fun d => d.z.map Prod.snd), v.Labelled)
    (hx : ∀ v ∈ x.vars, v.Labelled) {w v : Workspace α} (hstep : Revision z x w v) (h : w.Named x) : v.Named x := by
  cases hstep with
  | tail dia alpha scale hrun =>
      exact ((tailValue_ends hx dia alpha scale).mono (fun w hw => hw) (fun _ _ hv => hv.1) fun _ _ hf => hf.1).keeps
        h hrun
  | aim sense hvars hrun =>
      obtain rfl : { w with model := { w.model with
          problem := { w.model.problem with objective := _, sense := sense } } } = v := congrArg Prod.snd hrun
      have hobjective := fun e he u hu => labelled_of_created hz hx h u (hvars e he u hu)
      exact ⟨h.problem.aim hobjective sense, h.callbacks, h.tails⟩
  | constrain hvars hrun =>
      rw [Build.runOn_addConstraint (Problem.addConstraint_none _ _)] at hrun
      obtain ⟨-, rfl⟩ := Prod.mk.inj hrun
      exact ⟨h.problem.addNext fun u hu => labelled_of_created hz hx h u (hvars u hu), h.callbacks, h.tails⟩
  | massCut scale tolerance hrun =>
      obtain ⟨-, rfl⟩ := Prod.mk.inj hrun
      exact ⟨h.problem, List.forall_mem_append.2 ⟨h.callbacks, List.forall_mem_singleton.2 (.mass _ _)⟩, h.tails⟩
  | countCut dia tolerance hrun => exact (registerActivePathsCut_ends dia tolerance).keeps h hrun
  | offer i c hrun =>
      exact (((PathVariables.named_upkeep hx).offer_ends trivial i).mono (fun w hw => hw) (fun _ _ hv => hv.1)
        fun _ _ hf => hf.1).keeps h hrun
  | list => exact ⟨h.problem.observe, h.callbacks, h.tails⟩
  | assign values => exact ⟨h.problem, h.callbacks, h.tails⟩
  | solve solver hrun =>
      have hkeeps := ((PathVariables.named_upkeep hx).mono fun _ _ => trivial).solve_ends (E := fun _ => True)
        fun call p f (_ : solver call p = .error f) => trivial
      exact (hkeeps.mono (fun w hw => hw) (fun _ _ hv => hv) fun _ _ hf => hf.1).keeps h hrun

/-- **Any sequence of steps.** -/
theorem named_of_revisions (hz : ∀ v ∈ z.flatMap (fun d => d.z.map Prod.snd), v.Labelled)
    (hx : ∀ v ∈ x.vars, v.Labelled) {w v : Workspace α} (hsteps : Relation.ReflTransGen (Revision z x) w v)
    (h : w.Named x) : v.Named x := by
  induction hsteps with
  | refl => exact h
  | tail _ hstep ih => exact hstep.named hz hx ih

end Revisions

/-! ## Models that were built -/

section Models

variable [Scalar α] {dia : Diagram α} {options : ModelOptions α} {rules : List ForbiddenRule} {fixed : FixedStates}
  {z : List (DecisionVariables α)} {x : PathVariables α} {w : Workspace α}

/-- The labels of the decision variables. -/
def choiceLabels (dia : Diagram α) : List Label :=
  dia.D.flatMap fun d => (paths (nodeShape dia.S d) .empty).map (Label.choice d.index)

/-- The labels of the variables that have been created, when tail objectives have some numbers. -/
def createdLabels (dia : Diagram α) (x : PathVariables α) (ks : List Nat) : List Label :=
  choiceLabels dia ++ x.paths.map Label.path ++ ks.flatMap fun k => tailLabels k x.paths

omit [Scalar α] in
theorem choiceLabels_nodup (h : dia.Accepted) : (choiceLabels dia).Nodup := by
  rw [choiceLabels, List.nodup_flatMap]
  constructor
  · intro d _
    exact (paths_nodup _ _).map fun _ _ heq => (Label.choice.inj heq).2
  · have hindices := h.decision_nodup
    rw [Diagram.indices, List.Nodup, List.pairwise_map] at hindices
    refine hindices.imp fun hne l hl hl' => ?_
    obtain ⟨i, -, rfl⟩ := List.mem_map.1 hl
    obtain ⟨j, -, heq⟩ := List.mem_map.1 hl'
    exact hne (Label.choice.inj heq).1.symm

omit [Scalar α] in
/-- The other names start with other letters. -/
theorem massName_not_mem_assemblyNames (dia : Diagram α) (k : Nat) : massName k ∉ assemblyNames dia :=
  Diagram.not_mem_familyNames (by decide) (by decide) _

namespace Assembled

variable [Lengths]

theorem choice_keys (h : Assembled dia options rules fixed z x w) :
    (z.flatMap fun d => d.z.map Prod.snd).map Variable.key = (choiceLabels dia).map Label.key := by
  rw [h.blocks, choiceLabels, List.flatMap_map, List.map_flatMap, List.map_flatMap]
  refine List.flatMap_congr fun d _ => ?_
  rw [choiceBlock, List.map_map, List.map_map, List.map_map]
  exact List.map_congr_left fun i _ => (Label.key_choice d.index i).symm

theorem path_keys (h : Assembled dia options rules fixed z x w) :
    x.vars.map Variable.key = (x.paths.map Label.path).map Label.key := by
  obtain ⟨ms, -, -, rfl⟩ := h.members
  rw [vars_pathsBlock, paths_pathsBlock, List.map_map, List.map_map, List.map_map]
  exact List.map_congr_left fun m _ => (Label.key_path m.1).symm

theorem paths_nodup (h : Assembled dia options rules fixed z x w) : x.paths.Nodup := by
  obtain ⟨ms, -, hsub, rfl⟩ := h.members
  rw [paths_pathsBlock]
  exact (InfluenceDiagrams.paths_nodup _ _).sublist hsub

/-- The variables of a model that was built are labelled. -/
theorem labelled (h : Assembled dia options rules fixed z x w) :
    ∀ v ∈ z.flatMap (fun d => d.z.map Prod.snd) ++ x.vars, v.Labelled := by
  intro v hv
  have hkey : v.key ∈ (choiceLabels dia ++ x.paths.map Label.path).map Label.key := by
    rw [List.map_append, ← h.choice_keys, ← h.path_keys, ← List.map_append]
    exact List.mem_map_of_mem hv
  obtain ⟨l, -, hl⟩ := List.mem_map.1 hkey
  exact ⟨l, hl.symm⟩

/-- A model that was built is named. -/
theorem named (hdia : dia.Accepted) (h : Assembled dia options rules fixed z x w) : w.Named x := by
  obtain ⟨added, hproblem, hsub, hvars, -⟩ := h.problem
  have hproblemNamed : ((Problem.empty options.name).extend added).Named w.model.nextIndex := by
    refine ⟨(assemblyNames_nodup hdia).sublist hsub,
      fun k hk => absurd (hsub.subset hk) (massName_not_mem_assemblyNames dia k), ?_, fun v hv => ?_,
      fun e he => by cases he⟩
    · apply Problem.meet_keys_nodup
      exact List.nodup_nil
    · obtain ⟨c, hc, hv⟩ := List.mem_flatMap.1 ((Problem.mem_met_meet hv).resolve_left List.not_mem_nil)
      exact h.labelled v (hvars c hc v hv)
  have hcallbacks : ∀ cb ∈ w.model.callbacks, x.Cut cb.evaluate := by
    rw [h.model]
    dsimp only
    split
    · exact List.forall_mem_singleton.2 (.mass _ _)
    · exact fun cb hcb => absurd hcb List.not_mem_nil
  have htails : w.model.tails = [] := by
    rw [h.model]
    rfl
  refine ⟨hproblem ▸ hproblemNamed, hcallbacks, [], List.nodup_nil, fun k hk => absurd hk List.not_mem_nil, ?_⟩
  rw [htails]
  exact .nil

theorem createdLabels_nodup (hdia : dia.Accepted) (h : Assembled dia options rules fixed z x w) {ks : List Nat}
    (hks : ks.Nodup) : (createdLabels dia x ks).Nodup := by
  rw [createdLabels, List.nodup_append, List.nodup_append, List.nodup_flatMap]
  refine ⟨⟨choiceLabels_nodup hdia, h.paths_nodup.map fun _ _ heq => Label.path.inj heq, ?_⟩,
    ⟨fun k _ => tailLabels_nodup h.paths_nodup, hks.imp fun hne l hl hl' => ?_⟩, ?_⟩
  · rintro a ha _ hb rfl
    obtain ⟨d, -, ha⟩ := List.mem_flatMap.1 ha
    obtain ⟨i, -, rfl⟩ := List.mem_map.1 ha
    obtain ⟨s, -, heq⟩ := List.mem_map.1 hb
    cases heq
  · have hnumber := (number?_of_mem_tailLabels hl).symm.trans (number?_of_mem_tailLabels hl')
    exact hne (Option.some.inj hnumber)
  · -- only the labels of tail objectives have numbers
    rintro a ha _ hb rfl
    obtain ⟨k, -, hb⟩ := List.mem_flatMap.1 hb
    have hnumber := number?_of_mem_tailLabels hb
    rcases List.mem_append.1 ha with ha | ha
    · obtain ⟨d, -, ha⟩ := List.mem_flatMap.1 ha
      obtain ⟨i, -, rfl⟩ := List.mem_map.1 ha
      cases hnumber
    · obtain ⟨s, -, rfl⟩ := List.mem_map.1 ha
      cases hnumber

theorem created_keys (h : Assembled dia options rules fixed z x w) {m : DecisionModel α} {ks : List Nat}
    (htails : List.Forall₂ (fun k (t : TailVariables α) => t.vars.map Variable.key =
      (tailLabels k x.paths).map Label.key) ks m.tails) :
    (createdVariables z x m).map Variable.key = (createdLabels dia x ks).map Label.key := by
  have htailKeys : (m.tails.flatMap TailVariables.vars).map Variable.key =
      (ks.flatMap fun k => tailLabels k x.paths).map Label.key := by
    generalize m.tails = ts at htails
    induction htails with
    | nil => rfl
    | cons ht _ ih => rw [List.flatMap_cons, List.flatMap_cons, List.map_append, List.map_append, ht, ih]
  simp only [createdVariables, createdLabels, List.map_append, h.choice_keys, h.path_keys, htailKeys]

/-- The variables that have been created have distinct names. -/
theorem created_nodup (hdia : dia.Accepted) (h : Assembled dia options rules fixed z x w) {m : DecisionModel α}
    {n : Nat} (hm : m.Named x n) : ((createdVariables z x m).map Variable.name).Nodup := by
  obtain ⟨ks, hks, -, htails⟩ := hm.tails
  have hnames : (createdVariables z x m).map Variable.name = (createdLabels dia x ks).map Label.text := by
    have hmap := congrArg (List.map VarKey.name) (h.created_keys htails)
    rw [List.map_map, List.map_map] at hmap
    exact hmap
  rw [hnames]
  exact (h.createdLabels_nodup hdia hks).map Label.text_injective

end Assembled

/-! ## The main statement -/

/-- **Names.** The model of an accepted diagram with probability tables is built, and no constraint is refused. From
then on tail objectives, objectives, lazy cuts, candidates and runs of any solver may follow in any order, whether or
not they succeed. At any time all variables that have been created have distinct names, and so have all constraints.
The candidate that is shown to callbacks has one entry for every variable of the problem, with the value of that
variable. No tail objective and no run ends because a constraint is refused, and the expression of a tail objective
is one over variables that have been created, so that it may become the objective. -/
theorem names_distinct [Lengths] {dia : Diagram α} (h : dia.Accepted) {P : ProbabilityTables α} (hP : dia.P = .tables P)
    (options : ModelOptions α) (rules : List ForbiddenRule) (fixed : FixedStates) :
    (∀ name, ((assemble dia options rules fixed).runOn (.empty options.name)).1 ≠
      .error (.duplicateConstraint name)) ∧
    ∀ z x w, (assemble dia options rules fixed).runOn (.empty options.name) = (.ok (z, x), w) →
      ∀ v, Relation.ReflTransGen (Revision z x) w v →
        ((createdVariables z x v.model).map Variable.name).Nodup ∧
        (v.model.problem.constraints.map Prod.fst).Nodup ∧
        (v.shown.model.problem.vars.map Variable.name).Nodup ∧
        v.shown.model.candidate = v.shown.model.problem.vars.map (fun u => (u.name, v.model.value? u.key)) ∧
        (∀ (other : Diagram α) (alpha scale : α),
          (∀ name, ((tailValue other x alpha scale).runOn v).1 ≠ .error (.duplicateConstraint name)) ∧
          ∀ e v', (tailValue other x alpha scale).runOn v = (.ok e, v') →
            ∀ u ∈ e.vars, u ∈ createdVariables z x v'.model) ∧
        ∀ solver : Solver α, (∀ call p name, solver call p ≠ .error (.duplicateConstraint name)) →
          ∀ name, ((solve solver).runOn v).1 ≠ .error (.duplicateConstraint name) := by
  have hends := assemble_ends h hP options rules fixed
  constructor
  · intro name herror
    exact (hends.of_error (v := ((assemble dia options rules fixed).runOn (.empty options.name)).2) rfl
      (Prod.ext herror rfl)).ne_duplicate name rfl
  · intro z x w hbuilt v hsteps
    have hmodel := hends.of_ok rfl hbuilt
    have hz := fun u hu => hmodel.labelled u (List.mem_append_left _ hu)
    have hx := fun u hu => hmodel.labelled u (List.mem_append_right _ hu)
    have hnamed := named_of_revisions hz hx hsteps (hmodel.named h)
    have hvars : (v.shown.model.problem.vars.map Variable.name).Nodup := by
      have hshown := hnamed.problem.observe
      have hperm : v.shown.model.problem.vars.Perm v.model.problem.observe.met := List.mergeSort_perm _ _
      exact (hperm.map Variable.name).nodup_iff.2 (names_nodup_of_keys hshown.met hshown.keys)
    refine ⟨hmodel.created_nodup h hnamed, hnamed.problem.names, hvars, ?_, ?_, ?_⟩
    · have hpairs : (v.shown.model.problem.vars.map fun u => (u.name, v.model.value? u.key)).map Prod.fst =
          v.shown.model.problem.vars.map Variable.name := List.map_map
      exact Keyed.ofPairs_eq_self (hpairs ▸ hvars)
    · intro other alpha scale
      have htail := tailValue_ends hx other alpha scale
      refine ⟨fun name herror => (htail.of_error hnamed (Prod.ext herror rfl)).2.ne_duplicate name rfl, ?_⟩
      intro e v' hrun u hu
      obtain ⟨-, t, ht, hvars⟩ := htail.of_ok hnamed hrun
      exact List.mem_append_right _ (List.mem_flatMap.2 ⟨t, ht, hvars u hu⟩)
    · intro solver hsolver name herror
      have hrefused : ∀ call p f, solver call p = .error f → ∀ name, f ≠ .duplicateConstraint name :=
        fun call p f hf name heq => hsolver call p name (heq ▸ hf)
      exact (((PathVariables.named_upkeep hx).solve_ends hrefused).of_error hnamed (Prod.ext herror rfl)).2 name rfl

end Models

/-- For a fair coin and a guess: a tail objective is added and becomes the objective, another one is added, and the
model is solved. -/
theorem names_distinct_fairCoin : ∃ z x w e v result u outcome t,
    (assemble fairCoin .default [] .empty).runOn (.empty ModelOptions.defaultName) = (.ok (z, x), w) ∧
    (tailValue fairCoin x (1 / 2) 1).runOn w = (.ok e, v) ∧
    Build.runOn (do Build.setObjective (some e) .maximize; tailValue fairCoin x 1 1) v = (result, u) ∧
    (∀ name, result ≠ .error (.duplicateConstraint name)) ∧
    (solve fun _ _ => .ok ⟨.optimal, []⟩).runOn u = (outcome, t) ∧
    (∀ name, outcome ≠ .error (.duplicateConstraint name)) ∧
    ((createdVariables z x t.model).map Variable.name).Nodup ∧
    (t.model.problem.constraints.map Prod.fst).Nodup ∧ (t.shown.model.problem.vars.map Variable.name).Nodup := by
  have hwell := fairCoin_wellFormed
  have hfixed := FixedStates.within_empty fairCoin.S
  obtain ⟨w, hbuilt, hconstraints⟩ := Diagram.assemble_spec hwell (rulesWithin_nil _) hfixed rfl
    (show 0 < (ModelOptions.default : ModelOptions Rat).scale by decide)
  have hmembers : fairCoin.memberPaths [] .empty ≠ [] := by decide +kernel
  obtain ⟨l, k, v, htail, -, -⟩ := Diagram.tailValue_spec hwell hfixed (show (0 : Rat) < 1 / 2 by decide +kernel)
    (show (1 / 2 : Rat) ≤ 1 by decide +kernel) (show (0 : Rat) < 1 by decide) hmembers hconstraints
  let z := fairCoin.D.map fairCoin.decisionBlock
  let x := fairCoin.pathBlock [] .empty
  let e := fairCoin.tailExpr [] .empty k (1 / 2) 1
  -- after every step the statement says what the next one needs
  have hnames := (names_distinct hwell.accepted rfl .default [] .empty).2 _ _ _ hbuilt
  have hfirst : Relation.ReflTransGen (Revision z x) w v := .single (.tail fairCoin (1 / 2) 1 htail)
  have hcreated : ∀ y ∈ e.vars, y ∈ createdVariables z x v.model := by
    obtain ⟨-, -, -, -, htails, -⟩ := hnames w .refl
    exact (htails fairCoin (1 / 2) 1).2 e v htail
  obtain ⟨v', haim⟩ : ∃ v', (Build.setObjective (some e) .maximize).runOn v = (.ok (), v') := ⟨_, rfl⟩
  have hsecond := hfirst.tail (.aim .maximize (fun f hf => Option.some.inj hf ▸ hcreated) haim)
  obtain ⟨result, u, hagain⟩ : ∃ result u, (tailValue fairCoin x 1 1).runOn v' = (result, u) := ⟨_, _, rfl⟩
  have hthird := hsecond.tail (.tail fairCoin 1 1 hagain)
  let solver : Solver Rat := fun _ _ => .ok ⟨.optimal, []⟩
  obtain ⟨outcome, t, hsolve⟩ : ∃ outcome t, (solve solver).runOn u = (outcome, t) := ⟨_, _, rfl⟩
  obtain ⟨hvariables, hconstraintNames, hlisted, -⟩ := hnames t (hthird.tail (.solve solver hsolve))
  refine ⟨z, x, w, e, v, result, u, outcome, t, hbuilt, htail, (Build.runOn_bind_ok haim).trans hagain, ?_, hsolve, ?_,
    hvariables, hconstraintNames, hlisted⟩
  · obtain ⟨-, -, -, -, htails, -⟩ := hnames v' hsecond
    have hrefused := (htails fairCoin 1 1).1
    rwa [hagain] at hrefused
  · obtain ⟨-, -, -, -, -, hruns⟩ := hnames u hthird
    have hrefused := hruns solver fun call p name heq => by cases heq
    rwa [hsolve] at hrefused

end InfluenceDiagrams
