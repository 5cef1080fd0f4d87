import InfluenceDiagrams.Proofs.Model.Constraints
import InfluenceDiagrams.Proofs.Model.Insertion
import InfluenceDiagrams.Proofs.Program.Met

/-!
# `InfluenceDiagrams.Proofs.Model.Construction` — what a model consists of when construction succeeds

On doubles construction may fail half way, at a count that is too large or a product that is not finite. What can
be said for all numbers is what a model has that was built: which variables were created, what its constraints are
called, and which of the variables occur in them. Construction that fails never fails at a name. Only names and
variables are looked at, so that the numbers do not matter, except that a coefficient of zero leaves its variable
out.

## Contents
- **`ProbabilityTables.eval_yields`, `PathUtility.eval_yields`, `members_yields`** — how looking up a path ends;
  **`sublist_of_members`** — that the paths with variables are listed ones.
- **`assemblyNames`, `assemblyNames_nodup`** — the names that construction uses.
- **`nodeVariables_inserts`, `addStrategyConstraints_inserts`, `pathLinks_inserts`** — the steps of construction.
- **`Assembled`**, **`assemble_ends`** — a model that was built, and how construction ends.
-/

namespace InfluenceDiagrams

variable {α β : Type}

/-! ## Looking up a path -/

theorem indexFault_nameless (index : List State) : (indexFault index : Fault α).Nameless := by
  unfold indexFault
  split
  · split <;> trivial
  · trivial

section Lookup

variable [Scalar α]

/-- The probability of a path by tables is a number, or the path is out of range. -/
theorem ProbabilityTables.eval_yields (P : ProbabilityTables α) (s : Path) :
    Yields (P.eval s) (fun _ => True) Fault.Nameless := by
  have hfactor : ∀ (c : InfoNode) (x : Table α), Yields (factor s c x) (fun _ => True) Fault.Nameless := by
    intro c x
    unfold factor
    refine (orFault_yields (by trivial)).bind fun observed _ => ?_
    refine (orFault_yields (by trivial)).bind fun own _ => ?_
    exact (orFault_yields (indexFault_nameless _)).mono (fun _ _ _ => trivial) fun _ hf => hf
  have hproduct : ∀ (parts : List (InfoNode × Table α)) (p : α),
      Yields (product s p parts) (fun _ => True) Fault.Nameless := by
    intro parts
    induction parts with
    | nil => exact fun _ => trivial
    | cons part parts ih =>
        intro p
        unfold product
        refine (hfactor part.1 part.2).bind fun f _ => ?_
        split
        · trivial
        · exact ih _
  exact hproduct P.parts 1

/-- The utility of a path is a number, or the path or a table is at fault. -/
theorem PathUtility.eval_yields (U : PathUtility α) (s : Path) :
    Yields (U.eval s) (fun _ => True) Fault.Nameless := by
  have hterm : ∀ (v : InfoNode) (y : Table α), Yields (term s v y) (fun _ => True) Fault.Nameless := by
    intro v y
    refine (orFault_yields (by trivial)).bind fun index _ => ?_
    exact (orFault_yields (indexFault_nameless _)).mono (fun _ _ _ => trivial) fun _ hf => hf
  have hsum : ∀ (parts : List (InfoNode × Table α)) (acc : Table.Selection α),
      Yields (sumSelections s acc parts) (fun _ => True) Fault.Nameless := by
    intro parts
    induction parts with
    | nil => exact fun _ => trivial
    | cons part parts ih =>
        intro acc
        unfold sumSelections
        refine (hterm part.1 part.2).bind fun x _ => ?_
        refine Yields.bind (p := fun _ => True) ?_ fun acc' _ => ih acc'
        unfold addSelections
        split
        · trivial
        · trivial
        · trivial
        · exact ((orFault_yields (by trivial)).mono (fun _ _ _ => trivial) fun _ hf => hf).map
  induction U with
  | tables parts t =>
      refine Yields.map ?_
      unfold total
      refine (hsum parts _).bind fun selection _ => ?_
      split <;> trivial
  | shifted inner t ih => exact (ih.mono (fun _ _ _ => trivial) fun _ hf => hf).map

/-- Some of the listed paths get a variable. -/
theorem sublist_of_members [Lengths] {dia : Diagram α} {rules : List ForbiddenRule} {fixed : FixedStates}
    {ms : List (Path × α)} (h : members dia rules fixed = .ok ms) : (ms.map Prod.fst).Sublist (paths dia.S fixed) := by
  have hsub : ∀ (ss : List Path) (ps : List (Option α)),
      (((ss.zip ps).filterMap fun sp => sp.2.map (sp.1, ·)).map Prod.fst).Sublist ss := by
    intro ss
    induction ss with
    | nil => exact fun _ => List.Sublist.refl _
    | cons s ss ih =>
        intro ps
        cases ps with
        | nil => exact List.nil_sublist _
        | cons p ps =>
            cases p with
            | none => exact (ih ps).cons s
            | some p => exact (ih ps).cons_cons s
  unfold members at h
  cases hlist : listPaths (α := α) dia.S fixed with
  | error f =>
      rw [hlist] at h
      cases h
  | ok ss =>
      obtain rfl := (listPaths_yields dia.S fixed).of_ok hlist
      rw [hlist] at h
      change ((paths dia.S fixed).mapM (memberProb dia rules)).bind _ = _ at h
      cases hprobs : (paths dia.S fixed).mapM (memberProb dia rules) with
      | error f =>
          rw [hprobs] at h
          cases h
      | ok ps =>
          rw [hprobs] at h
          rw [← Except.ok.inj h]
          exact hsub _ ps

/-- The paths with variables are found, or a rule, a table or the list of paths is at fault. -/
theorem members_yields [Lengths] {dia : Diagram α} {P : ProbabilityTables α} (hP : dia.P = .tables P)
    (rules : List ForbiddenRule) (fixed : FixedStates) :
    Yields (members dia rules fixed) (fun ms => (ms.map Prod.fst).Sublist (paths dia.S fixed)) Fault.Nameless := by
  have hprob : ∀ s, Yields (memberProb dia rules s) (fun _ => True) Fault.Nameless := by
    intro s
    unfold memberProb
    refine (orFault_yields (by trivial)).bind fun hit _ => ?_
    split
    · trivial
    · rw [hP]
      exact (P.eval_yields s).bind fun p _ => trivial
  have hfound : Yields (members dia rules fixed) (fun _ => True) Fault.Nameless := by
    unfold members
    refine ((listPaths_yields dia.S fixed).mono (fun _ _ hss => hss) fun _ hf => hf.nameless).bind fun ss _ => ?_
    exact (Yields.mapM fun s _ => hprob s).bind fun ps _ => trivial
  exact hfound.mono (fun _ hms _ => sublist_of_members hms) fun _ hf => hf

end Lookup

/-! ## Names -/

/-- The names that construction uses for constraints. -/
def assemblyNames (dia : Diagram α) : List String :=
  (dia.D.flatMap fun d => (paths (d.info.map (entry dia.S)) .empty).map (oneDecisionName d.index)) ++
    (dia.D.flatMap fun d => (paths (nodeShape dia.S d) .empty).map (strategyName d.index)) ++ [probabilityCutName]

theorem assemblyNames_nodup {dia : Diagram α} (h : dia.Accepted) : (assemblyNames dia).Nodup :=
  Diagram.familyNames_nodup h (fun _ _ => paths_nodup _ _) (fun _ _ => paths_nodup _ _)
    fun d _ _ hi => Diagram.nodeShape_length_pos dia.S d hi

/-! ## Steps of construction -/

section Steps

variable [Scalar α]

/-- The variables of a decision node. -/
def choiceBlock (S : StateCounts) (d : InfoNode) : DecisionVariables α :=
  ⟨d, nodeShape S d, (paths (nodeShape S d) .empty).map fun i => (i, decisionVariable 0 d.index i)⟩

/-- The path variables of some paths with their probabilities. -/
def pathsBlock (ms : List (Path × α)) (fixed : FixedStates) : PathVariables α :=
  ⟨ms.map fun m => ⟨m.1, pathVariable 1 m.1, m.2⟩, fixed⟩

variable {dia : Diagram α} {ms : List (Path × α)} {fixed : FixedStates}

theorem nodeVariables_inserts [Lengths] (h : dia.Accepted) {d : InfoNode} (hd : d ∈ dia.D) :
    (nodeVariables (α := α) dia.S 0 d).Inserts
      ((paths (d.info.map (entry dia.S)) .empty).map (oneDecisionName d.index))
      fun z added => z = choiceBlock dia.S d ∧
        ∀ c ∈ added, ∀ v ∈ c.2.vars, v ∈ (choiceBlock (α := α) dia.S d).z.map Prod.snd := by
  have hshape := h.decisionShape?_eq (List.mem_append_right _ hd)
  unfold nodeVariables
  refine Build.Inserts.lift_bind (orFault_yields (by trivial)) fun shape hsome => ?_
  obtain rfl : nodeShape dia.S d = shape := Option.some.inj (hshape.symm.trans hsome)
  refine Build.Inserts.lift_bind ((listPaths_yields _ _).mono (fun _ _ hp => hp) fun _ hf => hf.nameless)
    fun places hplaces => ?_
  subst hplaces
  rw [dropLast_nodeShape, getLast?_nodeShape]
  have hones := Build.Inserts.forM fun info (_ : info ∈ paths (d.info.map (entry dia.S)) .empty) =>
    Build.Inserts.addConstraint (oneDecisionName d.index info)
      (oneDecision (α := α) 0 d.index (entry dia.S d.index) info)
  rw [← List.map_eq_flatMap] at hones
  refine hones.bind_pure fun _ added hadded => ⟨rfl, ?_⟩
  obtain ⟨parts, rfl, hparts⟩ := hadded
  refine forall_mem_flatten hparts ?_
  rintro info hinfo _ rfl
  rw [List.forall_mem_singleton]
  intro v hv
  obtain ⟨k, hk, rfl⟩ := List.mem_map.1 (LinearExpr.vars_sumVars hv)
  have hindex : info ++ [k] ∈ paths (nodeShape dia.S d) .empty :=
    Diagram.mem_nodeShape_paths.2 ⟨hinfo, mem_statesBelow.1 hk⟩
  exact List.mem_map.2 ⟨_, List.mem_map_of_mem hindex, rfl⟩

/-! ### Strategy constraints -/

theorem vars_pathsBlock : (pathsBlock ms fixed).vars = ms.map fun m => pathVariable 1 m.1 := by
  rw [PathVariables.vars, pathsBlock, List.map_map]
  rfl

theorem paths_pathsBlock : (pathsBlock ms fixed).paths = ms.map Prod.fst := by
  rw [PathVariables.paths, pathsBlock, List.map_map]
  rfl

/-- The member for a path has the variable of that path. -/
theorem var_of_find? {s : Path} {m : PathVariable α} (h : (pathsBlock ms fixed).find? s = some m) :
    m ∈ (pathsBlock ms fixed).members ∧ m.var = pathVariable 1 s := by
  have hpath : (m.path == s) = true := List.find?_some (p := fun m : PathVariable α => m.path == s) h
  have hmem := List.mem_of_find?_eq_some h
  refine ⟨hmem, ?_⟩
  obtain ⟨t, -, rfl⟩ := List.mem_map.1 hmem
  rw [← eq_of_beq hpath]

theorem groupVars_subset {group : List Path} : ∀ v ∈ groupVars (pathsBlock ms fixed) group,
    v ∈ (pathsBlock ms fixed).vars := by
  intro v hv
  obtain ⟨s, -, hv⟩ := List.mem_filterMap.1 hv
  obtain ⟨m, hm, rfl⟩ := Option.map_eq_some_iff.1 hv
  exact List.mem_map_of_mem (var_of_find? hm).1

theorem mem_groupVars {group : List Path} {m : Path × α} (hm : m ∈ ms) (hgroup : m.1 ∈ group) :
    pathVariable 1 m.1 ∈ groupVars (pathsBlock ms fixed) group := by
  have hsome : ((pathsBlock ms fixed).find? m.1).isSome = true := by
    rw [PathVariables.find?, List.find?_isSome]
    exact ⟨_, List.mem_map_of_mem hm, beq_self_eq_true m.1⟩
  obtain ⟨m', hm'⟩ := Option.isSome_iff_exists.1 hsome
  refine List.mem_filterMap.2 ⟨m.1, hgroup, ?_⟩
  rw [hm', Option.map_some, (var_of_find? hm').2]

/-- A variable with this key occurs in one of some constraints. -/
def Occurs (k : VarKey) (cs : List (String × Constraint α)) : Prop := ∃ c ∈ cs, k ∈ c.2.vars.map Variable.key

omit [Scalar α] in
theorem occurs_append {k : VarKey} {as bs : List (String × Constraint α)} :
    Occurs k (as ++ bs) ↔ Occurs k as ∨ Occurs k bs := by
  simp only [Occurs, List.mem_append, or_and_right, exists_or]

omit [Scalar α] in
theorem occurs_flatten {k : VarKey} {parts : List (List (String × Constraint α))} :
    Occurs k parts.flatten ↔ ∃ part ∈ parts, Occurs k part := by
  simp only [Occurs, List.mem_flatten]
  constructor
  · rintro ⟨c, ⟨part, hpart, hc⟩, hk⟩
    exact ⟨part, hpart, c, hc, hk⟩
  · rintro ⟨part, hpart, c, hc, hk⟩
    exact ⟨c, ⟨part, hpart, hc⟩, hk⟩

omit [Scalar α] in
/-- What a problem with more constraints has met, by keys. -/
theorem key_mem_met_extend {p : Problem α} {added : List (String × Constraint α)} {k : VarKey} :
    k ∈ (p.extend added).met.map Variable.key ↔ k ∈ p.met.map Variable.key ∨ Occurs k added := by
  rw [Problem.extend, Problem.key_mem_met_meet]
  refine or_congr_right ?_
  simp only [Occurs, Constraint.vars, List.mem_map, List.mem_flatMap]
  constructor
  · rintro ⟨v, ⟨c, hc, t, ht, rfl⟩, hkey⟩
    exact ⟨c, hc, t.1, ⟨t, ht, rfl⟩, hkey⟩
  · rintro ⟨c, hc, v, ⟨t, ht, rfl⟩, hkey⟩
    exact ⟨t.1, ⟨c, hc, t, ht, rfl⟩, hkey⟩

/-- The constraint of one decision holds the variables of its group, and its own. -/
theorem addStrategyConstraint_inserts (ms : List (Path × α)) (fixed : FixedStates) (d : Node) (bound : α)
    (groups : List (Path × List Path)) (z : Path × Variable α) :
    (addStrategyConstraint (pathsBlock ms fixed) d bound groups z).Inserts [strategyName d z.1] fun _ added =>
      (∀ c ∈ added, ∀ v ∈ c.2.vars, v = z.2 ∨ v ∈ (pathsBlock ms fixed).vars) ∧
      ∀ group, Keyed.find? z.1 groups = some group → ∀ m ∈ ms, m.1 ∈ group →
        Occurs (pathVariable (α := α) 1 m.1).key added := by
  unfold addStrategyConstraint
  cases hfind : Keyed.find? z.1 groups with
  | none =>
      refine (Build.Inserts.pure ⟨?_, ?_⟩).of_sublist (List.nil_sublist _)
      · exact fun c hc => absurd hc List.not_mem_nil
      · exact fun group hgroup => by cases hgroup
  | some group =>
      have hconstraint : ∀ b : α, Yields (strategyConstraint b (groupVars (pathsBlock ms fixed) group) z.2)
          (fun c => (∀ v ∈ c.vars, v = z.2 ∨ v ∈ (pathsBlock ms fixed).vars) ∧
            ∀ v ∈ groupVars (pathsBlock ms fixed) group, v.key ∈ c.vars.map Variable.key) Fault.Nameless := by
        intro b
        refine ((multiple_yields b z.2).mono (fun e _ he => ?_) fun _ hf => hf.nameless).map
        constructor
        · intro v hv
          rcases LinearExpr.vars_sub hv with hv | hv
          · exact Or.inr (groupVars_subset v (LinearExpr.vars_sumVars hv))
          · exact Or.inl (he.1 v hv)
        · intro v hv
          exact LinearExpr.keys_sub.2 (Or.inl (LinearExpr.keys_sumVars.2 (List.mem_map_of_mem hv)))
      refine Build.Inserts.lift_bind (hconstraint _) fun c hc => ?_
      refine (Build.Inserts.addConstraint _ c).mono fun _ added hadded => ?_
      subst hadded
      refine ⟨List.forall_mem_singleton.2 hc.1, ?_⟩
      rintro _ ⟨⟩ m hm hgroup
      exact ⟨_, List.mem_singleton.2 rfl, hc.2 _ (mem_groupVars hm hgroup)⟩

/-- A count is out of range only if a decision node is. -/
theorem theoreticalBound_yields (S : StateCounts) (D : List InfoNode) (z : DecisionVariables α) :
    Yields (theoreticalBound (α := α) S D z) (fun _ => True)
      (fun f => f.OfNumber ∨ f = .outOfRange ∧ ¬∀ d ∈ D, InRange S.length d.index) := by
  have hcounts : ∀ others : List Node, (∀ k ∈ others, k ∈ D.map InfoNode.index) →
      Yields (orFault (α := α) .outOfRange (others.mapM (nth? S))) (fun _ => True)
        (fun f => f.OfNumber ∨ f = .outOfRange ∧ ¬∀ d ∈ D, InRange S.length d.index) := by
    intro others hothers
    by_cases hD : ∀ d ∈ D, InRange S.length d.index
    · have hsome : others.mapM (nth? S) = some (others.map (entry S)) := by
        apply mapM_eq_pure
        intro k hk
        obtain ⟨d, hd, rfl⟩ := List.mem_map.1 (hothers k hk)
        exact nth?_eq_entry (hD d hd)
      rw [hsome]
      trivial
    · exact (orFault_yields (Or.inr ⟨rfl, hD⟩)).mono (fun _ _ _ => trivial) fun _ hf => hf
  unfold theoreticalBound
  refine (orFault_yields (Or.inl trivial)).bind fun shared _ => ?_
  split
  · exact Or.inl trivial
  · refine (hcounts _ fun _ hk => (List.mem_filter.1 hk).1).bind fun counts _ => ?_
    refine ((finiteInt_yields _).mono (fun _ _ h => h) fun _ hf => Or.inl hf).bind fun divisor _ => ?_
    exact (orFault_yields (Or.inl trivial)).mono (fun _ _ _ => trivial) fun _ hf => hf

/-- Every path variable occurs in some constraint of every decision node. -/
theorem addStrategyConstraints_inserts (h : dia.Accepted) (hfixed : fixed.Within dia.S)
    (hms : ∀ m ∈ ms, m.1 ∈ paths dia.S fixed) {d : InfoNode} (hd : d ∈ dia.D) :
    (addStrategyConstraints dia.S dia.D (pathsBlock ms fixed) (choiceBlock dia.S d)).Inserts
      ((paths (nodeShape dia.S d) .empty).map (strategyName d.index)) fun _ added =>
        (∀ c ∈ added, ∀ v ∈ c.2.vars,
          v ∈ (choiceBlock (α := α) dia.S d).z.map Prod.snd ∨ v ∈ (pathsBlock ms fixed).vars) ∧
        ∀ m ∈ ms, Occurs (pathVariable (α := α) 1 m.1).key added := by
  have hn : d ∈ dia.C ++ dia.D := List.mem_append_right _ hd
  have hspace : ∀ m ∈ ms, InSpace dia.S m.1 := fun m hm => ((mem_paths_iff hfixed).1 (hms m hm)).1
  have hin : ∀ s ∈ (pathsBlock ms fixed).paths, ∀ k ∈ d.scope, InRange s.length k := by
    rw [paths_pathsBlock]
    intro s hs k hk
    obtain ⟨m, hm, rfl⟩ := List.mem_map.1 hs
    rw [(hspace m hm).length_eq]
    exact h.scope_inRange hn k hk
  obtain ⟨groups, hgroups, hfind⟩ := groupBy?_spec hin
  unfold addStrategyConstraints
  refine Build.Inserts.lift_bind ((theoreticalBound_yields _ _ _).mono (fun _ _ hb => hb) fun f hf => ?_) fun bound _ => ?_
  · rcases hf with hf | ⟨rfl, -⟩
    · exact hf.nameless
    · trivial
  refine Build.Inserts.lift_bind (orFault_yields (by trivial)) fun groups' hgroups' => ?_
  obtain rfl : groups = groups' := Option.some.inj (hgroups.symm.trans hgroups')
  have hsteps := Build.Inserts.forM fun z (_ : z ∈ (choiceBlock (α := α) dia.S d).z) =>
    addStrategyConstraint_inserts ms fixed d.index bound groups z
  have hnames : ((choiceBlock (α := α) dia.S d).z.flatMap fun z => [strategyName d.index z.1]) =
      (paths (nodeShape dia.S d) .empty).map (strategyName d.index) := by
    rw [← List.map_eq_flatMap, choiceBlock, List.map_map]
    rfl
  rw [hnames] at hsteps
  refine hsteps.mono fun _ added hadded => ?_
  obtain ⟨parts, rfl, hparts⟩ := hadded
  constructor
  · refine forall_mem_flatten hparts fun z hz part hpart c hc v hv => (hpart.1 c hc v hv).imp_left ?_
    rintro rfl
    exact List.mem_map_of_mem hz
  · intro m hm
    -- the path leads through a decision, whose group it belongs to
    let index := d.scope.map (entry m.1)
    have hindex : index ∈ paths (nodeShape dia.S d) .empty := h.scope_mem_nodeShape hn (hspace m hm)
    have hz : (index, decisionVariable 0 d.index index) ∈ (choiceBlock (α := α) dia.S d).z :=
      List.mem_map_of_mem hindex
    obtain ⟨part, hpart, -, hoccurs⟩ := exists_of_mem_left hparts hz
    have hgroup : m.1 ∈ (pathsBlock ms fixed).paths.filter fun s => d.scope.map (entry s) == index := by
      rw [paths_pathsBlock]
      exact List.mem_filter.2 ⟨List.mem_map_of_mem hm, beq_self_eq_true _⟩
    have hsome := hfind index
    rw [if_neg (List.ne_nil_of_mem hgroup)] at hsome
    exact occurs_flatten.2 ⟨part, hpart, hoccurs _ hsome m hm hgroup⟩

/-! ### The constraint on the probabilities -/

/-- A path variable occurs in the constraint on the probabilities unless its scaled probability is zero. -/
theorem probabilityCut_yields (scale : α) :
    Yields (probabilityCut (pathsBlock ms fixed) scale) (fun c => (∀ v ∈ c.vars, v ∈ (pathsBlock ms fixed).vars) ∧
      ∀ k, k ∈ c.vars.map Variable.key ↔ ∃ m ∈ ms, (m.2 * scale == 0) = false ∧
        k = (pathVariable (α := α) 1 m.1).key) Fault.Nameless := by
  refine ((combination_yields _).mono (fun e _ he => ?_) fun _ hf => hf.nameless).map
  obtain ⟨hvars, hkeys⟩ := he
  constructor
  · intro v hv
    obtain ⟨t, ht, rfl⟩ := hvars v hv
    obtain ⟨m, hm, rfl⟩ := List.mem_map.1 ht
    exact List.mem_map_of_mem hm
  · intro k
    refine (hkeys k).trans ?_
    simp only [pathsBlock, List.mem_map, exists_exists_and_eq_and]

/-! ### Path variables -/

/-- The names of the constraints that are added for the path variables. -/
def linkNames (dia : Diagram α) : List String :=
  (dia.D.flatMap fun d => (paths (nodeShape dia.S d) .empty).map (strategyName d.index)) ++ [probabilityCutName]

/-- The constraints that are added for the path variables of some paths. All path variables occur there if there
is a decision node, and otherwise those whose scaled probability is not zero, unless the model is lazy. -/
structure Links (dia : Diagram α) (ms : List (Path × α)) (fixed : FixedStates) (eager : Bool) (scale : α)
    (added : List (String × Constraint α)) : Prop where
  vars : ∀ c ∈ added, ∀ v ∈ c.2.vars, (∃ d ∈ dia.D, v ∈ (choiceBlock (α := α) dia.S d).z.map Prod.snd) ∨
    v ∈ (pathsBlock ms fixed).vars
  occurs : ∀ m ∈ ms, Occurs (pathVariable (α := α) 1 m.1).key added ↔
    dia.D ≠ [] ∨ (eager = true ∧ (m.2 * scale == 0) = false)

/-- What ties the path variables to the decisions. -/
theorem strategyLinks_inserts (h : dia.Accepted) (hfixed : fixed.Within dia.S)
    (hms : ∀ m ∈ ms, m.1 ∈ paths dia.S fixed) (scale : α) :
    ((dia.D.map (choiceBlock dia.S)).forM (addStrategyConstraints dia.S dia.D (pathsBlock ms fixed))).Inserts
      (dia.D.flatMap fun d => (paths (nodeShape dia.S d) .empty).map (strategyName d.index))
      fun _ added => Links dia ms fixed false scale added := by
  have hblocks : ∀ z ∈ dia.D.map (choiceBlock (α := α) dia.S),
      (addStrategyConstraints dia.S dia.D (pathsBlock ms fixed) z).Inserts
        ((paths (nodeShape dia.S z.node) .empty).map (strategyName z.node.index)) fun _ added =>
          (∀ c ∈ added, ∀ v ∈ c.2.vars, v ∈ z.z.map Prod.snd ∨ v ∈ (pathsBlock ms fixed).vars) ∧
          ∀ m ∈ ms, Occurs (pathVariable (α := α) 1 m.1).key added := by
    intro z hz
    obtain ⟨d, hd, rfl⟩ := List.mem_map.1 hz
    exact addStrategyConstraints_inserts h hfixed hms hd
  have hlinks := Build.Inserts.forM hblocks
  rw [List.flatMap_map] at hlinks
  refine hlinks.mono fun _ added hadded => ?_
  obtain ⟨parts, rfl, hparts⟩ := hadded
  constructor
  · refine forall_mem_flatten hparts fun z hz part hpart c hc v hv => (hpart.1 c hc v hv).imp_left fun hv => ?_
    obtain ⟨d, hd, rfl⟩ := List.mem_map.1 hz
    exact ⟨d, hd, hv⟩
  · intro m hm
    rw [occurs_flatten]
    constructor
    · rintro ⟨part, hpart, -⟩
      obtain ⟨z, hz, -⟩ := exists_of_mem_right hparts hpart
      obtain ⟨d, hd, -⟩ := List.mem_map.1 hz
      exact Or.inl (List.ne_nil_of_mem hd)
    · rintro (hne | ⟨⟨⟩, -⟩)
      obtain ⟨d, hd⟩ := List.exists_mem_of_ne_nil _ hne
      obtain ⟨part, hpart, -, hoccurs⟩ := exists_of_mem_left hparts (List.mem_map_of_mem hd)
      exact ⟨part, hpart, hoccurs m hm⟩

/-- The constraint on the probabilities ties the remaining path variables. -/
theorem Links.add_probabilityCut {scale : α} {added : List (String × Constraint α)}
    (h : Links dia ms fixed false scale added) (hpaths : (ms.map Prod.fst).Nodup) {c : Constraint α}
    (hvars : ∀ v ∈ c.vars, v ∈ (pathsBlock ms fixed).vars)
    (hkeys : ∀ k, k ∈ c.vars.map Variable.key ↔ ∃ m ∈ ms, (m.2 * scale == 0) = false ∧
      k = (pathVariable (α := α) 1 m.1).key) :
    Links dia ms fixed true scale (added ++ [(probabilityCutName, c)]) := by
  constructor
  · rw [List.forall_mem_append, List.forall_mem_singleton]
    exact ⟨h.vars, fun v hv => Or.inr (hvars v hv)⟩
  · intro m hm
    -- paths with equal keys are the same path, with one probability
    have hcut : Occurs (pathVariable (α := α) 1 m.1).key [(probabilityCutName, c)] ↔
        (m.2 * scale == 0) = false := by
      simp only [Occurs, List.mem_singleton, exists_eq_left, hkeys]
      constructor
      · rintro ⟨m', hm', hne, hkey⟩
        rwa [List.inj_on_of_nodup_map hpaths hm hm' (Diagram.pathVariable_key_inj hkey)]
      · intro hne
        exact ⟨m, hm, hne, rfl⟩
    rw [occurs_append, h.occurs m hm, hcut]
    simp

/-- What ties the path variables of known paths to the decisions and to the total probability. -/
theorem pathLinks_inserts (h : dia.Accepted) (hfixed : fixed.Within dia.S)
    (hms : (ms.map Prod.fst).Sublist (paths dia.S fixed)) (eager : Bool) (scale : α) :
    Build.Inserts (do
      (dia.D.map (choiceBlock dia.S)).forM (addStrategyConstraints dia.S dia.D (pathsBlock ms fixed))
      if eager then
        let c ← Build.lift (probabilityCut (pathsBlock ms fixed) scale)
        Build.addConstraint (some probabilityCutName) c
      return pathsBlock ms fixed) (linkNames dia)
      fun x added => x = pathsBlock ms fixed ∧ Links dia ms fixed eager scale added := by
  have hmem : ∀ m ∈ ms, m.1 ∈ paths dia.S fixed := fun m hm => hms.subset (List.mem_map_of_mem hm)
  refine (strategyLinks_inserts h hfixed hmem scale).bind fun _ links hlinks => ?_
  cases eager with
  | false =>
      refine (Build.Inserts.pure ⟨rfl, ?_⟩).of_sublist (List.nil_sublist _)
      rwa [List.append_nil]
  | true =>
      refine Build.Inserts.lift_bind (probabilityCut_yields scale) fun c hc => ?_
      refine (Build.Inserts.addConstraint _ c).bind_pure fun _ added hadded => ?_
      subst hadded
      exact ⟨rfl, hlinks.add_probabilityCut ((paths_nodup _ _).sublist hms) hc.1 hc.2⟩

omit [Scalar α] in
theorem checkFixedStates_yields (S : StateCounts) (pairs : List (Node × State)) :
    Yields (checkFixedStates (α := α) S pairs) (fun _ => FixedStates.Within ⟨pairs⟩ S) Fault.Nameless := by
  induction pairs with
  | nil => exact fun p hp => absurd hp List.not_mem_nil
  | cons p pairs ih =>
      obtain ⟨k, state⟩ := p
      unfold checkFixedStates
      split
      · rename_i hk
        rw [nth?_eq_entry (show InRange S.length k from hk)]
        dsimp only
        split
        · rename_i hstate
          exact ih.mono (fun _ _ hpairs => List.forall_mem_cons.2 ⟨⟨hk, hstate⟩, hpairs⟩) fun _ hf => hf
        · trivial
      · trivial

theorem checkScale_yields (scale : α) :
    Yields (ModelOptions.checkScale scale) (fun _ => ¬scale ≤ 0) (· = .scaleFactor scale) := by
  unfold ModelOptions.checkScale
  split
  · exact rfl
  · assumption

/-- From one model to another the path variables have been created. -/
structure PathsCreated [Lengths] (dia : Diagram α) (rules : List ForbiddenRule) (fixed : FixedStates) (eager : Bool)
    (scale : α) (before : DecisionModel α) (x : PathVariables α) (after : DecisionModel α) : Prop where
  positive : ¬scale ≤ 0
  within : fixed.Within dia.S
  links : ∃ ms added, members dia rules fixed = .ok ms ∧ (ms.map Prod.fst).Sublist (paths dia.S fixed) ∧
    x = pathsBlock ms fixed ∧ after = { before with problem := before.problem.extend added, families := 2 } ∧
    (added.map Prod.fst).Sublist (linkNames dia) ∧ Links dia ms fixed eager scale added

/-- Creating the path variables in a model that has one family of variables. -/
theorem pathVariables_ends [Lengths] (h : dia.Accepted) {P : ProbabilityTables α} (hP : dia.P = .tables P)
    (rules : List ForbiddenRule) (fixed : FixedStates) (eager : Bool) (scale : α) {m₀ : DecisionModel α}
    (hfamilies : m₀.families = 1) (hnames : (m₀.problem.constraints.map Prod.fst ++ linkNames dia).Nodup) :
    (pathVariables dia (dia.D.map (choiceBlock dia.S)) rules fixed eager scale).Ends (fun w => w.model = m₀)
      (fun x w => PathsCreated dia rules fixed eager scale m₀ x w.model) (fun f _ => f.Nameless) := by
  unfold pathVariables
  refine Build.Ends.lift_bind (checkScale_yields scale) (fun _ _ hf _ => hf ▸ trivial) fun _ hscale => ?_
  extract_lets afterNotice
  have hafter : ∀ u, (afterNotice u).Ends (fun w => w.model = m₀)
      (fun x w => PathsCreated dia rules fixed eager scale m₀ x w.model) (fun f _ => f.Nameless) := by
    intro u
    refine Build.Ends.lift_bind (checkFixedStates_yields dia.S fixed.pairs) (fun _ _ hf _ => hf)
      fun _ hwithin => ?_
    refine Build.Ends.lift_bind ((members_yields hP rules fixed).mono (fun ms hms hsub => And.intro hms hsub)
      fun _ hf => hf) (fun _ _ hf _ => hf) fun ms hms => ?_
    refine Build.Ends.bind (Q := fun family w => family = 1 ∧ w.model = { m₀ with families := 2 }) ?_
      fun family => ?_
    · rintro w rfl
      refine ⟨hfamilies, ?_⟩
      show { w.model with families := w.model.families + 1 } = _
      rw [hfamilies]
    · rintro w ⟨rfl, hw⟩
      have hnamesHere : (w.model.problem.constraints.map Prod.fst ++ linkNames dia).Nodup := by
        rw [hw]
        exact hnames
      refine (pathLinks_inserts h hwithin hms.2 eager scale w hnamesHere).mono (fun w hw => hw) (fun x v => ?_)
        (fun _ _ hf => hf) w rfl
      rintro ⟨added, rfl, hsub, rfl, hlinks⟩
      refine ⟨hscale, hwithin, ms, added, hms.1, hms.2, rfl, ?_, hsub, hlinks⟩
      show { w.model with problem := w.model.problem.extend added } = _
      rw [hw]
  split
  · exact Build.Ends.bind (Q := fun _ w => w.model = m₀) (Build.Ends.notify fun w hw => hw) hafter
  · exact hafter ()

end Steps

/-! ## Models that were built -/

section Assembly

variable [Scalar α] {dia : Diagram α}

/-- Creating the decision variables in an empty model. -/
theorem decisionVariables_ends [Lengths] (h : dia.Accepted) (name : String) :
    (decisionVariables dia).Ends (· = .empty name)
      (fun z w => z = dia.D.map (choiceBlock dia.S) ∧ ∃ added,
        w.model = { DecisionModel.empty name with problem := (Problem.empty name).extend added, families := 1 } ∧
        (added.map Prod.fst).Sublist
          (dia.D.flatMap fun d => (paths (d.info.map (entry dia.S)) .empty).map (oneDecisionName d.index)) ∧
        ∀ c ∈ added, ∀ v ∈ c.2.vars, ∃ d ∈ dia.D, v ∈ (choiceBlock (α := α) dia.S d).z.map Prod.snd)
      (fun f _ => f.Nameless) := by
  have hnames := (assemblyNames_nodup h).of_append_left.of_append_left
  have hblocks := Build.Inserts.mapM fun d (hd : d ∈ dia.D) => nodeVariables_inserts h hd
  rintro w rfl
  unfold decisionVariables
  rw [Build.runOn_bind_ok (Build.runOn_freshFamily _)]
  refine (hblocks ⟨{ DecisionModel.empty name with families := 1 }, []⟩ hnames).mono (fun w hw => hw) (fun z v => ?_)
    (fun _ _ hf => hf) _ rfl
  rintro ⟨added, rfl, hsub, rfl, parts, rfl, hparts⟩
  refine ⟨rfl, parts.flatten, rfl, hsub, ?_⟩
  exact forall_mem_flatten hparts fun d hd part hpart c hc v hv => ⟨d, hd, hpart c hc v hv⟩

/-- No decision variable has the key of a path variable. -/
theorem not_occurs_of_choices {added : List (String × Constraint α)}
    (h : ∀ c ∈ added, ∀ v ∈ c.2.vars, ∃ d ∈ dia.D, v ∈ (choiceBlock (α := α) dia.S d).z.map Prod.snd) (s : Path) :
    ¬Occurs (pathVariable (α := α) 1 s).key added := by
  rintro ⟨c, hc, hkey⟩
  obtain ⟨u, hu, hukey⟩ := List.mem_map.1 hkey
  obtain ⟨d, -, hu⟩ := h c hc u hu
  obtain ⟨zi, hzi, rfl⟩ := List.mem_map.1 hu
  obtain ⟨i, -, rfl⟩ := List.mem_map.1 hzi
  cases congrArg VarKey.family hukey

/-- A model that was built, with its decision and path variables: which variables they are, what its constraints
are called, and which of the variables occur in them. -/
structure Assembled [Lengths] (dia : Diagram α) (options : ModelOptions α) (rules : List ForbiddenRule)
    (fixed : FixedStates) (z : List (DecisionVariables α)) (x : PathVariables α) (w : Workspace α) : Prop where
  positive : ¬options.scale ≤ 0
  within : fixed.Within dia.S
  blocks : z = dia.D.map (choiceBlock dia.S)
  members : ∃ ms, InfluenceDiagrams.members dia rules fixed = .ok ms ∧ (ms.map Prod.fst).Sublist (paths dia.S fixed) ∧
    x = pathsBlock ms fixed
  problem : ∃ added, w.model.problem = (Problem.empty options.name).extend added ∧
    (added.map Prod.fst).Sublist (assemblyNames dia) ∧
    (∀ c ∈ added, ∀ v ∈ c.2.vars, v ∈ z.flatMap (fun d => d.z.map Prod.snd) ++ x.vars) ∧
    ∀ m ∈ x.members, Occurs m.var.key added ↔
      dia.D ≠ [] ∨ (options.lazyCuts = false ∧ (m.prob * options.scale == 0) = false)
  model : w.model = { DecisionModel.empty options.name with
    problem := w.model.problem
    callbacks := if options.lazyCuts then
      [⟨probabilityCutName, evaluateProbabilityCut x options.scale options.tolerance, false⟩] else []
    families := 2 }

/-- **Construction.** It gives a model that was built, or has a fault that is not about names. -/
theorem assemble_ends [Lengths] (h : dia.Accepted) {P : ProbabilityTables α} (hP : dia.P = .tables P)
    (options : ModelOptions α) (rules : List ForbiddenRule) (fixed : FixedStates) :
    (assemble dia options rules fixed).Ends (· = .empty options.name)
      (fun b w => Assembled dia options rules fixed b.1 b.2 w) (fun f _ => f.Nameless) := by
  unfold assemble
  refine (decisionVariables_ends h options.name).bind fun z => ?_
  rintro w ⟨rfl, first, hw, hfirst, hfirstVars⟩
  have hnames : (w.model.problem.constraints.map Prod.fst ++ linkNames dia).Nodup := by
    have hall := assemblyNames_nodup h
    rw [assemblyNames, List.append_assoc] at hall
    rw [hw]
    exact hall.sublist (hfirst.append_right _)
  have hfamilies : w.model.families = 1 := by rw [hw]
  have hcreate := pathVariables_ends h hP rules fixed (!options.lazyCuts) options.scale hfamilies hnames
  refine hcreate.bind (R := fun (b : List (DecisionVariables α) × PathVariables α) w =>
    Assembled dia options rules fixed b.1 b.2 w) ?_ w rfl
  intro x v hcreated
  obtain ⟨ms, second, hms, hmsSub, rfl, hv, hsecond, hlinks⟩ := hcreated.links
  -- the constraints of both kinds of variables together
  have hproblem : v.model.problem = (Problem.empty options.name).extend (first ++ second) := by
    rw [hv, hw, ← Problem.extend_extend]
  have hsub : ((first ++ second).map Prod.fst).Sublist (assemblyNames dia) := by
    rw [List.map_append, assemblyNames, List.append_assoc]
    exact hfirst.append hsecond
  have hchoice : ∀ v, (∃ d ∈ dia.D, v ∈ (choiceBlock (α := α) dia.S d).z.map Prod.snd) →
      v ∈ (dia.D.map (choiceBlock (α := α) dia.S)).flatMap (fun d => d.z.map Prod.snd) := by
    rintro v ⟨d, hd, hv⟩
    exact List.mem_flatMap.2 ⟨_, List.mem_map_of_mem hd, hv⟩
  have hvars : ∀ c ∈ first ++ second, ∀ v ∈ c.2.vars,
      v ∈ (dia.D.map (choiceBlock (α := α) dia.S)).flatMap (fun d => d.z.map Prod.snd) ++
        (pathsBlock ms fixed).vars := by
    rw [List.forall_mem_append]
    refine ⟨fun c hc v hv => List.mem_append_left _ (hchoice v (hfirstVars c hc v hv)), fun c hc v hv => ?_⟩
    exact List.mem_append.2 ((hlinks.vars c hc v hv).imp_left (hchoice v))
  have hoccurs : ∀ m ∈ (pathsBlock ms fixed).members, Occurs m.var.key (first ++ second) ↔
      dia.D ≠ [] ∨ (options.lazyCuts = false ∧ (m.prob * options.scale == 0) = false) := by
    intro m hm
    obtain ⟨p, hp, rfl⟩ := List.mem_map.1 hm
    rw [occurs_append, hlinks.occurs p hp, Bool.not_eq_true']
    exact or_iff_right (not_occurs_of_choices hfirstVars p.1)
  cases hlazy : options.lazyCuts with
  | false =>
      rw [hlazy] at hoccurs
      refine ⟨hcreated.positive, hcreated.within, rfl, ⟨ms, hms, hmsSub, rfl⟩, ⟨first ++ second, hproblem, hsub, hvars,
        by rwa [hlazy]⟩, ?_⟩
      rw [hv, hw, hlazy]
      rfl
  | true =>
      rw [hlazy] at hoccurs
      refine ⟨hcreated.positive, hcreated.within, rfl, ⟨ms, hms, hmsSub, rfl⟩, ⟨first ++ second, hproblem, hsub, hvars,
        by rwa [hlazy]⟩, ?_⟩
      obtain ⟨m, notices⟩ := v
      obtain rfl : m = _ := hv
      rw [hw, hlazy]
      rfl

/-- If the paths with variables were found, the rules say of every path whether they exclude it. -/
theorem rulesDecide_of_members [Lengths] {rules : List ForbiddenRule} {fixed : FixedStates} {ms : List (Path × α)}
    (h : members dia rules fixed = .ok ms) : RulesDecide rules dia.S fixed := by
  unfold members at h
  cases hlist : listPaths (α := α) dia.S fixed with
  | error f =>
      rw [hlist] at h
      cases h
  | ok ss =>
      obtain rfl := (listPaths_yields dia.S fixed).of_ok hlist
      rw [hlist] at h
      cases hprobs : (paths dia.S fixed).mapM (memberProb dia rules) with
      | error f =>
          change (do
            let probs ← (paths dia.S fixed).mapM (memberProb dia rules)
            _ : Except (Fault α) _) = _ at h
          rw [hprobs] at h
          cases h
      | ok probs =>
          intro s hs
          obtain ⟨p, -, hp⟩ := exists_of_mem_left (forall₂_of_mapM_ok hprobs) hs
          unfold memberProb at hp
          cases hrule : isForbidden? s rules with
          | none =>
              rw [hrule] at hp
              cases hp
          | some b => exact ⟨b, rfl⟩

end Assembly

namespace Diagram

/-- In exact arithmetic a model that was built consists of the variables and constraints that are written down for
it. -/
theorem eq_assembled {dia : Diagram Rat} (h : dia.Tabulated) (hpos : ∀ n ∈ dia.S, 1 ≤ n)
    {options : ModelOptions Rat} {rules : List ForbiddenRule} {fixed : FixedStates} {z : List (DecisionVariables Rat)}
    {x : PathVariables Rat} {w : Workspace Rat}
    (hrun : (assemble dia options rules fixed).runOn (.empty options.name) = (.ok (z, x), w)) :
    0 < options.scale ∧ z = dia.D.map dia.decisionBlock ∧ x = dia.pathBlock rules fixed ∧
      w = dia.assembled rules fixed options := by
  obtain ⟨P, hP, -⟩ := h.probability
  have hbuilt := (assemble_ends h.accepted hP options rules fixed).of_ok rfl hrun
  obtain ⟨ms, hms, -, -⟩ := hbuilt.members
  have hscale : 0 < options.scale := not_le.1 hbuilt.positive
  have heq := assemble_decided h hpos (rulesDecide_of_members hms) hbuilt.within hscale
  obtain ⟨hvars, rfl⟩ := Prod.mk.inj (hrun.symm.trans heq)
  obtain ⟨rfl, rfl⟩ := Prod.mk.inj (Except.ok.inj hvars)
  exact ⟨hscale, rfl, rfl, rfl⟩

end Diagram
end InfluenceDiagrams
