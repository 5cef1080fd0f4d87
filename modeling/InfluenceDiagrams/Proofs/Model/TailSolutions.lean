import InfluenceDiagrams.Proofs.Model.TailConstraints
import InfluenceDiagrams.Proofs.Model.TailProgram

/-!
# `InfluenceDiagrams.Proofs.Model.TailSolutions` — feasible points of a model with a tail objective

The points that are feasible for what a tail objective adds are those at which its variables solve the
linear program of the worst part of the taken mass. As the names of its variables are new, every solution
of that program can be written into a point without touching the variables of the model.

## Contents
- **`tailKey`, `tailValues`** — the variables of a tail objective, and their values at a point.
- **`Diagram.tailVariables`**, **`tailVariables_eq_of_key`** — the variables; a key says what one is.
- **`Diagram.row_solution_iff`**, **`Diagram.tail_feasible_iff`** — feasible points are solutions, of one path and of all.
- **`writeTail`** — a point with values written into it; `TailSolution.writeTail`, `shareAt_writeTail`.
-/

namespace InfluenceDiagrams

/-! ## Variables of a tail objective -/

/-- The key of a variable of a path: a word, the number of the objective and the path. -/
def tailKey (word : String) (k : Nat) (s : Path) : VarKey := ⟨word ++ (toString k ++ "_" ++ pathToken s), 0⟩

/-- The values of the variables of a tail objective. -/
def tailValues (k : Nat) (point : VarKey → Rat) : TailValues where
  quantile := point ⟨"eta_" ++ toString k, 0⟩
  below s := point (tailKey "lambda_" k s)
  atMost s := point (tailKey "lambda_bar_" k s)
  strictMass s := point (tailKey "rho_" k s)
  mass s := point (tailKey "rho_bar_" k s)

/-- The variables of a row. -/
def TailRow.vars (row : TailRow Rat) : List (Variable Rat) := [row.below, row.atMost, row.strictMass, row.mass]

theorem head?_append_word {word : String} {c : Char} (h : word.toList.head? = some c) (x : String) :
    (word ++ x).toList.head? = some c := by
  rw [String.toList_append, List.head?_append, h]
  rfl

/-- The variable with a key: a path variable, a quantile, a mass or an indicator. -/
def variableOf (l : TailLevels Rat) (scale : Rat) (key : VarKey) : Variable Rat :=
  if key.family = 1 then .real key.name key.family 0 1
  else if key.name.toList.head? = some 'e' then .real key.name key.family l.least l.greatest
  else if key.name.toList.head? = some 'r' then .real key.name key.family 0 scale
  else .binary key.name key.family

theorem variableOf_quantile (l : TailLevels Rat) (scale : Rat) (k : Nat) :
    variableOf l scale (l.quantileVariable k).key = l.quantileVariable k := by
  have hhead : ("eta_" ++ toString k).toList.head? = some 'e' := head?_append_word (by decide) _
  have hfamily : ¬(l.quantileVariable k).key.family = 1 := Nat.zero_ne_one
  rw [variableOf, if_neg hfamily]
  exact if_pos hhead

theorem variableOf_row (l : TailLevels Rat) {scale : Rat} {k : Nat} {s : Path} :
    ∀ v ∈ (tailRow k scale s).vars, variableOf l scale v.key = v := by
  have hindicator : ∀ {word : String}, word.toList.head? = some 'l' → ∀ x,
      variableOf l scale ⟨word ++ x, 0⟩ = .binary (word ++ x) 0 := by
    intro word hword x
    have hhead : (word ++ x).toList.head? = some 'l' := head?_append_word hword x
    have hfamily : ¬(⟨word ++ x, 0⟩ : VarKey).family = 1 := Nat.zero_ne_one
    rw [variableOf, if_neg hfamily, if_neg (by rw [hhead]; decide), if_neg (by rw [hhead]; decide)]
  have hmass : ∀ {word : String}, word.toList.head? = some 'r' → ∀ x,
      variableOf l scale ⟨word ++ x, 0⟩ = .real (word ++ x) 0 0 scale := by
    intro word hword x
    have hhead : (word ++ x).toList.head? = some 'r' := head?_append_word hword x
    have hfamily : ¬(⟨word ++ x, 0⟩ : VarKey).family = 1 := Nat.zero_ne_one
    rw [variableOf, if_neg hfamily, if_neg (by rw [hhead]; decide), if_pos hhead]
  simp only [TailRow.vars, List.forall_mem_cons, List.not_mem_nil, false_implies, implies_true, and_true]
  exact ⟨hindicator (by decide) _, hindicator (by decide) _, hmass (by decide) _, hmass (by decide) _⟩

/-! ## Variables that occur -/

section Occurrence

variable (l : TailLevels Rat) {quantile x : Variable Rat} {row : TailRow Rat} {u p scale : Rat}

theorem TailLevels.vars_inequalities : ∀ c ∈ l.inequalities quantile row u p scale x,
    ∀ v ∈ c.vars, v ∈ quantile :: x :: row.vars := by
  let vs := quantile :: x :: row.vars
  have hquantile : (LinearExpr.ofVar quantile).Within vs := LinearExpr.within_ofVar (by simp [vs])
  have hx : (LinearExpr.ofVar x).Within vs := LinearExpr.within_ofVar (by simp [vs])
  have hbelow : (LinearExpr.ofVar row.below).Within vs := LinearExpr.within_ofVar (by simp [vs, TailRow.vars])
  have hatMost : (LinearExpr.ofVar row.atMost).Within vs := LinearExpr.within_ofVar (by simp [vs, TailRow.vars])
  have hstrict : (LinearExpr.ofVar row.strictMass).Within vs :=
    LinearExpr.within_ofVar (by simp [vs, TailRow.vars])
  have hmass : (LinearExpr.ofVar row.mass).Within vs := LinearExpr.within_ofVar (by simp [vs, TailRow.vars])
  have hdistance := hquantile.lowered u
  simp only [TailLevels.inequalities, List.forall_mem_cons, List.not_mem_nil, false_implies, implies_true,
    and_true]
  exact ⟨hdistance.sub (hbelow.scaled _), hdistance.sub ((hbelow.scaled _).lowered _),
    hdistance.sub ((hatMost.scaled _).lowered _), hdistance.sub ((hatMost.lowered _).scaled _),
    hstrict.sub (hbelow.scaled _), hmass.sub (hatMost.scaled _), hstrict.sub hmass, hmass.sub (hx.scaled _),
    ((hx.scaled _).sub (((LinearExpr.within_number 1).sub hbelow).scaled _)).sub hstrict⟩

theorem TailLevels.occurs_inequalities (hscale : scale ≠ 0) (hp : p * scale ≠ 0) :
    ∀ v ∈ quantile :: x :: row.vars, ∃ c ∈ l.inequalities quantile row u p scale x,
      v.key ∈ c.vars.map Variable.key := by
  -- a variable on the left or the right side of a comparison occurs in it
  have hleft : ∀ {e f : LinearExpr Rat} {v : Variable Rat}, v.key ∈ e.keys →
      v.key ∈ (Constraint.atMost e f).vars.map Variable.key := fun h => LinearExpr.keys_sub.2 (Or.inl h)
  have hright : ∀ {e f : LinearExpr Rat} {v : Variable Rat}, v.key ∈ f.keys →
      v.key ∈ (Constraint.atMost e f).vars.map Variable.key := fun h => LinearExpr.keys_sub.2 (Or.inr h)
  have hown : ∀ v : Variable Rat, v.key ∈ (LinearExpr.ofVar v).keys := fun v => List.mem_singleton_self _
  have hmultiple : ∀ {c : Rat}, c ≠ 0 →
      ∀ v : Variable Rat, v.key ∈ (LinearExpr.scaled c (.ofVar v)).keys := by
    intro c hc v
    rw [LinearExpr.keys_scaled hc]
    exact hown v
  have hbelow : .atMost (.ofVar row.strictMass) (.scaled scale (.ofVar row.below)) ∈
      l.inequalities quantile row u p scale x := by simp [TailLevels.inequalities]
  have hatMost : .atMost (.ofVar row.mass) (.scaled scale (.ofVar row.atMost)) ∈
      l.inequalities quantile row u p scale x := by simp [TailLevels.inequalities]
  have htaken : .atMost (.ofVar row.mass) (.scaled (p * scale) (.ofVar x)) ∈
      l.inequalities quantile row u p scale x := by simp [TailLevels.inequalities]
  simp only [TailRow.vars, List.forall_mem_cons, List.not_mem_nil, false_implies, implies_true, and_true]
  exact ⟨⟨_, List.mem_cons_self, hleft (hown quantile)⟩, ⟨_, htaken, hright (hmultiple hp x)⟩,
    ⟨_, hbelow, hright (hmultiple hscale row.below)⟩, ⟨_, hatMost, hright (hmultiple hscale row.atMost)⟩,
    ⟨_, hbelow, hleft (hown row.strictMass)⟩, ⟨_, hatMost, hleft (hown row.mass)⟩⟩

end Occurrence

/-! ## Feasible points -/

namespace Diagram

variable {dia : Diagram Rat} {rules : List ForbiddenRule} {fixed : FixedStates} {l : TailLevels Rat} {k : Nat}
  {level scale : Rat} {point : VarKey → Rat}

/-- The variables that occur in the constraints of a tail objective. -/
def tailVariables (dia : Diagram Rat) (rules : List ForbiddenRule) (fixed : FixedStates) (l : TailLevels Rat)
    (k : Nat) (scale : Rat) : List (Variable Rat) :=
  l.quantileVariable k ::
    (dia.memberPaths rules fixed).flatMap fun s => pathVariable 1 s :: (tailRow k scale s).vars

theorem forall_tailVariables {p : Variable Rat → Prop} :
    (∀ v ∈ dia.tailVariables rules fixed l k scale, p v) ↔ p (l.quantileVariable k) ∧
      ∀ s ∈ dia.memberPaths rules fixed, p (pathVariable 1 s) ∧ ∀ v ∈ (tailRow k scale s).vars, p v := by
  rw [tailVariables, List.forall_mem_cons]
  simp only [List.mem_flatMap, forall_exists_index, and_imp]
  refine and_congr_right fun _ => ⟨fun h s hs => List.forall_mem_cons.1 fun v hv => h v s hs hv, ?_⟩
  intro h v s hs hv
  exact List.forall_mem_cons.2 (h s hs) v hv

/-- The key of a variable says what it is. -/
theorem tailVariables_eq_of_key : ∀ v ∈ dia.tailVariables rules fixed l k scale,
    ∀ w ∈ dia.tailVariables rules fixed l k scale, v.key = w.key → v = w := by
  have hkey : ∀ v ∈ dia.tailVariables rules fixed l k scale, variableOf l scale v.key = v := by
    rw [forall_tailVariables]
    exact ⟨variableOf_quantile l scale k, fun s _ => ⟨rfl, variableOf_row l⟩⟩
  intro v hv w hw h
  rw [← hkey v hv, ← hkey w hw, h]

theorem vars_tailConstraints : ∀ c ∈ dia.tailConstraints rules fixed l k level scale, ∀ v ∈ c.vars,
    v ∈ dia.tailVariables rules fixed l k scale := by
  have hrow : ∀ s ∈ dia.memberPaths rules fixed, ∀ v ∈ (tailRow k scale s).vars,
      v ∈ dia.tailVariables rules fixed l k scale := by
    intro s hs v hv
    exact List.mem_cons_of_mem _ (List.mem_flatMap.2 ⟨s, hs, List.mem_cons_of_mem _ hv⟩)
  intro c hc v hv
  rcases List.mem_append.1 hc with hc | hc
  · obtain ⟨s, hs, hc⟩ := List.mem_flatMap.1 hc
    rcases List.mem_cons.1 (l.vars_inequalities c hc v hv) with rfl | hv
    · exact List.mem_cons_self
    · exact List.mem_cons_of_mem _ (List.mem_flatMap.2 ⟨s, hs, hv⟩)
  · rw [List.mem_singleton.1 hc] at hv
    obtain ⟨s, hs, rfl⟩ := List.mem_map.1 (LinearExpr.vars_sumVars hv)
    exact hrow s hs _ (by simp [TailRow.vars])

theorem occurs_tailConstraints (level : Rat) (hscale : 0 < scale) (hne : dia.memberPaths rules fixed ≠ []) :
    ∀ v ∈ dia.tailVariables rules fixed l k scale, ∃ c ∈ dia.tailConstraints rules fixed l k level scale,
      v.key ∈ c.vars.map Variable.key := by
  -- the constraints of one path have its variables, its path variable and the quantile
  have hoccurs : ∀ s ∈ dia.memberPaths rules fixed,
      ∀ v ∈ l.quantileVariable k :: pathVariable 1 s :: (tailRow k scale s).vars,
        ∃ c ∈ dia.tailConstraints rules fixed l k level scale, v.key ∈ c.vars.map Variable.key := by
    intro s hs v hv
    have hp := mul_pos (prob_pos_of_member hs) hscale
    obtain ⟨c, hc, hkey⟩ := l.occurs_inequalities (u := dia.utility s) (ne_of_gt hscale) (ne_of_gt hp) v hv
    exact ⟨c, List.mem_append_left _ (List.mem_flatMap.2 ⟨s, hs, hc⟩), hkey⟩
  rw [forall_tailVariables]
  constructor
  · obtain ⟨s, hs⟩ := List.exists_mem_of_ne_nil _ hne
    exact hoccurs s hs _ List.mem_cons_self
  · intro s hs
    have := hoccurs s hs
    exact List.forall_mem_cons.1 fun v hv => this v (List.mem_cons_of_mem _ hv)

/-- Whatever the variable of a path is, the values of its other variables solve the linear program if they are admissible
and satisfy the constraints of the path. -/
theorem row_solution_iff {u p : Rat} {s : Path} {x : Variable Rat} :
    ((∀ v ∈ (tailRow k scale s).vars, Problem.Admits point v) ∧
      ∀ c ∈ l.inequalities (l.quantileVariable k) (tailRow k scale s) u p scale x, c.Holds point) ↔
    TailRowSolution l scale (tailValues k point).quantile u (p * point x.key) ((tailValues k point).below s)
      ((tailValues k point).atMost s) ((tailValues k point).strictMass s) ((tailValues k point).mass s) := by
  rw [l.forall_inequalities_iff, mul_comm p scale, mul_assoc]
  simp only [TailRow.vars, List.forall_mem_cons, List.not_mem_nil, false_implies, implies_true, and_true]
  constructor
  · rintro ⟨⟨hbelow, hatMost, hstrict, hmass⟩, h1, h2, h3, h4, h5, h6, h7, h8, h9⟩
    obtain ⟨hstrict, hstrict_le⟩ := admits_real.1 hstrict
    obtain ⟨hmass, hmass_le⟩ := admits_real.1 hmass
    exact ⟨admits_binary.1 hbelow, admits_binary.1 hatMost, hstrict, hstrict_le, hmass, hmass_le,
      h1, h2, h3, h4, h5, h6, h7, h8, h9⟩
  · intro h
    exact ⟨⟨admits_binary.2 h.below_binary, admits_binary.2 h.atMost_binary,
      admits_real.2 ⟨h.strictMass_nonneg, h.strictMass_le_scale⟩,
      admits_real.2 ⟨h.mass_nonneg, h.mass_le_scale⟩⟩,
      h.distance_le_below, h.below_le_distance, h.distance_le_atMost, h.atMost_le_distance, h.strictMass_le_below,
      h.mass_le_atMost, h.strictMass_le_mass, h.mass_le_taken, h.taken_le_strictMass⟩

/-- What a point says about the variables and the constraints of one path. -/
theorem tail_row_iff {s : Path} :
    ((Problem.Admits point (pathVariable 1 s) ∧ ∀ v ∈ (tailRow k scale s).vars, Problem.Admits point v) ∧
      ∀ c ∈ l.inequalities (l.quantileVariable k) (tailRow k scale s) (dia.utility s) (dia.prob s) scale
        (pathVariable 1 s), c.Holds point) ↔
    (0 ≤ shareAt point s ∧ shareAt point s ≤ 1) ∧
      TailRowSolution l scale (tailValues k point).quantile (dia.utility s) (dia.prob s * shareAt point s)
        ((tailValues k point).below s) ((tailValues k point).atMost s) ((tailValues k point).strictMass s)
        ((tailValues k point).mass s) := by
  rw [and_assoc]
  exact and_congr admits_real row_solution_iff

theorem holds_mass_iff {ss : List Path} :
    (Constraint.equals (.sumVars (ss.map fun s => (tailRow k scale s).mass)) (level * scale)).Holds point ↔
      (ss.map (tailValues k point).mass).sum = level * scale := by
  rw [Constraint.holds_equals, LinearExpr.eval_sumVars, List.map_map]
  rfl

/-- **Feasibility.** The points that are feasible for the constraints of a tail objective are those at which
the path variables are shares and the others solve the linear program. -/
theorem tail_feasible_iff (hscale : 0 < scale) (hne : dia.memberPaths rules fixed ≠ []) :
    (Problem.ofConstraints (dia.tailConstraints rules fixed l k level scale)).Feasible point ↔
      (∀ s ∈ dia.memberPaths rules fixed, 0 ≤ shareAt point s ∧ shareAt point s ≤ 1) ∧
      TailSolution l (dia.memberPaths rules fixed) dia.utility (fun s => dia.prob s * shareAt point s) level scale
        (tailValues k point) := by
  have hconstraints : ∀ {p : Constraint Rat → Prop},
      (∀ c ∈ (Problem.ofConstraints (dia.tailConstraints rules fixed l k level scale)).constraints, p c.2) ↔
        ∀ c ∈ dia.tailConstraints rules fixed l k level scale, p c := List.forall_mem_map
  rw [Problem.feasible_iff (dia.tailVariables rules fixed l k scale) tailVariables_eq_of_key
    (hconstraints.2 vars_tailConstraints) ?_ point]
  rotate_left
  · intro v hv
    obtain ⟨c, hc, hkey⟩ := occurs_tailConstraints level hscale hne v hv
    exact ⟨("", c), List.mem_map_of_mem hc, hkey⟩
  -- both sides path by path
  rw [hconstraints (p := fun c => c.Holds point), forall_tailVariables, tailConstraints, List.forall_mem_append]
  constructor
  · rintro ⟨⟨hquantile, hadmits⟩, hholds, htotal⟩
    have hrows := fun s hs =>
      tail_row_iff.1 ⟨hadmits s hs, fun c hc => hholds c (List.mem_flatMap.2 ⟨s, hs, hc⟩)⟩
    obtain ⟨hleast, hgreatest⟩ := admits_real.1 hquantile
    exact ⟨fun s hs => (hrows s hs).1, hleast, hgreatest, fun s hs => (hrows s hs).2,
      holds_mass_iff.1 (htotal _ (List.mem_singleton_self _))⟩
  · rintro ⟨hshares, h⟩
    have hrows := fun s hs => tail_row_iff.2 ⟨hshares s hs, h.rows s hs⟩
    refine ⟨⟨admits_real.2 ⟨h.least_le, h.le_greatest⟩, fun s hs => (hrows s hs).1⟩, ?_, ?_⟩
    · intro c hc
      obtain ⟨s, hs, hc⟩ := List.mem_flatMap.1 hc
      exact (hrows s hs).2 c hc
    · intro c hc
      rw [List.mem_singleton.1 hc]
      exact holds_mass_iff.2 h.total

end Diagram

/-! ## Writing values into a point -/

theorem tailKey_inj {word : String} {k : Nat} {s t : Path} (h : tailKey word k s = tailKey word k t) : s = t := by
  have hname : word ++ (toString k ++ "_" ++ pathToken s) = word ++ (toString k ++ "_" ++ pathToken t) :=
    congrArg VarKey.name h
  exact pathToken_injective (String.append_right_inj _ |>.1 (String.append_right_inj _ |>.1 hname))

theorem tailKey_ne_of_head {word : String} {k : Nat} {s : Path} {key : VarKey} (hword : word ≠ "")
    (h : key.name.toList.head? ≠ word.toList.head?) : tailKey word k s ≠ key := by
  have hne : word.toList ≠ [] := fun hnil => hword (String.toList_injective hnil)
  rintro rfl
  apply h
  show (word ++ (toString k ++ "_" ++ pathToken s)).toList.head? = word.toList.head?
  rw [String.toList_append, List.head?_append_of_ne_nil _ hne]

/-- A number does not start with a letter. -/
theorem tailKey_ne_bar {word barred : String} (hword : barred = word ++ "bar_") (k : Nat) (s t : Path) :
    tailKey word k s ≠ tailKey barred k t := by
  rw [hword]
  intro h
  have hname : word ++ (toString k ++ "_" ++ pathToken s) =
      word ++ "bar_" ++ (toString k ++ "_" ++ pathToken t) := congrArg VarKey.name h
  simp only [String.append_assoc, String.append_right_inj] at hname
  have hdigits : (toString k).toList = Nat.toDigits 10 k := Nat.toList_repr
  have hk : (toString k).toList ≠ [] := by
    rw [hdigits]
    exact Nat.toDigits_ne_nil
  have hhead := congrArg (fun text : String => text.toList.head?) hname
  simp only [String.toList_append, List.head?_append_of_ne_nil _ hk] at hhead
  -- the first digit of the number would be a letter
  have hmem : 'b' ∈ Nat.toDigits 10 k := by
    rw [← hdigits]
    exact List.mem_of_head? hhead
  exact absurd (Nat.isDigit_of_mem_toDigits (by decide) (by decide) hmem) (by decide)

/-- The point with values for the variables of some paths. -/
def writePaths (word : String) (k : Nat) (ss : List Path) (value : Path → Rat) (point : VarKey → Rat) :
    VarKey → Rat :=
  fun key => match ss.find? fun s => decide (tailKey word k s = key) with
    | some s => value s
    | none => point key

section Writing

variable {word : String} {k : Nat} {ss : List Path} {value : Path → Rat} {point : VarKey → Rat}

theorem writePaths_self {s : Path} (hs : s ∈ ss) : writePaths word k ss value point (tailKey word k s) = value s := by
  unfold writePaths
  cases hfind : ss.find? fun t => decide (tailKey word k t = tailKey word k s) with
  | none => exact absurd (decide_eq_true rfl) (List.find?_eq_none.1 hfind s hs)
  | some t =>
      have ht := List.find?_some hfind
      rw [tailKey_inj (of_decide_eq_true ht)]

theorem writePaths_ne {key : VarKey} (h : ∀ s, tailKey word k s ≠ key) :
    writePaths word k ss value point key = point key := by
  have hfind : (ss.find? fun s => decide (tailKey word k s = key)) = none :=
    List.find?_eq_none.2 fun s _ => by simpa using h s
  rw [writePaths, hfind]

end Writing

/-- The point with values for all variables of a tail objective. -/
def writeTail (k : Nat) (ss : List Path) (t : TailValues) (point : VarKey → Rat) : VarKey → Rat :=
  writePaths "lambda_" k ss t.below <| writePaths "lambda_bar_" k ss t.atMost <|
    writePaths "rho_" k ss t.strictMass <| writePaths "rho_bar_" k ss t.mass <|
      Function.update point ⟨"eta_" ++ toString k, 0⟩ t.quantile

section Writing

variable {k : Nat} {ss : List Path} {t : TailValues} {point : VarKey → Rat}

/-- A variable whose name does not start like those of a tail objective keeps its value. -/
theorem writeTail_of_head {key : VarKey}
    (h : ∀ c ∈ ['e', 'l', 'r'], key.name.toList.head? ≠ some c) : writeTail k ss t point key = point key := by
  have hl : key.name.toList.head? ≠ some 'l' := h 'l' (by decide)
  have hr : key.name.toList.head? ≠ some 'r' := h 'r' (by decide)
  have he : key ≠ ⟨"eta_" ++ toString k, 0⟩ := by
    rintro rfl
    exact h 'e' (by decide) (head?_append_word (by decide) _)
  rw [writeTail, writePaths_ne fun s => tailKey_ne_of_head (by decide) hl,
    writePaths_ne fun s => tailKey_ne_of_head (by decide) hl,
    writePaths_ne fun s => tailKey_ne_of_head (by decide) hr,
    writePaths_ne fun s => tailKey_ne_of_head (by decide) hr, Function.update_of_ne he]

theorem choiceAt_writeTail (d : InfoNode) (index : Path) :
    choiceAt (writeTail k ss t point) d index = choiceAt point d index := by
  apply writeTail_of_head
  have hhead : ("z_" ++ (toString d.index ++ "_" ++ pathToken index)).toList.head? = some 'z' :=
    head?_append_word (by decide) _
  simp only [← String.append_assoc] at hhead
  intro c hc
  change ("z_" ++ toString d.index ++ "_" ++ pathToken index).toList.head? ≠ some c
  rw [hhead]
  rintro ⟨rfl⟩
  revert hc
  decide

theorem shareAt_writeTail (s : Path) : shareAt (writeTail k ss t point) s = shareAt point s := by
  apply writeTail_of_head
  have hhead : ("x_" ++ pathToken s).toList.head? = some 'x' := head?_append_word (by decide) _
  intro c hc
  change ("x_" ++ pathToken s).toList.head? ≠ some c
  rw [hhead]
  rintro ⟨rfl⟩
  revert hc
  decide

theorem quantile_writeTail : (tailValues k (writeTail k ss t point)).quantile = t.quantile := by
  have hhead : ("eta_" ++ toString k).toList.head? = some 'e' := head?_append_word (by decide) _
  have hne : ∀ {word : String}, word ≠ "" → word.toList.head? ≠ some 'e' → ∀ s,
      tailKey word k s ≠ ⟨"eta_" ++ toString k, 0⟩ := by
    intro word hword hstart s
    exact tailKey_ne_of_head hword (by rw [hhead]; exact hstart.symm)
  show writeTail k ss t point ⟨"eta_" ++ toString k, 0⟩ = t.quantile
  rw [writeTail, writePaths_ne (hne (by decide) (by decide)), writePaths_ne (hne (by decide) (by decide)),
    writePaths_ne (hne (by decide) (by decide)), writePaths_ne (hne (by decide) (by decide)),
    Function.update_self]

/-- The values that are written are those that are read. -/
theorem tailValues_writeTail (k : Nat) (t : TailValues) (point : VarKey → Rat) {s : Path} (hs : s ∈ ss) :
    (tailValues k (writeTail k ss t point)).below s = t.below s ∧
      (tailValues k (writeTail k ss t point)).atMost s = t.atMost s ∧
      (tailValues k (writeTail k ss t point)).strictMass s = t.strictMass s ∧
      (tailValues k (writeTail k ss t point)).mass s = t.mass s := by
  have hhead : ∀ {word word' : String}, word ≠ "" → word' ≠ "" → word'.toList.head? ≠ word.toList.head? →
      ∀ r, tailKey word k r ≠ tailKey word' k s := by
    intro word word' hword hword' hne r
    apply tailKey_ne_of_head hword
    have hnil : word'.toList ≠ [] := fun hnil => hword' (String.toList_injective hnil)
    show (word' ++ (toString k ++ "_" ++ pathToken s)).toList.head? ≠ _
    rwa [String.toList_append, List.head?_append_of_ne_nil _ hnil]
  refine ⟨writePaths_self hs, ?_, ?_, ?_⟩
  · show writeTail k ss t point (tailKey "lambda_bar_" k s) = _
    rw [writeTail, writePaths_ne fun r => tailKey_ne_bar (by decide) k r s, writePaths_self hs]
  · show writeTail k ss t point (tailKey "rho_" k s) = _
    rw [writeTail, writePaths_ne (hhead (by decide) (by decide) (by decide)),
      writePaths_ne (hhead (by decide) (by decide) (by decide)), writePaths_self hs]
  · show writeTail k ss t point (tailKey "rho_bar_" k s) = _
    rw [writeTail, writePaths_ne (hhead (by decide) (by decide) (by decide)),
      writePaths_ne (hhead (by decide) (by decide) (by decide)),
      writePaths_ne fun r => tailKey_ne_bar (by decide) k r s, writePaths_self hs]

/-- A solution of the linear program is one at the point that it is written into. -/
theorem TailSolution.writeTail {l : TailLevels Rat} {u taken : Path → Rat} {level scale : Rat}
    (h : TailSolution l ss u taken level scale t) (k : Nat) (point : VarKey → Rat) :
    TailSolution l ss u taken level scale (tailValues k (writeTail k ss t point)) := by
  refine ⟨?_, ?_, ?_, ?_⟩
  · rw [quantile_writeTail]
    exact h.least_le
  · rw [quantile_writeTail]
    exact h.le_greatest
  · intro s hs
    obtain ⟨hbelow, hatMost, hstrict, hmass⟩ := tailValues_writeTail k t point hs
    rw [quantile_writeTail, hbelow, hatMost, hstrict, hmass]
    exact h.rows s hs
  · rw [← h.total]
    congr 1
    exact List.map_congr_left fun s hs => (tailValues_writeTail k t point hs).2.2.2

end Writing
end InfluenceDiagrams
