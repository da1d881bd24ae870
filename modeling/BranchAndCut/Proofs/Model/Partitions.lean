import BranchAndCut.Proofs.Model.Groups

/-! # Partitions stay exact

Whatever calls a problem has seen, also those that were refused, its order lists each
variable that has not been taken out once, group after group by the type that it has now,
the table of positions follows the order, and names and bounds are as the types demand. -/

namespace BranchAndCut

/-- The bounds of a variable are sound, and those of a binary one lie within [0, 1]. -/
def Variable.Fit {K : Type} [Scalar K] (x : Variable K) : Prop :=
  x.Sound ∧ (x.type = .binary → 0 ≤ x.lower ∧ x.upper ≤ 1)

namespace Problem

variable {K : Type} [Scalar K] {p q : Problem K} {v : VarId} {t : VarType} {lower upper : K} {fixed : List VarId}

/-! ## Calls -/

/-- The problem after a variable was added, or the call was refused. -/
def afterAddVar (p : Problem K) (name : String) (t : VarType) (lower upper obj : K) : Problem K :=
  match p.addVar name t lower upper obj with
  | .ok (_, q) => q
  | .error _ => p

/-- The problem after a type was changed, or the call was refused. -/
def afterChangeType (p : Problem K) (v : VarId) (t : VarType) : Problem K :=
  match p.changeType v t with
  | .ok q => q
  | .error _ => p

/-- Problems as calls make them, with the variables that were taken out, some maybe twice. -/
inductive Called : Problem K → List VarId → Prop
  | new (name : String) : Called (.new name) []
  | addVar {p : Problem K} {fixed : List VarId} (h : Called p fixed) (name : String) (t : VarType)
      (lower upper obj : K) : Called (p.afterAddVar name t lower upper obj) fixed
  | changeType {p : Problem K} {fixed : List VarId} (h : Called p fixed) (v : VarId) (hv : v < p.numVars)
      (t : VarType) : Called (p.afterChangeType v t) fixed
  | compact {p : Problem K} {fixed : List VarId} (h : Called p fixed) (v : VarId) (hv : v < p.numVars) :
      Called (p.compact v) (v :: fixed)

/-! ## What calls keep -/

/-- The order and the table of positions, with the variables that have been taken out. -/
structure Listed (p : Problem K) (fixed : List VarId) : Prop where
  partitioned : p.Partitioned
  active : ∀ v, p.isActive v = true ↔ v < p.numVars ∧ v ∉ fixed

theorem Listed.addVar (h : p.Listed fixed) (hfixed : ∀ v ∈ fixed, v < p.numVars) {name : String} {obj : K}
    (hadd : p.addVar name t lower upper obj = .ok (v, q)) : q.Listed fixed := by
  refine ⟨(h.partitioned.addVar hadd).1, fun w => (h.partitioned.isActive_addVar hadd).trans ?_⟩
  rw [h.active, addVar_numVars hadd, Nat.lt_succ_iff_lt_or_eq]
  refine ⟨fun hw => ?_, fun hw => hw.1.imp_left (⟨·, hw.2⟩)⟩
  rcases hw with hw | rfl
  · exact ⟨.inl hw.1, hw.2⟩
  · exact ⟨.inr rfl, fun hmem => Nat.lt_irrefl _ (hfixed _ hmem)⟩

theorem Listed.changeType (h : p.Listed fixed) (hv : v < p.numVars) (hchange : p.changeType v t = .ok q) :
    q.Listed fixed := by
  obtain ⟨hpartitioned, hsize, hactive⟩ := h.partitioned.changeType hv hchange
  exact ⟨hpartitioned, fun w => by rw [hactive, hsize, h.active]⟩

theorem compact_vars (p : Problem K) (v : VarId) : (p.compact v).vars = p.vars ∧ (p.compact v).names = p.names := by
  unfold compact
  split <;> exact ⟨rfl, rfl⟩

theorem numVars_compact (p : Problem K) (v : VarId) : (p.compact v).numVars = p.numVars :=
  congrArg Array.size (p.compact_vars v).1

theorem var_compact (p : Problem K) (v w : VarId) : (p.compact v).var w = p.var w := by
  unfold var
  rw [(p.compact_vars v).1]

theorem Listed.compact (h : p.Listed fixed) (v : VarId) : (p.compact v).Listed (v :: fixed) := by
  obtain ⟨hpartitioned, hmem⟩ := h.partitioned.compact v
  refine ⟨hpartitioned, fun w => hpartitioned.groups.isSome_position?.trans ?_⟩
  rw [exists_congr (hmem w), exists_and_right, ← h.partitioned.groups.isSome_position?, numVars_compact,
    List.mem_cons, not_or, and_comm (b := w ∉ fixed), ← and_assoc]
  exact and_congr_left' (h.active w)

theorem Called.listed (h : Called p fixed) : p.Listed fixed ∧ ∀ v ∈ fixed, v < p.numVars := by
  induction h with
  | new name => exact ⟨⟨.new name, fun v => ⟨nofun, nofun⟩⟩, nofun⟩
  | @addVar p fixed h name t lower upper obj ih =>
    unfold afterAddVar
    split
    · next id q hadd =>
      refine ⟨ih.1.addVar ih.2 hadd, fun v hv => ?_⟩
      rw [addVar_numVars hadd]
      exact Nat.lt_succ_of_lt (ih.2 v hv)
    · exact ih
  | @changeType p fixed h v hv t ih =>
    unfold afterChangeType
    split
    · next q hchange =>
      refine ⟨ih.1.changeType hv hchange, fun w hw => ?_⟩
      rw [(ih.1.partitioned.changeType hv hchange).2.1]
      exact ih.2 w hw
    · exact ih
  | @compact p fixed h v hv ih =>
    refine ⟨ih.1.compact v, fun w hw => ?_⟩
    rw [numVars_compact]
    rcases List.mem_cons.mp hw with rfl | hw
    · exact hv
    · exact ih.2 w hw

/-- Names are found, and no other ones. -/
def Named (p : Problem K) : Prop := ∀ name v, p.findVar? name = some v ↔ v < p.numVars ∧ (p.var v).name = name

theorem Named.addVar (h : p.Named) {name : String} {obj : K} (hadd : p.addVar name t lower upper obj = .ok (v, q)) :
    q.Named := by
  intro other w
  have hfree := findVar?_of_addVar hadd
  have hfind : q.findVar? other = if other = name then some p.numVars else p.findVar? other := by
    obtain ⟨-, -, rfl⟩ := addVar_spec hadd
    show List.lookup other ((name, p.numVars) :: p.names) = _
    rw [List.lookup_cons]
    by_cases heq : other = name
    · rw [if_pos heq, beq_iff_eq.mpr heq]
    · rw [if_neg heq, beq_false_of_ne heq]
      rfl
  rw [hfind, addVar_vars hadd, addVar_numVars hadd]
  by_cases hw : w = p.numVars
  · rw [if_pos hw, hw, and_iff_right (Nat.lt_succ_self _)]
    by_cases heq : other = name
    · rw [if_pos heq]
      exact ⟨fun _ => heq.symm, fun _ => rfl⟩
    · rw [if_neg heq]
      exact ⟨fun hfound => absurd ((h _ _).mp hfound).1 (Nat.lt_irrefl _), fun hname => absurd hname.symm heq⟩
  · rw [if_neg hw, Nat.lt_succ_iff_lt_or_eq, or_iff_left hw, ← h]
    by_cases heq : other = name
    · rw [if_pos heq, heq, hfree, Option.some.injEq]
      exact ⟨fun hsame => absurd hsame.symm hw, nofun⟩
    · rw [if_neg heq]

theorem Named.changeType (h : p.Named) (hv : v < p.numVars) (hchange : p.changeType v t = .ok q) : q.Named := by
  rcases changeType_spec hchange with rfl | rfl
  · exact h
  intro name w
  rw [var_modify hv]
  refine (h name w).trans (and_congr (iff_of_eq (congrArg (w < ·) Array.size_modify.symm)) (iff_of_eq ?_))
  split <;> rfl

theorem Named.compact (h : p.Named) (v : VarId) : (p.compact v).Named := by
  intro name w
  rw [numVars_compact, var_compact, ← h]
  unfold findVar?
  rw [(p.compact_vars v).2]

/-- What all calls keep. -/
structure Kept (p : Problem K) (fixed : List VarId) : Prop where
  listed : p.Listed fixed
  known : ∀ v ∈ fixed, v < p.numVars
  named : p.Named
  fit : ∀ v < p.numVars, (p.var v).Fit

section Rounds

variable [Scalar.Ordered K] [Scalar.Rounds K]

theorem fit_normalize {x : Variable K} (hlower : Scalar.isNaN x.lower = false) (hupper : Scalar.isNaN x.upper = false) :
    Variable.Fit { x with
      type := t, lower := (normalize t x.lower x.upper).1, upper := (normalize t x.lower x.upper).2 } := by
  refine ⟨sound_normalize hlower hupper, fun ht => ?_⟩
  change t = .binary at ht
  subst ht
  exact ⟨Scalar.Ordered.le_max_right Scalar.Rounds.defined_zero, Scalar.Ordered.min_le_right Scalar.Rounds.defined_one⟩

theorem Called.kept (h : Called p fixed) : p.Kept fixed := by
  suffices hrest : p.Named ∧ ∀ v < p.numVars, (p.var v).Fit from
    ⟨h.listed.1, h.listed.2, hrest.1, hrest.2⟩
  induction h with
  | new name => exact ⟨fun _ _ => ⟨nofun, nofun⟩, nofun⟩
  | @addVar p fixed h name t lower upper obj ih =>
    unfold afterAddVar
    split
    · next id q hadd =>
      obtain ⟨hlower, hupper⟩ := defined_of_addVar hadd
      exact ⟨ih.1.addVar hadd,
        forall_addVar ih.2 hadd (fit_normalize (x := ⟨name, t, obj, lower, upper⟩) hlower hupper)⟩
    · exact ih
  | @changeType p fixed h v hv t ih =>
    unfold afterChangeType
    split
    · next q hchange =>
      exact ⟨ih.1.changeType hv hchange,
        forall_changeType ih.2 hv hchange fun x hx => fit_normalize hx.1.defined.1 hx.1.defined.2⟩
    · exact ih
  | @compact p fixed h v hv ih =>
    refine ⟨ih.1.compact v, fun w hw => ?_⟩
    rw [var_compact]
    exact ih.2 w (numVars_compact p v ▸ hw)

/-- What the order of a problem tells, and its table of names, given the variables that have
been taken out. -/
structure Partition (p : Problem K) (fixed : List VarId) : Prop where
  /-- The other variables are listed, each of them once. -/
  listed : ∀ v, v ∈ p.order ↔ v < p.numVars ∧ v ∉ fixed
  nodup : p.order.Nodup
  /-- The groups lie one after another, binary variables first and continuous ones last. -/
  contiguous : p.order = VarType.all.flatMap fun t => (p.groups.get t).toList
  typed : ∀ t, ∀ v ∈ p.groups.get t, (p.var v).type = t
  counts : ∀ t, p.groups.count t = (p.groups.get t).size
  positions : ∀ v, p.groups.position? v = p.order.idxOf? v
  branchable : ∀ v, v ∈ p.branchable ↔ v ∈ p.order ∧ ((p.var v).type = .binary ∨ (p.var v).type = .integer)
  names : ∀ name v, p.findVar? name = some v ↔ v < p.numVars ∧ (p.var v).name = name
  binary : ∀ v < p.numVars, (p.var v).type = .binary → 0 ≤ (p.var v).lower ∧ (p.var v).upper ≤ 1
  integral : ∀ v < p.numVars, p.isIntegral v = true → Scalar.Whole (p.var v).lower ∧ Scalar.Whole (p.var v).upper

/-- **Partitions stay exact** under all calls. -/
theorem Called.keeps_partition (h : Called p fixed) : p.Partition fixed := by
  obtain ⟨⟨hpartitioned, hactive⟩, hknown, hnamed, hfit⟩ := h.kept
  have hwf := hpartitioned.groups
  have horder : ∀ v, v ∈ p.order ↔ p.isActive v = true := fun v => by
    unfold order
    rw [Array.mem_toList_iff, hwf.mem_order]
    exact hwf.isSome_position?.symm
  refine ⟨fun v => (horder v).trans (hactive v), hwf.nodup_order, hwf.laid.order, fun t v => hpartitioned.typed,
    fun t => hwf.laid.counts t, fun v => ?_, fun v => ?_, hnamed, fun v hv => (hfit v hv).2,
    fun v hv => (hfit v hv).1.whole⟩
  · refine Option.ext fun i => (hwf.tracked v i).trans ?_
    rw [List.idxOf?_eq_some_iff, ← Array.getElem?_toList, List.getElem?_eq_some_iff]
    refine ⟨fun ⟨hi, hv⟩ => ⟨hi, hv, fun j hj heq => ?_⟩, fun ⟨hi, hv, _⟩ => ⟨hi, hv⟩⟩
    exact Nat.ne_of_lt hj (hwf.nodup_order.getElem_inj_iff.mp (heq.trans hv.symm))
  · rw [hpartitioned.mem_branchable, horder]
    refine and_congr_right fun _ => ?_
    cases (p.var v).type <;> decide

end Rounds

/-- Three variables: a second one of the same name and a change of type are refused, another
type is changed, and one variable is taken out. -/
def shuffled : Problem (Exact ℚ) :=
  (((((new "shuffled").afterAddVar "x" .continuous 0 2 1).afterAddVar "y" .binary 0 1 1).afterAddVar "x" .binary 0 1 1
    |>.afterAddVar "z" .implicit (-3) 3 1).afterChangeType 0 .integer |>.afterChangeType 2 .binary).compact 1

theorem called_partition_shuffled : shuffled.Called [1] ∧ shuffled.Partition [1] ∧ shuffled.order = [0, 2] := by
  have hcalled : shuffled.Called [1] := by
    refine .compact (.changeType (.changeType (.addVar (.addVar (.addVar (.addVar (.new _) ..) ..) ..) ..) 0 ?_ _) 2 ?_ _)
      1 ?_
    all_goals decide +kernel
  exact ⟨hcalled, hcalled.keeps_partition, by decide +kernel⟩

end Problem

end BranchAndCut
