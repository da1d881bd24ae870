import BranchAndCut.Proofs.Domain.Containment
import BranchAndCut.Proofs.Domain.Replay
import BranchAndCut.Proofs.Solve.FiniteTree

/-! # Fixed integral variables are decided

All bounds of integral variables are whole, also where they cross. So a nonempty domain that
is narrower than a tolerance below one holds a single integer, what is taken out of the
branchable variables has one value left, and a variable that can take no integer has an empty
domain from the start. A tolerance of one undoes all of this, and the check of the settings
lets it pass. This is said of exact numbers: among machine numbers a tolerance just below one
is too wide already, since one plus it rounds to two. -/

namespace BranchAndCut

namespace Exact

variable [Rooted ℚ] {l u : Exact ℚ} {t : ℚ}

/-- Whole bounds in order that are closer than one are the same integer. -/
theorem existsUnique_int (hl : Scalar.Whole l) (hu : Scalar.Whole u) (hle : l ≤ u) (hclose : u - l ≤ .fin t) (ht : t < 1) :
    ∃! z : ℤ, l ≤ .fin (z : ℚ) ∧ .fin (z : ℚ) ≤ u := by
  cases l with
  | nan => exact hle.elim
  | posInf =>
    cases u with
    | posInf => exact hclose.elim
    | _ => exact hle.elim
  | negInf =>
    cases u with
    | nan => exact hle.elim
    | negInf => exact hclose.elim
    | _ => exact hclose.elim
  | fin l =>
    cases u with
    | nan => exact hle.elim
    | negInf => exact hle.elim
    | posInf => exact hclose.elim
    | fin u =>
      obtain ⟨m, rfl⟩ := exists_int_of_whole hl
      obtain ⟨n, rfl⟩ := exists_int_of_whole hu
      rw [fin_sub, fin_le] at hclose
      rw [fin_le, Int.cast_le] at hle
      have hlt : n < m + 1 := by
        rw [← Int.cast_lt (R := ℚ)]
        push_cast
        linarith
      refine ⟨m, ⟨(fin_le _ _).mpr (le_refl _), (fin_le _ _).mpr (Int.cast_le.mpr hle)⟩, fun z hz => ?_⟩
      have hlow : m ≤ z := Int.cast_le.mp ((fin_le _ _).mp hz.1)
      have hhigh : z ≤ n := Int.cast_le.mp ((fin_le _ _).mp hz.2)
      omega

/-- An integer between whole bounds in order that are not infinite towards the inside. -/
theorem exists_int_between (hl : Scalar.Whole l) (hu : Scalar.Whole u) (hle : l ≤ u) (hlow : l ≠ .posInf)
    (hhigh : u ≠ .negInf) :
    ∃ z : ℤ, l ≤ .fin (z : ℚ) ∧ .fin (z : ℚ) ≤ u := by
  cases l with
  | nan => exact hle.elim
  | posInf => exact (hlow rfl).elim
  | fin l =>
    obtain ⟨m, rfl⟩ := exists_int_of_whole hl
    exact ⟨m, (fin_le _ _).mpr (le_refl _), hle⟩
  | negInf =>
    cases u with
    | nan => exact hle.elim
    | negInf => exact (hhigh rfl).elim
    | posInf => exact ⟨0, trivial, trivial⟩
    | fin u =>
      obtain ⟨n, rfl⟩ := exists_int_of_whole hu
      exact ⟨n, trivial, (fin_le _ _).mpr (le_refl _)⟩

end Exact

/-! ## Whole bounds -/

namespace Domains

variable [Rooted ℚ] {d : Domains (Exact ℚ)} {v : VarId} {t : ℚ}

/-- The bounds of a new variable are whole, if it is integral. -/
def Snapped (_ lower upper : Exact ℚ) (integral : Bool) : Prop :=
  integral = true → Scalar.Whole lower ∧ Scalar.Whole upper

/-- All bounds of integral variables are whole, in a store whose arrays fit. -/
structure Gridded (t : ℚ) (d : Domains (Exact ℚ)) : Prop extends OnGrid d where
  aligned : Aligned d
  tol : d.tol = .fin t

theorem Gridded.addVariable (h : Gridded t d) {lower upper : Exact ℚ} {integral : Bool}
    (hsnapped : Snapped d.tol lower upper integral) : Gridded t (d.addVariable lower upper integral).2 := by
  refine ⟨⟨fun w hw => ?_, fun w hw => ?_⟩, h.aligned.addVariable lower upper integral, h.tol⟩ <;>
    rw [h.aligned.isIntegral_addVariable] at hw
  · rw [h.aligned.globalLb_addVariable, lb_addVariable]
    split at hw
    · next hnew =>
      rw [if_pos hnew, if_pos hnew]
      exact ⟨(hsnapped hw).1, (hsnapped hw).1⟩
    · next hold =>
      rw [if_neg hold, if_neg hold]
      exact h.lower w hw
  · rw [h.aligned.globalUb_addVariable, h.aligned.ub_addVariable]
    split at hw
    · next hnew =>
      rw [if_pos hnew, if_pos hnew]
      exact ⟨(hsnapped hw).2, (hsnapped hw).2⟩
    · next hold =>
      rw [if_neg hold, if_neg hold]
      exact h.upper w hw

/-- **Whole bounds stay whole**, whatever calls are made. -/
theorem kept_gridded : KeptByCalls Snapped (Gridded t) where
  aligned _ h := h.aligned
  agree d e hde h := by
    have hgrid := h.toOnGrid.agree hde
    rw [hde.eq_with] at hgrid ⊢
    exact ⟨hgrid, ⟨h.aligned.globalLower, h.aligned.globalUpper, h.aligned.upper, h.aligned.integral, h.aligned.inRange⟩,
      h.tol⟩
  tighten d v kind value reason hv h := tighten_keeps (I := Gridded t) h fun new happlied =>
    ⟨h.toOnGrid.record kind (fun hint => h.judge hint happlied) reason, h.aligned.record kind new reason hv,
      (record_tol ..).trans h.tol⟩
  push d node h := ⟨⟨h.lower, h.upper⟩, h.aligned.push node, h.tol⟩
  offPath d _ h := ⟨⟨fun v hv => ⟨(h.lower v hv).1, (h.lower v hv).1⟩,
    fun v hv => ⟨(h.upper v hv).1, (h.upper v hv).1⟩⟩, h.aligned.offPath, h.tol⟩
  addVariable _ _ _ _ hsnapped h := h.addVariable hsnapped

/-- A fixed variable of a nonempty domain has one integer left, globally and locally. -/
theorem Gridded.decided (h : Gridded t d) (ht : t < 1) (hv : d.isIntegral v = true) :
    (d.isGloballyFixed v = true → d.globalLb v ≤ d.globalUb v →
      ∃! z : ℤ, d.globalLb v ≤ .fin (z : ℚ) ∧ .fin (z : ℚ) ≤ d.globalUb v) ∧
    (d.isFixed v = true → d.lb v ≤ d.ub v → ∃! z : ℤ, d.lb v ≤ .fin (z : ℚ) ∧ .fin (z : ℚ) ≤ d.ub v) := by
  obtain ⟨hglb, hlb⟩ := h.lower v hv
  obtain ⟨hgub, hub⟩ := h.upper v hv
  constructor
  · intro hfixed hle
    rw [isGloballyFixed, decide_eq_true_eq, h.tol] at hfixed
    exact Exact.existsUnique_int hglb hgub hle hfixed ht
  · intro hfixed hle
    rw [isFixed, decide_eq_true_eq, h.tol] at hfixed
    exact Exact.existsUnique_int hlb hub hle hfixed ht

end Domains

/-! ## The domains of a model -/

/-- The bounds of a variable are not infinite towards the inside. -/
def Variable.Inhabitable (x : Variable (Exact ℚ)) : Prop := x.lower ≠ .posInf ∧ x.upper ≠ .negInf

namespace Problem

variable [Rooted ℚ] {p : Problem (Exact ℚ)} {v w : VarId}

theorem normalize_inhabitable {l u : Exact ℚ} (t : VarType) (hl : l ≠ .posInf) (hu : u ≠ .negInf) :
    (normalize t l u).1 ≠ .posInf ∧ (normalize t l u).2 ≠ .negInf := by
  have hceil : Scalar.ceil l ≠ .posInf := by cases l <;> first | exact hl | nofun
  have hfloor : Scalar.floor u ≠ .negInf := by cases u <;> first | exact hu | nofun
  cases t with
  | continuous => exact ⟨hl, hu⟩
  | integer => exact ⟨hceil, hfloor⟩
  | implicit => exact ⟨hceil, hfloor⟩
  | binary =>
    constructor
    · show Scalar.max (Scalar.ceil l) 0 ≠ .posInf
      rcases Scalar.max_cases (Scalar.ceil l) 0 with heq | heq <;> rw [heq]
      · exact hceil
      · rw [Exact.zero_def]
        nofun
    · show Scalar.min (Scalar.floor u) 1 ≠ .negInf
      rcases Scalar.min_cases (Scalar.floor u) 1 with heq | heq <;> rw [heq]
      · exact hfloor
      · rw [Exact.one_def]
        nofun

theorem inhabitable_of_addVar {q : Problem (Exact ℚ)} {name : String} {t : VarType} {lower upper obj : Exact ℚ}
    (hadd : p.addVar name t lower upper obj = .ok (v, q)) : lower ≠ .posInf ∧ upper ≠ .negInf := by
  have hbounds := (addVar_spec hadd).2.1
  unfold badBounds at hbounds
  rw [Bool.or_eq_false_iff, Bool.or_eq_false_iff] at hbounds
  constructor
  · rintro rfl
    cases hbounds.1.2
  · rintro rfl
    cases hbounds.2

/-- A variable that is taken for a binary one was integral before. -/
theorem isIntegral_asBinary (hv : v < p.numVars) (w : VarId) : (Search.asBinary p v).isIntegral w = p.isIntegral w := by
  unfold Search.asBinary
  dsimp only
  split
  · next hbinary =>
    rw [Bool.and_eq_true, Bool.and_eq_true] at hbinary
    have htype : (p.var v).type = .integer := of_decide_eq_true hbinary.1.1
    split
    · next q hchange =>
      rcases changeType_spec hchange with rfl | rfl
      · rfl
      · unfold isIntegral
        rw [p.var_modify hv]
        split
        · next heq =>
          rw [heq, htype]
          rfl
        · rfl
    · rfl
  · rfl

theorem Tidy.isIntegral_foldl_asBinary (h : p.Tidy) {vars : List VarId} (hvars : ∀ v ∈ vars, v < p.numVars) (w : VarId) :
    (vars.foldl Search.asBinary p).isIntegral w = p.isIntegral w := by
  induction vars generalizing p with
  | nil => rfl
  | cons v vars ih =>
    obtain ⟨htidy, hsize⟩ := h.asBinary (hvars v List.mem_cons_self)
    refine (ih htidy fun u hu => hsize ▸ hvars u (List.mem_cons_of_mem _ hu)).trans ?_
    exact isIntegral_asBinary (hvars v List.mem_cons_self) w

end Problem

theorem Model.Assembled.inhabitable {σ : Type} [Rooted ℚ] {m : Model (Exact ℚ) σ} (h : m.Assembled) :
    ∀ v < m.problem.numVars, (m.problem.var v).Inhabitable :=
  h.problem (P := fun p => ∀ v < p.numVars, (p.var v).Inhabitable) (fun _ => nofun)
    (fun hall hadd => Problem.forall_addVar hall hadd (by
      obtain ⟨hlower, hupper⟩ := Problem.inhabitable_of_addVar hadd
      exact Problem.normalize_inhabitable _ hlower hupper))
    (fun hall hv hchange => Problem.forall_changeType hall hv hchange fun _ hx =>
      Problem.normalize_inhabitable _ hx.1 hx.2)
    fun _ _ _ hall => hall

namespace Search

section

variable {σ : Type} [Rooted ℚ] {sv : Solver (Exact ℚ) σ} {m : Model (Exact ℚ) σ} {t : ℚ}

variable (sv) in
/-- What a search reads off the model. -/
theorem ofModel_reads (hm : m.Assembled) (w : σ) (v : VarId) :
    ((ofModel sv m w).domains.isIntegral v = true ↔ m.problem.RoundsAt v) ∧
      (v < m.problem.numVars → (ofModel sv m w).domains.lb v = (m.problem.var v).lower ∧
        (ofModel sv m w).domains.ub v = (m.problem.var v).upper) := by
  have hin : ∀ u ∈ List.range m.problem.numVars, u < m.problem.numVars := fun u => List.mem_range.mp
  have hranges := hm.tidy.foldl_asBinary_ranges hin
  have hintegral := hm.tidy.isIntegral_foldl_asBinary hin v
  obtain ⟨-, -, -, hdomains⟩ := ofModel_parts sv m w
  rw [hdomains]
  unfold Domains.isIntegral Domains.lb Domains.ub Domains.new
  dsimp only
  rw [Problem.getD_vars, Problem.getD_vars, Problem.getD_vars, hranges.numVars, hranges.lower, hranges.upper]
  constructor
  · split
    · next hv => exact ⟨fun h => ⟨hv, hintegral ▸ h⟩, fun h => hintegral.trans h.2⟩
    · next hv => exact ⟨nofun, fun h => absurd h.1 hv⟩
  · intro hv
    rw [if_pos hv, if_pos hv]
    exact ⟨rfl, rfl⟩

variable (sv) in
/-- All bounds of a new store are whole where they have to be. -/
theorem ofModel_onGrid (hm : m.Assembled) (w : σ) : Domains.OnGrid (ofModel sv m w).domains := by
  have hwhole : ∀ v, (ofModel sv m w).domains.isIntegral v = true →
      Scalar.Whole ((ofModel sv m w).domains.lb v) ∧ Scalar.Whole ((ofModel sv m w).domains.ub v) := fun v hv => by
    obtain ⟨hintegral, hbounds⟩ := ofModel_reads sv hm w v
    obtain ⟨hlt, hrounds⟩ := hintegral.mp hv
    rw [(hbounds hlt).1, (hbounds hlt).2]
    exact hm.tidy.whole v hlt hrounds
  obtain ⟨-, -, -, hdomains⟩ := ofModel_parts sv m w
  rw [hdomains] at hwhole ⊢
  exact ⟨fun v hv => ⟨(hwhole v hv).1, (hwhole v hv).1⟩, fun v hv => ⟨(hwhole v hv).2, (hwhole v hv).2⟩⟩

theorem ofModel_gridded (hm : m.Assembled) (w : σ) (htol : sv.settings.feasTol = .fin t) :
    Domains.Gridded t (ofModel sv m w).domains := by
  have hgrid := ofModel_onGrid sv hm w
  obtain ⟨-, -, -, hdomains⟩ := ofModel_parts sv m w
  rw [hdomains] at hgrid ⊢
  refine ⟨hgrid, ⟨rfl, ?_, ?_, ?_, nofun⟩, htol⟩
  · exact Array.size_map.trans Array.size_map.symm
  · exact Array.size_map.trans Array.size_map.symm
  · exact Array.size_map.trans Array.size_map.symm

/-- A variable that can take no integer has an empty domain from the start. -/
theorem ofModel_empty (hm : m.Assembled) (w : σ) (htol : sv.settings.feasTol = .fin t) (ht : t < 1) {v : VarId}
    (hv : m.problem.RoundsAt v)
    (hnone : ¬ ∃ z : ℤ, (m.problem.var v).lower ≤ .fin (z : ℚ) ∧ .fin (z : ℚ) ≤ (m.problem.var v).upper) :
    (ofModel sv m w).domains.hasEmptyDomain = true := by
  refine Bool.not_eq_false _ ▸ fun hempty => hnone ?_
  obtain ⟨hwholeLower, hwholeUpper⟩ := hm.tidy.whole v hv.1 hv.2
  obtain ⟨hdefLower, hdefUpper⟩ := hm.tidy.defined v hv.1
  obtain ⟨hlower, hupper⟩ := hm.inhabitable v hv.1
  have happart : ¬ (m.problem.var v).upper + .fin t < (m.problem.var v).lower := by
    have hreads := (ofModel_reads sv hm w v).2 hv.1
    have hranges := hm.tidy.foldl_asBinary_ranges fun u => List.mem_range.mp
    rw [← hreads.1, ← hreads.2, ← htol]
    rw [(ofModel_parts sv m w).2.2.2] at hempty ⊢
    have hlt := Nat.lt_of_lt_of_eq hv.1 hranges.numVars.symm
    exact Domains.new_nonempty hempty (Nat.lt_of_lt_of_eq hlt Array.size_map.symm)
      (Nat.lt_of_lt_of_eq hlt Array.size_map.symm)
  exact Exact.exists_int_between hwholeLower hwholeUpper
    (Exact.le_of_not_add_lt_whole hwholeLower hwholeUpper (Exact.ne_nan_of_defined hdefLower)
      (Exact.ne_nan_of_defined hdefUpper) ht happart) hlower hupper

omit [Rooted ℚ] in
/-- What leaves the branchable variables is fixed globally. -/
theorem fixed_of_compactFixed {K : Type} [Scalar K] {s u : Search K σ} (hpartitioned : s.problem.Partitioned)
    (h : Returns compactFixed s ⟨⟩ u) {v : VarId} (hv : v ∈ s.problem.branchable) (hgone : v ∉ u.problem.branchable) :
    s.domains.isGloballyFixed v = true := by
  obtain rfl := h.modify
  obtain ⟨hactive, htype⟩ := hpartitioned.mem_branchable.mp hv
  obtain ⟨hleft, hmem⟩ := hpartitioned.compactAll (s.problem.order.filter s.domains.isGloballyFixed)
  by_contra hfree
  refine hgone (hleft.mem_branchable.mpr ⟨?_, ?_⟩)
  · refine hleft.groups.isSome_position?.mpr ⟨_, (hmem v _).mpr ⟨hpartitioned.isActive_iff.mp hactive, fun hin => ?_⟩⟩
    exact hfree (List.of_mem_filter hin)
  · unfold Problem.var
    rw [Problem.compactAll_vars]
    exact htype

/-! ## Which tolerances decide -/

/-- Fixed integral variables with nonempty domains have one value left, so what leaves the
branchable variables is decided, and a variable without a value is reported. -/
structure DecidesFixed (sv : Solver (Exact ℚ) σ) (m : Model (Exact ℚ) σ) (w : σ) : Prop where
  globally : ∀ {d}, Domains.Calls Domains.Snapped (ofModel sv m w).domains d → ∀ v, d.isIntegral v = true →
    d.isGloballyFixed v = true → d.globalLb v ≤ d.globalUb v →
      ∃! z : ℤ, d.globalLb v ≤ .fin (z : ℚ) ∧ .fin (z : ℚ) ≤ d.globalUb v
  locally : ∀ {d}, Domains.Calls Domains.Snapped (ofModel sv m w).domains d → ∀ v, d.isIntegral v = true →
    d.isFixed v = true → d.lb v ≤ d.ub v → ∃! z : ℤ, d.lb v ≤ .fin (z : ℚ) ∧ .fin (z : ℚ) ≤ d.ub v
  compacted : ∀ {s u : Search (Exact ℚ) σ}, Domains.Calls Domains.Snapped (ofModel sv m w).domains s.domains →
    s.problem.Partitioned → (∀ v ∈ s.problem.branchable, s.domains.isIntegral v = true) →
    Returns compactFixed s ⟨⟩ u → ∀ v ∈ s.problem.branchable, v ∉ u.problem.branchable →
      s.domains.globalLb v ≤ s.domains.globalUb v →
        ∃! z : ℤ, s.domains.globalLb v ≤ .fin (z : ℚ) ∧ .fin (z : ℚ) ≤ s.domains.globalUb v
  reported : ∀ v < m.problem.numVars, m.problem.isIntegral v = true →
    (¬ ∃ z : ℤ, (m.problem.var v).lower ≤ .fin (z : ℚ) ∧ .fin (z : ℚ) ≤ (m.problem.var v).upper) →
      (ofModel sv m w).domains.hasEmptyDomain = true

/-- Whole bounds decide under a tolerance below one. -/
theorem decidesFixed_of_lt_one (hm : m.Assembled) (w : σ) (htol : sv.settings.feasTol = .fin t) (ht : t < 1) :
    DecidesFixed sv m w := by
  have hgridded : ∀ {d}, Domains.Calls Domains.Snapped (ofModel sv m w).domains d → Domains.Gridded t d := fun hcalls => by
    refine (Domains.kept_gridded.levels_calls (fun k hk => ?_) hcalls).top
    have hframes : (ofModel sv m w).domains.frames = [] := by
      rw [(ofModel_parts sv m w).2.2.2]
      rfl
    rw [hframes] at hk
    obtain rfl : k = 0 := Nat.le_zero.mp hk
    exact ofModel_gridded hm w htol
  refine ⟨fun hcalls v hv => ((hgridded hcalls).decided ht hv).1, fun hcalls v hv => ((hgridded hcalls).decided ht hv).2,
    fun hcalls hpartitioned hintegral hcompact v hv hgone => ?_,
    fun v hv hrounds => ofModel_empty hm w htol ht ⟨hv, hrounds⟩⟩
  exact ((hgridded hcalls).decided ht (hintegral v hv)).1 (fixed_of_compactFixed hpartitioned hcompact hv hgone)

/-- A model with one binary variable. -/
def coin : Model (Exact ℚ) σ := .after (Model.addVar "x" .binary 0 1 1) (.new "coin")

theorem coin_vars : (coin : Model (Exact ℚ) σ).problem.vars = #[⟨"x", .binary, 1, 0, 1⟩] := rfl

/-- A variable that is as wide as the tolerance counts as fixed, and has two values left. -/
theorem not_decidesFixed_coin (hwide : (1 : Exact ℚ) ≤ sv.settings.feasTol) (w : σ) : ¬ DecidesFixed sv coin w := by
  intro h
  have hm : (coin : Model (Exact ℚ) σ).Assembled := (Model.Assembled.new _).addVar ..
  have hzero : 0 < (coin : Model (Exact ℚ) σ).problem.numVars :=
    Nat.lt_of_lt_of_eq Nat.one_pos (congrArg Array.size coin_vars).symm
  obtain ⟨hintegral, hbounds⟩ := ofModel_reads sv hm w 0
  have hlb : (ofModel sv coin w).domains.lb 0 = .fin (0 : ℤ) := (hbounds hzero).1
  have hub : (ofModel sv coin w).domains.ub 0 = .fin (1 : ℤ) := (hbounds hzero).2
  have hfixed : (ofModel sv coin w).domains.isFixed 0 = true := by
    have htol : (ofModel sv coin w).domains.tol = sv.settings.feasTol := by rw [(ofModel_parts sv coin w).2.2.2]; rfl
    unfold Domains.isFixed
    rw [decide_eq_true_eq, htol, hlb, hub, Exact.fin_sub, Int.cast_zero, Int.cast_one, sub_zero, ← Exact.one_def]
    exact hwide
  have hdecided := h.locally .refl 0 (hintegral.mpr ⟨hzero, rfl⟩) hfixed
  rw [hlb, hub] at hdecided
  have hle : Exact.fin ((0 : ℤ) : ℚ) ≤ .fin ((1 : ℤ) : ℚ) := by
    rw [Exact.fin_le]
    norm_num
  have hsame := (hdecided hle).unique ⟨Exact.le_refl' nofun, hle⟩ ⟨hle, Exact.le_refl' nofun⟩
  exact absurd hsame (by decide)

/-- **The tolerance decides,** in exact arithmetic. Among the settings that pass the checks, just
those whose tolerance is below one never take an integral variable with a choice for a fixed one,
and always report a variable that has no value. -/
theorem decidesFixed_iff [Nonempty σ] (hvalid : sv.settings.validate = .ok ⟨⟩) :
    sv.settings.feasTol < 1 ↔ ∀ m : Model (Exact ℚ) σ, m.Assembled → ∀ w, DecidesFixed sv m w := by
  obtain ⟨-, -, hpos, -⟩ := Settings.validate_spec hvalid
  constructor
  · intro hlt m hm w
    rw [Exact.one_def] at hlt
    rw [Exact.zero_def] at hpos
    cases htol : sv.settings.feasTol with
    | nan => exact (htol ▸ hpos).elim
    | negInf => exact (htol ▸ hpos).elim
    | posInf => exact (htol ▸ hlt).elim
    | fin t => exact decidesFixed_of_lt_one hm w htol ((Exact.fin_lt _ _).mp (htol ▸ hlt))
  · intro h
    by_contra hwide
    have hle : (1 : Exact ℚ) ≤ sv.settings.feasTol := Exact.le_of_not_lt nofun (Exact.ne_nan_of_lt hpos).2 hwide
    exact not_decidesFixed_coin hle (Classical.arbitrary σ) (h coin ((Model.Assembled.new _).addVar ..) _)

end

/-- An integral variable whose bounds leave no integer. -/
def gap : Model (Exact ℚ) (Array (Exact ℚ) × Array (Exact ℚ)) :=
  .after (Model.addVar "x" .integer (.fin (1 / 5)) (.fin (4 / 5)) 1) (.new "gap")

/-- The default settings with another tolerance. -/
def coarse (tol : Exact ℚ) : Solver (Exact ℚ) (Array (Exact ℚ) × Array (Exact ℚ)) :=
  { corner with settings := { Settings.default with feasTol := tol } }

/-- A tolerance just below one is enough to report the variable. -/
theorem decidesFixed_iff_gap : (coarse (.fin (9 / 10))).settings.validate = .ok ⟨⟩ ∧
    DecidesFixed (coarse (.fin (9 / 10))) gap (#[], #[]) ∧
    (ofModel (coarse (.fin (9 / 10))) gap (#[], #[])).domains.hasEmptyDomain = true := by
  have hvalid : (coarse (.fin (9 / 10))).settings.validate = .ok ⟨⟩ := by decide +kernel
  have hlt : (coarse (.fin (9 / 10))).settings.feasTol < 1 := by decide +kernel
  refine ⟨hvalid, (decidesFixed_iff hvalid).mp hlt gap ((Model.Assembled.new _).addVar ..) (#[], #[]), ?_⟩
  rw [(ofModel_parts ..).2.2.2]
  decide +kernel

/-- A tolerance of one passes the checks, and the variable is not reported: its bounds were
rounded to one and zero. -/
theorem not_decidesFixed_gap : (coarse 1).settings.validate = .ok ⟨⟩ ∧
    (∀ z : ℤ, ¬ ((.fin (1 / 5) : Exact ℚ) ≤ .fin (z : ℚ) ∧ (.fin (z : ℚ) : Exact ℚ) ≤ .fin (4 / 5))) ∧
    (ofModel (coarse 1) gap (#[], #[])).domains.hasEmptyDomain = false ∧
    ¬ DecidesFixed (coarse 1) gap (#[], #[]) := by
  have hnone : (ofModel (coarse 1) gap (#[], #[])).domains.hasEmptyDomain = false := by
    rw [(ofModel_parts ..).2.2.2]
    decide +kernel
  refine ⟨by decide +kernel, ?_, hnone, fun h => ?_⟩
  · rintro z ⟨hlower, hupper⟩
    rw [Exact.fin_le] at hlower hupper
    have hpos : 0 < z := by
      rw [← Int.cast_pos (R := ℚ)]
      linarith
    have hlt : z < 1 := by
      rw [← Int.cast_lt (R := ℚ)]
      push_cast
      linarith
    omega
  · have hbounds : (gap.problem.var 0).lower = .fin 1 ∧ (gap.problem.var 0).upper = .fin 0 := by decide +kernel
    have hreported := h.reported 0 (by decide +kernel) (by decide +kernel) fun ⟨z, hlower, hupper⟩ => by
      rw [hbounds.1, Exact.fin_le] at hlower
      rw [hbounds.2, Exact.fin_le] at hupper
      linarith
    rw [hnone] at hreported
    cases hreported

end Search

end BranchAndCut
