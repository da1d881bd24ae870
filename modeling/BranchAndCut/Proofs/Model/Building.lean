import BranchAndCut.Model.Basic
import BranchAndCut.Proofs.Constraint.Activation
import BranchAndCut.Proofs.Program

/-! # Models that can be built

A model is built one operation at a time, and an operation that is refused leaves it as
far as it got. In each model without custom families, each linear constraint is registered
for the whole tree at a place of its own. -/

namespace BranchAndCut.Model

variable {K σ : Type}

/-- The model after an operation, also one that was refused. -/
def after {α : Type} (op : ModelM K σ α) (m : Model K σ) : Model K σ :=
  match op m with
  | .ok _ m => m
  | .error _ m => m

/-- Models with the built-in families of constraints. -/
inductive Built [Scalar K] : Model K σ → Prop
  | new (name : String) : Built (.new name)
  | addVar {m : Model K σ} (h : Built m) (name : String) (t : VarType) (lower upper obj : K) :
      Built (after (addVar name t lower upper obj) m)
  | addLinear {m : Model K σ} (h : Built m) (name : String) (coefs : List (VarId × K)) (lhs rhs : K)
      (kind : LinearKind) : Built (after (addLinear name coefs lhs rhs kind) m)
  | addSos1 {m : Model K σ} (h : Built m) (name : String) (vars : List VarId) : Built (after (addSos1 name vars) m)
  | addClique {m : Model K σ} (h : Built m) (name : String) (vars : List VarId) :
      Built (after (addClique name vars) m)
  | addImplication {m : Model K σ} (h : Built m) (v : VarId) (value : Bool) (implied : Implication K) :
      Built (after (addImplication v value implied) m)
  | changeType {m : Model K σ} (h : Built m) (v : VarId) (t : VarType) : Built (after (changeType v t) m)
  | objective {m : Model K σ} (h : Built m) (maximize : Bool) (offset : K) (objLimit : Option K) :
      Built { m with problem := { m.problem with maximize, offset, objLimit } }

/-- What an operation ensures, whether it is refused or not. -/
theorem after_of_ensures {α : Type} {op : ModelM K σ α} {m : Model K σ} {P : Model K σ → Prop}
    (h : Ensures op m (fun _ m => P m) fun _ m => P m) : P (after op m) := by
  unfold Ensures at h
  unfold after
  cases hop : op m with
  | ok a m' =>
    rw [hop] at h
    exact h
  | error e m' =>
    rw [hop] at h
    exact h

/-! ## Checks change nothing -/

section Checks

variable {m : Model K σ} {fail : Error K → Model K σ → Prop} {P : Model K σ → Prop}

theorem ensures_attempt {α : Type} (h : P m) (r : Except (Error K) α) :
    Ensures (attempt r : ModelM K σ α) m (fun a t => m = t ∧ r = .ok a) fun _ t => P t := by
  cases r with
  | ok a => exact .pure ⟨rfl, rfl⟩
  | error e => exact .throw h

theorem ensures_attemptProblem {α : Type} (h : P m) (r : Except (ModelFlaw K) α) :
    Ensures (attemptProblem r : ModelM K σ α) m (fun a t => m = t ∧ r = .ok a) fun _ t => P t := by
  cases r with
  | ok a => exact .pure ⟨rfl, rfl⟩
  | error e => exact .throw h

theorem ensures_checkVar (h : P m) (v : VarId) :
    Ensures (checkVar v) m (fun _ t => m = t ∧ v < m.numVars) fun _ t => P t := by
  unfold checkVar
  refine .bind (.get ?_)
  split
  · exact .throw h
  · next hv => exact .pure ⟨rfl, Nat.not_le.mp hv⟩

theorem ensures_checkBinary_known [Scalar K] (h : P m) (v : VarId) :
    Ensures (checkBinary v) m (fun _ t => m = t ∧ v < m.numVars) fun _ t => P t := by
  unfold checkBinary
  refine .bind_mono (ensures_checkVar h v) ?_
  rintro _ _ ⟨rfl, hv⟩
  refine .bind (.get ?_)
  dsimp only
  split
  · exact .throw h
  · exact .pure ⟨rfl, hv⟩

theorem ensures_checkBinary [Scalar K] (h : P m) (v : VarId) :
    Ensures (checkBinary v) m (fun _ t => m = t) fun _ t => P t :=
  (ensures_checkBinary_known h v).mono (fun _ _ ht => ht.1) fun _ _ => id

theorem ensures_checkConsName (h : P m) (name : String) :
    Ensures (checkConsName name) m (fun _ t => m = t) fun _ t => P t := by
  unfold checkConsName
  refine .bind (.get ?_)
  split
  · exact .throw h
  · exact .pure rfl

end Checks

/-! ## Where constraints are stored -/

/-- The registered constraints of a model, and where they are stored. -/
structure Arranged (m : Model K σ) : Prop where
  builtIn : m.handlers.custom = #[]
  registry : m.registry.Wf
  families : m.registry.active.size = 2
  stored : ∀ id < m.registry.size, m.registry.handler id = 0 →
    m.registry.index id < m.handlers.linear.conss.size
  distinct : ∀ id < m.registry.size, ∀ id' < m.registry.size, m.registry.handler id = 0 →
    m.registry.handler id' = 0 → m.registry.index id = m.registry.index id' → id = id'

variable {m t : Model K σ}

/-- Nothing changes but other parts, and the linear constraints at their places. -/
theorem Arranged.transfer (h : m.Arranged) (hb : t.handlers.custom = m.handlers.custom)
    (hr : t.registry = m.registry) (hconss : m.handlers.linear.conss.size ≤ t.handlers.linear.conss.size) :
    t.Arranged := by
  refine ⟨hb.trans h.builtIn, hr ▸ h.registry, hr ▸ h.families, fun id hid hh => ?_, hr ▸ h.distinct⟩
  rw [hr] at hid hh ⊢
  exact Nat.lt_of_lt_of_le (h.stored id hid hh) hconss

/-- **Registering a constraint** at a new place. -/
theorem Arranged.register (h : m.Arranged) {family : HandlerId} (hfamily : family < 2) {index : Nat}
    (hstored : family = 0 → index < m.handlers.linear.conss.size)
    (hfresh : family = 0 → ∀ id < m.registry.size, m.registry.handler id = 0 → m.registry.index id ≠ index) :
    Ensures (register (K := K) (σ := σ) family index) m (fun _ t => t.Arranged) fun _ t => t.Arranged := by
  obtain ⟨registry, hadd, hgrown⟩ :=
    Registry.add_spec (K := K) h.registry (h.families ▸ hfamily) index .everywhere
  have hsize : registry.size = m.registry.size + 1 :=
    (congrArg Array.size hgrown.records).trans (Array.size_push _)
  unfold Model.register
  refine .bind (.get ?_)
  rw [hadd]
  refine .bind (.pure (.bind (.modify (.pure ⟨h.builtIn, hgrown.wf, hgrown.families.trans h.families,
    fun id hid hh => ?_, fun id hid id' hid' hh hh' hi => ?_⟩))))
  · change id < registry.size at hid
    change registry.handler id = 0 at hh
    show registry.index id < m.handlers.linear.conss.size
    rcases Nat.lt_succ_iff_lt_or_eq.mp (hsize ▸ hid) with hlt | rfl
    · rw [hgrown.handler_old hlt] at hh
      rw [hgrown.index_old hlt]
      exact h.stored id hlt hh
    · rw [hgrown.index_new]
      exact hstored ((congrArg ConsRecord.handler hgrown.record_new).symm.trans hh)
  · change id < registry.size at hid
    change id' < registry.size at hid'
    change registry.handler id = 0 at hh
    change registry.handler id' = 0 at hh'
    change registry.index id = registry.index id' at hi
    have hold : registry.handler m.registry.size = 0 → ∀ x < m.registry.size, registry.handler x = 0 →
        registry.index x ≠ registry.index m.registry.size := fun hnew x hx hx0 heq => by
      rw [hgrown.handler_old hx] at hx0
      rw [hgrown.index_old hx, hgrown.index_new] at heq
      exact hfresh ((congrArg ConsRecord.handler hgrown.record_new).symm.trans hnew) x hx hx0 heq
    rcases Nat.lt_succ_iff_lt_or_eq.mp (hsize ▸ hid) with hlt | rfl
    · rcases Nat.lt_succ_iff_lt_or_eq.mp (hsize ▸ hid') with hlt' | rfl
      · rw [hgrown.handler_old hlt] at hh
        rw [hgrown.handler_old hlt'] at hh'
        rw [hgrown.index_old hlt, hgrown.index_old hlt'] at hi
        exact h.distinct id hlt id' hlt' hh hh' hi
      · exact (hold hh' id hlt hh hi).elim
    · rcases Nat.lt_succ_iff_lt_or_eq.mp (hsize ▸ hid') with hlt' | rfl
      · exact (hold hh id' hlt' hh' hi.symm).elim
      · rfl

variable [Scalar K]

theorem Arranged.addLinear (h : m.Arranged) (name : String) (coefs : List (VarId × K)) (lhs rhs : K)
    (kind : LinearKind) :
    Ensures (addLinear name coefs lhs rhs kind) m (fun _ t => t.Arranged) fun _ t => t.Arranged := by
  -- once the constraint is stored at its place, it is registered and named
  have hrest : ∀ t : Model K σ, t.handlers.custom = m.handlers.custom → t.registry = m.registry →
      t.handlers.linear.conss.size = m.handlers.linear.conss.size + 1 → Ensures (do
        let id ← Model.register (K := K) (σ := σ) 0 m.handlers.linear.conss.size
        modify fun m => { m with consNames := (name, id) :: m.consNames }
        pure id) t (fun _ t => t.Arranged) fun _ t => t.Arranged := by
    intro t hb hr hsize
    have ht : t.Arranged := h.transfer hb hr (hsize ▸ Nat.le_succ _)
    refine .bind_mono (ht.register Nat.zero_lt_two (fun _ => hsize ▸ Nat.lt_succ_self _) fun _ id hid hh => ?_)
      fun id u hu => .bind (.modify (.pure (hu.transfer rfl rfl (Nat.le_refl _))))
    rw [hr] at hid hh ⊢
    exact Nat.ne_of_lt (h.stored id hid hh)
  unfold Model.addLinear
  refine .bind_mono (ensures_checkConsName h name) ?_
  rintro _ _ rfl
  refine .bind_mono (Ensures.forM (I := fun _ t => m = t) ?_ rfl) ?_
  · rintro ⟨v, a⟩ rest _ rfl
    refine .bind_mono (ensures_checkVar h v) ?_
    rintro _ _ ⟨rfl, -⟩
    split
    · exact .throw h
    · exact .pure rfl
  · rintro _ _ rfl
    dsimp only
    split
    · exact .bind (.throw h)
    · refine .bind (.get (.bind (.set ?_)))
      have hsize : (m.handlers.linear.addRow name (Row.of coefs lhs rhs) (kind = .onDemand)).2.conss.size =
          m.handlers.linear.conss.size + 1 := Array.size_push _
      have hset := h.transfer (t := { m with handlers := { m.handlers with
        linear := (m.handlers.linear.addRow name (Row.of coefs lhs rhs) (kind = .onDemand)).2 } }) rfl rfl
        (hsize ▸ Nat.le_succ _)
      split
      · refine .bind_mono (ensures_attempt hset _) ?_
        rintro linear _ ⟨rfl, hlinear⟩
        refine .bind (.modify (hrest _ rfl rfl ?_))
        refine Eq.trans ?_ hsize
        unfold LinearFamily.setModifiable at hlinear
        split at hlinear
        · cases hlinear
        · split at hlinear
          · cases hlinear
          · cases hlinear
            exact Array.size_setIfInBounds
      · exact hrest _ rfl rfl hsize

theorem Arranged.addSos1 (h : m.Arranged) (name : String) (vars : List VarId) :
    Ensures (addSos1 name vars) m (fun _ t => t.Arranged) fun _ t => t.Arranged := by
  unfold Model.addSos1
  refine .bind_mono (ensures_checkConsName h name) ?_
  rintro _ _ rfl
  refine .bind_mono (Ensures.forM (I := fun _ t => m = t) ?_ rfl) ?_
  · rintro v rest _ rfl
    refine .bind_mono (ensures_checkVar h v) ?_
    rintro _ _ ⟨rfl, -⟩
    refine .bind (.get ?_)
    dsimp only
    split
    · exact .throw h
    · exact .pure rfl
  · rintro _ _ rfl
    refine .bind (.get (.bind_mono (ensures_attempt h _) ?_))
    rintro ⟨index, sos1⟩ _ ⟨rfl, -⟩
    have hset := h.transfer (t := { m with handlers := { m.handlers with sos1 } }) rfl rfl (Nat.le_refl _)
    refine .bind (.modify (.bind_mono (hset.register Nat.one_lt_two nofun nofun) fun id u hu => ?_))
    exact .bind (.modify (.pure (hu.transfer rfl rfl (Nat.le_refl _))))

theorem Arranged.addClique (h : m.Arranged) (name : String) (vars : List VarId) :
    Ensures (addClique name vars) m (fun _ t => t.Arranged) fun _ t => t.Arranged := by
  unfold Model.addClique
  refine .bind_mono (Ensures.forM (I := fun _ t => m = t) ?_ rfl) ?_
  · rintro v rest _ rfl
    exact ensures_checkBinary h v
  · rintro _ _ rfl
    refine .bind_mono (h.addLinear ..) fun id t ht => .bind (.get (.bind_mono (ensures_attempt ht _) ?_))
    rintro ⟨index, implications⟩ _ ⟨rfl, -⟩
    exact .bind (.modify (.pure (ht.transfer rfl rfl (Nat.le_refl _))))

theorem Arranged.addImplication (h : m.Arranged) (v : VarId) (value : Bool) (implied : Implication K) :
    Ensures (addImplication v value implied) m (fun _ t => t.Arranged) fun _ t => t.Arranged := by
  unfold Model.addImplication
  refine .bind_mono (ensures_checkBinary h v) ?_
  rintro _ _ rfl
  refine .bind_mono (ensures_checkVar h implied.var) ?_
  rintro _ _ ⟨rfl, -⟩
  split
  · exact .bind (.throw h)
  · refine .bind (.get (.bind_mono (ensures_attempt h _) ?_))
    rintro implications _ ⟨rfl, -⟩
    exact .modify (h.transfer rfl rfl (Nat.le_refl _))

/-- **In a model that was built** each linear constraint has a place of its own. -/
theorem Built.arranged (h : m.Built) : m.Arranged := by
  induction h with
  | new name => exact ⟨rfl, Registry.new_wf 2, rfl, nofun, nofun⟩
  | addVar h name t lower upper obj ih =>
    refine after_of_ensures (.bind (.get (.bind_mono (ensures_attemptProblem ih _) ?_)))
    rintro ⟨id, problem⟩ _ ⟨rfl, -⟩
    exact .bind (.modify (.pure (ih.transfer rfl rfl (Nat.le_refl _))))
  | addLinear h name coefs lhs rhs kind ih => exact after_of_ensures (ih.addLinear ..)
  | addSos1 h name vars ih => exact after_of_ensures (ih.addSos1 ..)
  | addClique h name vars ih => exact after_of_ensures (ih.addClique ..)
  | addImplication h v value implied ih => exact after_of_ensures (ih.addImplication ..)
  | changeType h v t ih =>
    refine after_of_ensures (.bind_mono (ensures_checkVar ih v) ?_)
    rintro _ _ ⟨rfl, -⟩
    refine .bind (.get (.bind_mono (ensures_attemptProblem ih _) ?_))
    rintro problem _ ⟨rfl, -⟩
    exact .modify (ih.transfer rfl rfl (Nat.le_refl _))
  | objective h maximize offset objLimit ih => exact ih.transfer rfl rfl (Nat.le_refl _)

end BranchAndCut.Model
