import BranchAndCut.Proofs.Constraint.Fixpoint
import BranchAndCut.Proofs.Model.Assembly
import BranchAndCut.Proofs.Row

/-! # The feasible points of a model

A point is feasible if it lies within the bounds, is integral where it has to be, and
satisfies all registered constraints. Models that were built have proper rows and finite
objectives, and all their constraints belong to the whole tree. -/

namespace BranchAndCut

/-! ## Points -/

variable [Rooted ℚ] {σ : Type}

/-- A point satisfies a constraint of a family: both sides of the row, however the row is
enforced, or the set. -/
def Handlers.Meets (hs : Handlers (Exact ℚ) σ) (h : HandlerId) (c : Nat) (p : Point) : Prop :=
  match hs.which h with
  | .linear => ∀ cons, hs.linear.conss[c]? = some cons → cons.row.Holds p
  | .sos1 => Sos1Constraint.Holds (hs.sos1.members c) p
  | _ => True

theorem Handlers.Meets.holds {hs : Handlers (Exact ℚ) σ} {h : HandlerId} {c : Nat} {p : Point} (hp : hs.Meets h c p) :
    hs.Holds h c p := by
  unfold Meets at hp
  unfold Handlers.Holds
  cases hwhich : hs.which h with
  | linear =>
    rw [hwhich] at hp
    exact fun cons hcons _ _ => hp cons hcons
  | sos1 =>
    rw [hwhich] at hp
    exact hp
  | custom => trivial
  | unknown => trivial

namespace Model

/-- The value of a point in the sense of minimisation. -/
abbrev value (m : Model (Exact ℚ) σ) (p : Point) : Exact ℚ := m.problem.value p.vector

/-- A point satisfies all that a model asks for. -/
structure Feasible (m : Model (Exact ℚ) σ) (p : Point) : Prop where
  size : p.size = m.numVars
  bounds : ∀ v < m.numVars, (m.problem.var v).lower ≤ .fin (p.coord v) ∧ .fin (p.coord v) ≤ (m.problem.var v).upper
  integral : ∀ v, m.problem.isIntegral v = true → p.IsInt v
  constraints : ∀ id < m.registry.size, m.handlers.Meets (m.registry.handler id) (m.registry.index id) p

/-! ## What holds of models that were built -/

omit [Rooted ℚ] in
theorem Built.assembled {K : Type} [Scalar K] {m : Model K σ} (h : m.Built) : m.Assembled := by
  induction h with
  | new name => exact .new name
  | addVar _ name t lower upper obj ih => exact ih.addVar name t lower upper obj
  | addLinear _ name coefs lhs rhs kind ih => exact ih.addLinear name coefs lhs rhs kind
  | addSos1 _ name vars ih => exact ih.addSos1 name vars
  | addClique _ name vars ih => exact ih.addClique name vars
  | addImplication _ v value implied ih => exact ih.addImplication v value implied
  | changeType _ v t ih => exact ih.changeType v t
  | objective _ maximize offset objLimit ih => exact ih.objective maximize offset objLimit

/-- All constraints belong to the whole tree, and no node is active. -/
structure Global {K : Type} (m : Model K σ) : Prop where
  wf : m.registry.Wf
  path : m.registry.path = []
  everywhere : ∀ id < m.registry.size, (m.registry.record id).scope = .everywhere

/-- The second model is global if the first one is. -/
def Globalizes {K : Type} (m t : Model K σ) : Prop := m.Global → t.Global

instance {K : Type} : Std.Refl (Globalizes : Model K σ → Model K σ → Prop) := ⟨fun _ => id⟩

instance {K : Type} : IsTrans (Model K σ) Globalizes := ⟨fun _ _ _ h h' => h' ∘ h⟩

omit [Rooted ℚ] in
theorem builds_global {K : Type} : Builds (Globalizes : Model K σ → Model K σ → Prop) where
  aside m t _ hregistry _ _ h := ⟨hregistry ▸ h.wf, hregistry ▸ h.path, hregistry ▸ h.everywhere⟩
  register family index := by
    refine fun m => ?_
    by_cases hm : m.Global
    · by_cases hfamily : family < m.registry.active.size
      · obtain ⟨registry, hadd, hgrown⟩ := Registry.add_spec (K := K) hm.wf hfamily index .everywhere
        unfold Model.register
        refine .bind (.get ?_)
        rw [hadd]
        refine .bind (.pure (.bind (.modify (.pure fun _ => ⟨hgrown.wf, ?_, fun id hid => ?_⟩))))
        · have hnodes := hgrown.nodes
          rw [hm.path] at hnodes
          exact List.map_eq_nil_iff.mp hnodes
        · have hsize : registry.size = m.registry.size + 1 :=
            (congrArg Array.size hgrown.records).trans (Array.size_push _)
          change id < registry.size at hid
          show (registry.record id).scope = .everywhere
          rcases Nat.lt_succ_iff_lt_or_eq.mp (hsize ▸ hid) with hlt | rfl
          · rw [hgrown.record_old hlt]
            exact hm.everywhere id hlt
          · rw [hgrown.record_new]
      · unfold Model.register
        refine .bind (.get ?_)
        rw [Registry.add_unknown hfamily]
        exact .bind (.throw id)
    · unfold Ensures
      split <;> exact fun h => absurd h hm

/-- The rows of the linear constraints are proper, and the objective coefficients finite. -/
structure Regular (m : Model (Exact ℚ) σ) : Prop extends Global m where
  proper : m.handlers.linear.Proper
  finite : ∀ v < m.numVars, Scalar.isFinite (m.problem.var v).obj = true

variable {m : Model (Exact ℚ) σ}

theorem Regular.addLinear (h : m.Regular) (name : String) (coefs : List (VarId × Exact ℚ)) (lhs rhs : Exact ℚ)
    (kind : LinearKind) : Ensures (Model.addLinear name coefs lhs rhs kind) m
      (fun _ t => t.handlers.linear.Proper) fun _ t => t.handlers.linear.Proper := by
  have hregister : ∀ {t : Model (Exact ℚ) σ} index, t.handlers.linear.Proper → Ensures (do
      let id ← Model.register (K := Exact ℚ) (σ := σ) 0 index
      modify fun m => { m with consNames := (name, id) :: m.consNames }
      pure id) t (fun _ t => t.handlers.linear.Proper) fun _ t => t.handlers.linear.Proper := by
    intro t index ht
    refine .bind (.bind (.get (.bind_mono (ensures_attempt ht _) ?_)))
    rintro r _ ⟨rfl, -⟩
    exact .bind (.modify (.pure (.bind (.modify (.pure ht)))))
  unfold Model.addLinear
  refine .bind_mono (ensures_checkConsName h.proper name) ?_
  rintro _ _ rfl
  refine .bind_mono (Ensures.forM (I := fun rest t => m = t ∧
    ∃ done, coefs = done ++ rest ∧ ∀ c ∈ done, Scalar.isFinite c.2 = true) ?_ ⟨rfl, [], rfl, nofun⟩) ?_
  · rintro ⟨v, a⟩ rest _ ⟨rfl, done, rfl, hdone⟩
    refine .bind_mono (ensures_checkVar h.proper v) ?_
    rintro _ _ ⟨rfl, -⟩
    split
    · exact .throw h.proper
    · next hfinite =>
      refine .pure ⟨rfl, done ++ [(v, a)], by rw [List.append_assoc, List.singleton_append], fun c hc => ?_⟩
      rcases List.mem_append.mp hc with hc | hc
      · exact hdone c hc
      · obtain rfl := List.mem_singleton.mp hc
        simpa using hfinite
  · rintro _ _ ⟨rfl, done, rfl, hfinite⟩
    rw [List.append_nil]
    dsimp only
    split
    · exact .bind (.throw h.proper)
    refine .bind (.get (.bind (.set ?_)))
    have hproper : (m.handlers.linear.addRow name (Row.of done lhs rhs) (kind = .onDemand)).2.Proper := by
      intro cons hcons
      rcases Array.mem_push.mp hcons with hcons | rfl
      · exact h.proper cons hcons
      · exact Row.of_proper hfinite lhs rhs
    split
    · refine .bind_mono (ensures_attempt (P := fun t => t.handlers.linear.Proper) hproper _) ?_
      rintro linear _ ⟨rfl, hlinear⟩
      refine .bind (.modify (hregister _ ?_))
      unfold LinearFamily.setModifiable at hlinear
      split at hlinear
      · cases hlinear
      next cons hcons =>
      split at hlinear
      · cases hlinear
      · cases hlinear
        intro cons' hcons'
        rcases Array.mem_or_eq_of_mem_setIfInBounds hcons' with hmem | rfl
        · exact hproper cons' hmem
        · exact hproper cons (Array.mem_of_getElem? hcons)
    · exact hregister _ hproper

theorem ensures_addSos1_linear (name : String) (vars : List VarId) : Ensures (addSos1 name vars) m
    (fun _ t => t.handlers.linear = m.handlers.linear) fun _ t => t.handlers.linear = m.handlers.linear := by
  have hsame : (fun t : Model (Exact ℚ) σ => t.handlers.linear = m.handlers.linear) m := rfl
  unfold Model.addSos1
  refine .bind_mono (ensures_checkConsName hsame name) ?_
  rintro _ _ rfl
  refine .bind_mono (Ensures.forM (I := fun _ t => m = t) ?_ rfl) ?_
  · rintro v rest _ rfl
    refine .bind_mono (ensures_checkVar hsame v) ?_
    rintro _ _ ⟨rfl, -⟩
    refine .bind (.get ?_)
    dsimp only
    split
    · exact .throw rfl
    · exact .pure rfl
  · rintro _ _ rfl
    refine .bind (.get (.bind_mono (ensures_attempt hsame _) ?_))
    rintro ⟨index, sos1⟩ _ ⟨rfl, -⟩
    have hset : (fun t : Model (Exact ℚ) σ => t.handlers.linear = m.handlers.linear)
        { m with handlers := { m.handlers with sos1 } } := rfl
    refine .bind (.modify (.bind (.bind (.get (.bind_mono (ensures_attempt hset _) ?_)))))
    rintro r _ ⟨rfl, -⟩
    exact .bind (.modify (.pure (.bind (.modify (.pure rfl)))))

theorem ensures_addImplication_linear (v : VarId) (value : Bool) (implied : Implication (Exact ℚ)) :
    Ensures (addImplication v value implied) m
      (fun _ t => t.handlers.linear = m.handlers.linear) fun _ t => t.handlers.linear = m.handlers.linear := by
  have hsame : (fun t : Model (Exact ℚ) σ => t.handlers.linear = m.handlers.linear) m := rfl
  unfold Model.addImplication
  refine .bind_mono (ensures_checkBinary hsame v) ?_
  rintro _ _ rfl
  refine .bind_mono (ensures_checkVar hsame implied.var) ?_
  rintro _ _ ⟨rfl, -⟩
  split
  · exact .bind (.throw rfl)
  · refine .bind (.get (.bind_mono (ensures_attempt hsame _) ?_))
    rintro implications _ ⟨rfl, -⟩
    exact .modify rfl

theorem Regular.addClique (h : m.Regular) (name : String) (vars : List VarId) :
    Ensures (Model.addClique name vars) m (fun _ t => t.handlers.linear.Proper) fun _ t => t.handlers.linear.Proper := by
  unfold Model.addClique
  refine .bind_mono (Ensures.forM (I := fun _ t => m = t) ?_ rfl) ?_
  · rintro v rest _ rfl
    exact ensures_checkBinary h.proper v
  · rintro _ _ rfl
    refine .bind_mono (h.addLinear ..) fun id t ht => .bind (.get (.bind_mono (ensures_attempt ht _) ?_))
    rintro ⟨index, implications⟩ _ ⟨rfl, -⟩
    exact .bind (.modify (.pure ht))

/-- An operation that keeps the variables, registers constraints and keeps the rows proper. -/
theorem Regular.after {α : Type} (h : m.Regular) {op : ModelM (Exact ℚ) σ α} (hglobal : Preserves (Globalizes (K := Exact ℚ)) op)
    (hproblem : Preserves (SameProblem (K := Exact ℚ)) op)
    (hproper : Ensures op m (fun _ t => t.handlers.linear.Proper) fun _ t => t.handlers.linear.Proper) :
    (Model.after op m).Regular := by
  have hkeep : ∀ t : Model (Exact ℚ) σ, ((m.Globalizes t ∧ m.SameProblem t) ∧ t.handlers.linear.Proper) → t.Regular := by
    rintro t ⟨⟨hglobal, hproblem⟩, hproper⟩
    refine ⟨hglobal h.toGlobal, hproper, fun v hv => ?_⟩
    rw [show t.problem = m.problem from hproblem]
    exact h.finite v (Nat.lt_of_lt_of_eq hv (congrArg Problem.numVars hproblem))
  exact after_of_ensures ((((hglobal m).and (hproblem m)).and hproper).mono (fun _ t => hkeep t) fun _ t => hkeep t)

theorem finite_of_addVar {p q : Problem (Exact ℚ)} {name : String} {t : VarType} {lower upper obj : Exact ℚ} {v : VarId}
    (hadd : p.addVar name t lower upper obj = .ok (v, q)) : Scalar.isFinite obj = true := by
  unfold Problem.addVar at hadd
  by_cases hname : (p.findVar? name).isSome = true
  · rw [if_pos hname] at hadd
    cases hadd
  by_cases hbounds : Problem.badBounds lower upper = true
  · rw [if_neg hname, if_pos hbounds] at hadd
    cases hadd
  by_cases hobj : (!Scalar.isFinite obj) = true
  · rw [if_neg hname, if_neg hbounds, if_pos hobj] at hadd
    cases hadd
  · simpa using hobj

/-- A variable keeps its objective coefficient when its type changes. -/
theorem obj_changeType {p q : Problem (Exact ℚ)} {v : VarId} {t : VarType} (hv : v < p.numVars)
    (hchange : p.changeType v t = .ok q) :
    q.numVars = p.numVars ∧ q.maximize = p.maximize ∧ ∀ w, (q.var w).obj = (p.var w).obj := by
  rcases Problem.changeType_spec hchange with rfl | rfl
  · exact ⟨rfl, rfl, fun _ => rfl⟩
  · refine ⟨Array.size_modify, rfl, fun w => ?_⟩
    rw [p.var_modify hv]
    split
    · next heq => rw [heq]
    · rfl

/-- **Models that were built are regular.** -/
theorem Built.regular (h : m.Built) : m.Regular := by
  induction h with
  | new name => exact ⟨⟨Registry.new_wf 2, rfl, nofun⟩, nofun, nofun⟩
  | addVar h name t lower upper obj ih =>
    refine after_of_ensures (.bind (.get (.bind_mono (ensures_attemptProblem ih _) ?_)))
    rintro ⟨id, problem⟩ _ ⟨rfl, hadd⟩
    exact .bind (.modify (.pure ⟨⟨ih.wf, ih.path, ih.everywhere⟩, ih.proper,
      Problem.forall_addVar (P := fun x => Scalar.isFinite x.obj = true) ih.finite hadd (finite_of_addVar hadd)⟩))
  | addLinear h name coefs lhs rhs kind ih =>
    exact ih.after (builds_global.addLinear name coefs lhs rhs kind)
      (builds_sameProblem.addLinear name coefs lhs rhs kind) (ih.addLinear ..)
  | addSos1 h name vars ih =>
    exact ih.after (builds_global.addSos1 name vars) (builds_sameProblem.addSos1 name vars)
      ((ensures_addSos1_linear name vars).mono (fun _ _ ht => ht ▸ ih.proper) fun _ _ ht => ht ▸ ih.proper)
  | addClique h name vars ih =>
    exact ih.after (builds_global.addClique (fun _ _ hm => ⟨hm.wf, hm.path, hm.everywhere⟩) name vars) (builds_sameProblem.addClique (fun _ _ => rfl) name vars) (ih.addClique ..)
  | addImplication h v value implied ih =>
    exact ih.after (Builds.addImplication (fun _ _ hm => ⟨hm.wf, hm.path, hm.everywhere⟩) v value implied)
      (Builds.addImplication (fun _ _ => rfl) v value implied)
      ((ensures_addImplication_linear v value implied).mono (fun _ _ ht => ht ▸ ih.proper) fun _ _ ht => ht ▸ ih.proper)
  | changeType h v t ih =>
    refine after_of_ensures (.bind_mono (ensures_checkVar ih v) ?_)
    rintro _ _ ⟨rfl, hv⟩
    refine .bind (.get (.bind_mono (ensures_attemptProblem ih _) ?_))
    rintro problem _ ⟨rfl, hchange⟩
    obtain ⟨hsize, -, hobj⟩ := obj_changeType hv hchange
    refine .modify ⟨⟨ih.wf, ih.path, ih.everywhere⟩, ih.proper, fun w hw => ?_⟩
    rw [hobj]
    exact ih.finite w (Nat.lt_of_lt_of_eq hw hsize)
  | objective h maximize offset objLimit ih => exact ⟨⟨ih.wf, ih.path, ih.everywhere⟩, ih.proper, ih.finite⟩

end Model

end BranchAndCut
