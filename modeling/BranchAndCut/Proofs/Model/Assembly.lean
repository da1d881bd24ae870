import BranchAndCut.Proofs.Domain.Fixings
import BranchAndCut.Proofs.Model.Building
import BranchAndCut.Proofs.Model.Groups

/-! # Models as they are assembled

The building operations touch the problem, the registry and the families in few places, so
that what holds of these is carried through all operations at once. In each model that was
assembled, the registry is in order and knows all families, and so are the variables. -/

namespace BranchAndCut.Model

variable {K σ : Type}

/-- Models that the building operations make, families of the user among them. -/
inductive Assembled [Scalar K] : Model K σ → Prop
  | new (name : String) : Assembled (.new name)
  | addVar {m : Model K σ} (h : Assembled m) (name : String) (t : VarType) (lower upper obj : K) :
      Assembled (after (addVar name t lower upper obj) m)
  | addLinear {m : Model K σ} (h : Assembled m) (name : String) (coefs : List (VarId × K)) (lhs rhs : K)
      (kind : LinearKind) : Assembled (after (addLinear name coefs lhs rhs kind) m)
  | addSos1 {m : Model K σ} (h : Assembled m) (name : String) (vars : List VarId) :
      Assembled (after (addSos1 name vars) m)
  | addClique {m : Model K σ} (h : Assembled m) (name : String) (vars : List VarId) :
      Assembled (after (addClique name vars) m)
  | addImplication {m : Model K σ} (h : Assembled m) (v : VarId) (value : Bool) (implied : Implication K) :
      Assembled (after (addImplication v value implied) m)
  | changeType {m : Model K σ} (h : Assembled m) (v : VarId) (t : VarType) : Assembled (after (changeType v t) m)
  | objective {m : Model K σ} (h : Assembled m) (maximize : Bool) (offset : K) (objLimit : Option K) :
      Assembled { m with problem := { m.problem with maximize, offset, objLimit } }
  | includeHandler {m : Model K σ} (h : Assembled m) (handler : CustomHandler K σ) :
      Assembled (after (includeHandler handler) m)
  | addConstraint {m : Model K σ} (h : Assembled m) (w : σ) (family : HandlerId) (index : Nat) :
      Assembled (after (addConstraint w family index) m)

/-! ## What the operations touch -/

/-- A relation that the building operations keep as long as they add no variable, family or
implication: all they do to problem, registry and the number of families is to register
constraints. -/
structure Builds (R : Model K σ → Model K σ → Prop) : Prop where
  aside : ∀ m t, t.problem = m.problem → t.registry = m.registry → t.handlers.count = m.handlers.count →
    t.implications = m.implications → R m t
  register : ∀ family index, Preserves R (register (K := K) family index)

namespace Builds

variable {R : Model K σ → Model K σ → Prop}

/-- What changes neither problem nor registry nor the number of families nor the implications. -/
theorem modify (hR : Builds R) {f : Model K σ → Model K σ} (hproblem : ∀ m, (f m).problem = m.problem)
    (hregistry : ∀ m, (f m).registry = m.registry) (hcount : ∀ m, (f m).handlers.count = m.handlers.count)
    (himplications : ∀ m, (f m).implications = m.implications) : Preserves R (modify f : ModelM K σ PUnit) :=
  .modify fun m => hR.aside m _ (hproblem m) (hregistry m) (hcount m) (himplications m)

variable [Std.Refl R]

theorem attempt {α : Type} (r : Except (Error K) α) : Preserves R (attempt r : ModelM K σ α) := by
  cases r with
  | ok a => exact .pure a
  | error e => exact .throw e

theorem checkVar (v : VarId) : Preserves R (checkVar v : ModelM K σ Unit) :=
  fun m => (ensures_checkVar (P := R m) (refl m) v).mono (fun _ _ h => h.1 ▸ refl m) fun _ _ => id

theorem checkConsName (name : String) : Preserves R (checkConsName name : ModelM K σ Unit) :=
  fun m => (ensures_checkConsName (P := R m) (refl m) name).mono (fun _ _ h => h ▸ refl m) fun _ _ => id

theorem addConstraint (hR : Builds R) (w : σ) (family : HandlerId) (index : Nat) :
    Preserves R (addConstraint w family index : ModelM K σ ConsId) := by
  unfold Model.addConstraint
  refine .get_bind fun m => ?_
  split
  · split
    · exact .bind (.throw (refl m))
    · exact hR.register _ _ m
  · exact .throw (refl m)

variable [Scalar K]

theorem checkBinary (v : VarId) : Preserves R (checkBinary v : ModelM K σ Unit) :=
  fun m => (ensures_checkBinary (P := R m) (refl m) v).mono (fun _ _ h => h ▸ refl m) fun _ _ => id

variable [IsTrans (Model K σ) R] (hR : Builds R)

include hR

theorem addLinear (name : String) (coefs : List (VarId × K)) (lhs rhs : K) (kind : LinearKind) :
    Preserves R (addLinear name coefs lhs rhs kind : ModelM K σ ConsId) := by
  have hrest : ∀ index, Preserves R (do
      let id ← Model.register (K := K) (σ := σ) 0 index
      MonadState.modifyGet fun m => (PUnit.unit, { m with consNames := (name, id) :: m.consNames })
      pure id) :=
    fun index => .bind (hR.register 0 index) fun id =>
      .bind (hR.modify (fun _ => rfl) (fun _ => rfl) (fun _ => rfl) fun _ => rfl) fun _ => .pure id
  unfold Model.addLinear
  refine .bind (checkConsName name) fun _ => .bind (.forM fun entry => ?_) fun _ => ?_
  · refine .bind (checkVar _) fun _ => ?_
    split
    · exact .throw _
    · exact .pure _
  dsimp only
  split
  · exact fun m => .bind (.throw (refl m))
  refine .get_bind fun m => .bind (.set ?_)
  split
  · refine Preserves.after (R := R) ?_ (hR.aside m _ rfl rfl rfl rfl)
    exact .bind (attempt _) fun linear =>
      .bind (hR.modify (fun _ => rfl) (fun _ => rfl) (fun _ => rfl) fun _ => rfl) fun _ => hrest _
  · exact (hrest _).after (hR.aside m _ rfl rfl rfl rfl)

theorem addSos1 (name : String) (vars : List VarId) : Preserves R (addSos1 name vars : ModelM K σ ConsId) := by
  unfold Model.addSos1
  refine .bind (checkConsName name) fun _ => .bind (.forM fun v => ?_) fun _ => ?_
  · refine .bind (checkVar v) fun _ => .get_bind fun m => ?_
    dsimp only
    split
    · exact .throw (refl m)
    · exact .pure (refl m)
  refine .get_bind fun m => Preserves.after (R := R) ?_ (refl m)
  refine .bind (attempt _) fun added => .bind (hR.modify (fun _ => rfl) (fun _ => rfl) (fun _ => rfl) fun _ => rfl) fun _ => ?_
  exact .bind (hR.register 1 _) fun id =>
    .bind (hR.modify (fun _ => rfl) (fun _ => rfl) (fun _ => rfl) fun _ => rfl) fun _ => .pure id

variable (hlink : ∀ m implications, R m { m with implications })

include hlink

theorem addClique (name : String) (vars : List VarId) : Preserves R (addClique name vars : ModelM K σ ConsId) := by
  unfold Model.addClique
  refine .bind (.forM checkBinary) fun _ => .bind (hR.addLinear _ _ _ _ _) fun id => ?_
  refine .get_bind fun m => Preserves.after (R := R) ?_ (refl m)
  exact .bind (attempt _) fun added => .bind (.modify fun m => hlink m _) fun _ => .pure id

omit hR in
theorem addImplication (v : VarId) (value : Bool) (implied : Implication K) :
    Preserves R (addImplication v value implied : ModelM K σ Unit) := by
  unfold Model.addImplication
  refine .bind (checkBinary v) fun _ => .bind (checkVar _) fun _ => ?_
  split
  · exact fun m => .bind (.throw (refl m))
  refine .get_bind fun m => Preserves.after (R := R) ?_ (refl m)
  exact .bind (attempt _) fun implications => .modify fun m => hlink m _

end Builds

/-! ## The registry -/

/-- The registry of a model is in order and knows all families. -/
structure Filed (m : Model K σ) : Prop where
  wf : m.registry.Wf
  families : m.registry.active.size = m.handlers.count

/-- The second model is in order if the first one is. -/
def Files (m t : Model K σ) : Prop := m.Filed → t.Filed

instance : Std.Refl (Files : Model K σ → Model K σ → Prop) := ⟨fun _ => id⟩

instance : IsTrans (Model K σ) Files := ⟨fun _ _ _ h h' => h' ∘ h⟩

/-- Registering a constraint of a known family. -/
theorem Filed.register {m : Model K σ} (h : m.Filed) {family : HandlerId} (hfamily : family < m.handlers.count)
    (index : Nat) : Ensures (Model.register (K := K) (σ := σ) family index) m (fun _ t => t.Filed ∧
      t.numConstraints = m.numConstraints + 1) fun _ _ => False := by
  obtain ⟨registry, hadd, hgrown⟩ := Registry.add_spec (K := K) h.wf (h.families ▸ hfamily) index .everywhere
  unfold Model.register
  refine .bind (.get ?_)
  rw [hadd]
  refine .bind (.pure (.bind (.modify (.pure ⟨⟨hgrown.wf, hgrown.families.trans h.families⟩, ?_⟩))))
  exact (congrArg Array.size hgrown.records).trans (Array.size_push _)

theorem builds_files : Builds (Files : Model K σ → Model K σ → Prop) where
  aside m t _ hregistry hcount _ h := ⟨hregistry ▸ h.wf, by rw [hregistry, hcount, h.families]⟩
  register family index := by
    refine fun m => ?_
    by_cases hm : m.Filed
    · by_cases hfamily : family < m.handlers.count
      · exact (hm.register hfamily index).mono (fun _ t ht _ => ht.1) fun _ _ => False.elim
      · unfold Model.register
        refine .bind (.get ?_)
        rw [Registry.add_unknown (hm.families ▸ hfamily)]
        exact .bind (.throw id)
    · unfold Ensures
      split <;> exact fun h => absurd h hm

/-- **In a model that was assembled** the registry is in order. -/
theorem Assembled.filed [Scalar K] {m : Model K σ} (h : m.Assembled) : m.Filed := by
  have hfiles : ∀ {α : Type} {op : ModelM K σ α} {m : Model K σ}, Preserves (Files (K := K)) op → m.Filed →
      (after op m).Filed :=
    fun hop hm => after_of_ensures ((hop _).mono (fun _ _ h => h hm) fun _ _ h => h hm)
  induction h with
  | new name => exact ⟨Registry.new_wf 2, rfl⟩
  | addVar h name t lower upper obj ih =>
    refine after_of_ensures (.bind (.get (.bind_mono (ensures_attemptProblem ih _) ?_)))
    rintro ⟨id, problem⟩ _ ⟨rfl, -⟩
    exact .bind (.modify (.pure ⟨ih.wf, ih.families⟩))
  | addLinear h name coefs lhs rhs kind ih => exact hfiles (builds_files.addLinear name coefs lhs rhs kind) ih
  | addSos1 h name vars ih => exact hfiles (builds_files.addSos1 name vars) ih
  | addClique h name vars ih => exact hfiles (builds_files.addClique (fun _ _ hm => ⟨hm.wf, hm.families⟩) name vars) ih
  | addImplication h v value implied ih => exact hfiles (Builds.addImplication (fun _ _ hm => ⟨hm.wf, hm.families⟩) v value implied) ih
  | changeType h v t ih =>
    refine after_of_ensures (.bind_mono (ensures_checkVar ih v) ?_)
    rintro _ _ ⟨rfl, -⟩
    refine .bind (.get (.bind_mono (ensures_attemptProblem ih _) ?_))
    rintro problem _ ⟨rfl, -⟩
    exact .modify ⟨ih.wf, ih.families⟩
  | objective h maximize offset objLimit ih => exact ⟨ih.wf, ih.families⟩
  | @includeHandler m h handler ih =>
    refine after_of_ensures (.modifyGet ⟨Registry.addHandler_wf ih.wf, ?_⟩)
    refine (Array.size_push _).trans ((congrArg (· + 1) ih.families).trans ?_)
    show m.handlers.custom.size + 2 + 1 = (m.handlers.custom.push handler).size + 2
    rw [Array.size_push]
  | addConstraint h w family index ih => exact hfiles (builds_files.addConstraint w family index) ih

/-! ## The variables -/

/-- The two models have the same variables. -/
def SameProblem (m t : Model K σ) : Prop := t.problem = m.problem

instance : Std.Refl (SameProblem : Model K σ → Model K σ → Prop) := ⟨fun _ => rfl⟩

instance : IsTrans (Model K σ) SameProblem := ⟨fun _ _ _ h h' => h'.trans h⟩

theorem builds_sameProblem : Builds (SameProblem : Model K σ → Model K σ → Prop) where
  aside _ _ h _ _ _ := h
  register family index := by
    refine .get_bind fun m => Preserves.after (R := SameProblem) ?_ rfl
    exact .bind (Builds.attempt _) fun _ => .bind (.modify fun _ => rfl) fun _ => .pure _

/-- What holds of a new problem, and is kept when variables are added or change their type,
holds of the problem of each model that was assembled. -/
theorem Assembled.problem [Scalar K] {P : Problem K → Prop} (hnew : ∀ name, P (.new name))
    (hadd : ∀ {p q name t lower upper obj v}, P p → p.addVar name t lower upper obj = .ok (v, q) → P q)
    (hchange : ∀ {p q v t}, P p → v < p.numVars → p.changeType v t = .ok q → P q)
    (hobjective : ∀ {p : Problem K} maximize offset objLimit, P p → P { p with maximize, offset, objLimit })
    {m : Model K σ} (h : m.Assembled) : P m.problem := by
  have hsame : ∀ {α : Type} {op : ModelM K σ α} {m : Model K σ}, Preserves (SameProblem (K := K)) op →
      P m.problem → P (after op m).problem := fun {α op m} hop hm => by
    have hproblem : (after op m).problem = m.problem := after_of_ensures (P := SameProblem m) (hop m)
    rwa [hproblem]
  induction h with
  | new name => exact hnew name
  | addVar h name t lower upper obj ih =>
    refine after_of_ensures (P := fun t => P t.problem) (.bind (.get (.bind_mono (ensures_attemptProblem ih _) ?_)))
    rintro ⟨id, problem⟩ _ ⟨rfl, hok⟩
    exact .bind (.modify (.pure (hadd ih hok)))
  | addLinear h name coefs lhs rhs kind ih => exact hsame (builds_sameProblem.addLinear name coefs lhs rhs kind) ih
  | addSos1 h name vars ih => exact hsame (builds_sameProblem.addSos1 name vars) ih
  | addClique h name vars ih => exact hsame (builds_sameProblem.addClique (fun _ _ => rfl) name vars) ih
  | addImplication h v value implied ih => exact hsame (Builds.addImplication (fun _ _ => rfl) v value implied) ih
  | changeType h v t ih =>
    refine after_of_ensures (P := fun t => P t.problem) (.bind_mono (ensures_checkVar ih v) ?_)
    rintro _ _ ⟨rfl, hv⟩
    refine .bind (.get (.bind_mono (ensures_attemptProblem ih _) ?_))
    rintro problem _ ⟨rfl, hok⟩
    exact .modify (hchange ih hv hok)
  | objective h maximize offset objLimit ih => exact hobjective maximize offset objLimit ih
  | includeHandler h handler ih => exact after_of_ensures (P := fun t => P t.problem) (.modifyGet ih)
  | addConstraint h w family index ih => exact hsame (builds_sameProblem.addConstraint w family index) ih

/-- **In a model that was assembled** the variables are in order. -/
theorem Assembled.tidy [Scalar K] [Scalar.Rounds K] {m : Model K σ} (h : m.Assembled) : m.problem.Tidy :=
  h.problem Problem.new_tidy (fun htidy hadd => htidy.addVar hadd) (fun htidy hv hchange => (htidy.changeType hv hchange).1)
    fun _ _ _ htidy => ⟨⟨htidy.partitioned.groups, htidy.partitioned.known, htidy.partitioned.typed⟩, htidy.active,
      htidy.bounds⟩

end BranchAndCut.Model

/-! ## The implications of a model

Implications and cliques are checked when they are declared: they set bounds of variables
that the model has. Variables are only added, so this stays true of the model. -/

namespace BranchAndCut

namespace ImplicationGraph

variable {K : Type} {g g' : ImplicationGraph K} {n n' : Nat}

theorem InRange.mono (h : g.InRange n) (hle : n ≤ n') : g.InRange n' :=
  ⟨fun e he => Nat.lt_of_lt_of_le (h.implications e he) hle,
    fun members hmembers w hw => Nat.lt_of_lt_of_le (h.cliques members hmembers w hw) hle⟩

theorem InRange.addImplication (h : g.InRange n) {v : VarId} {value : Bool} {implied : Implication K} (hvar : implied.var < n)
    (hadd : g.addImplication v value implied = .ok g') : g'.InRange n := by
  unfold ImplicationGraph.addImplication at hadd
  split at hadd
  · cases hadd
  · cases hadd
    refine ⟨fun e he => ?_, h.cliques⟩
    rcases Array.mem_push.mp he with hold | rfl
    · exact h.implications e hold
    · exact hvar

theorem InRange.addClique (h : g.InRange n) {vars : List VarId} (hvars : ∀ v ∈ vars, v < n) {index : Nat}
    (hadd : g.addClique vars = .ok (index, g')) : g'.InRange n := by
  unfold ImplicationGraph.addClique at hadd
  dsimp only at hadd
  split at hadd
  · cases hadd
  · cases hadd
    refine ⟨h.implications, fun members hmembers w hw => ?_⟩
    rcases Array.mem_push.mp hmembers with hold | rfl
    · exact h.cliques members hold w hw
    · exact hvars w (List.mem_mergeSort.mp hw)

end ImplicationGraph

namespace Model

variable {K σ : Type} {m t : Model K σ}

/-- Bounds are implied on variables of the model only. -/
def Linked (m : Model K σ) : Prop := m.implications.InRange m.numVars

/-- The two models have the same variables and implications. -/
def SameGraph (m t : Model K σ) : Prop := t.problem = m.problem ∧ t.implications = m.implications

instance : Std.Refl (SameGraph : Model K σ → Model K σ → Prop) := ⟨fun _ => ⟨rfl, rfl⟩⟩

instance : IsTrans (Model K σ) SameGraph := ⟨fun _ _ _ h h' => ⟨h'.1.trans h.1, h'.2.trans h.2⟩⟩

theorem builds_sameGraph : Builds (SameGraph : Model K σ → Model K σ → Prop) where
  aside _ _ hproblem _ _ himplications := ⟨hproblem, himplications⟩
  register family index := by
    refine .get_bind fun m => Preserves.after (R := SameGraph) ?_ ⟨rfl, rfl⟩
    exact .bind (Builds.attempt _) fun _ => .bind (.modify fun _ => ⟨rfl, rfl⟩) fun _ => .pure _

theorem Linked.same (h : m.Linked) (hsame : SameGraph m t) : t.Linked := by
  unfold Linked numVars
  rw [hsame.1, hsame.2]
  exact h

variable [Scalar K]

theorem Linked.addImplication (h : m.Linked) (v : VarId) (value : Bool) (implied : Implication K) :
    Ensures (addImplication v value implied) m (fun _ t => t.Linked) fun _ t => t.Linked := by
  unfold Model.addImplication
  refine .bind_mono (ensures_checkBinary h v) ?_
  rintro _ _ rfl
  refine .bind_mono (ensures_checkVar h implied.var) ?_
  rintro _ _ ⟨rfl, hvar⟩
  split
  · exact .bind (.throw h)
  · refine .bind (.get (.bind_mono (ensures_attempt h _) ?_))
    rintro implications _ ⟨rfl, hadd⟩
    exact .modify (ImplicationGraph.InRange.addImplication h hvar hadd)

theorem Linked.addClique (h : m.Linked) (name : String) (vars : List VarId) :
    Ensures (addClique name vars) m (fun _ t => t.Linked) fun _ t => t.Linked := by
  unfold Model.addClique
  refine .bind_mono (Ensures.forM (I := fun rest t => m = t ∧ ∀ v ∈ vars, v ∈ rest ∨ v < m.numVars) ?_
    ⟨rfl, fun v hv => .inl hv⟩) ?_
  · rintro v rest _ ⟨rfl, hvars⟩
    refine (ensures_checkBinary_known h v).mono ?_ fun _ _ ht => ht
    rintro _ _ ⟨rfl, hv⟩
    refine ⟨rfl, fun w hw => ?_⟩
    rcases hvars w hw with hmem | hlt
    · rcases List.mem_cons.mp hmem with rfl | hrest
      · exact .inr hv
      · exact .inl hrest
    · exact .inr hlt
  · rintro _ _ ⟨rfl, hvars⟩
    refine .bind_mono ((builds_sameGraph.addLinear name _ _ _ _ m).mono (fun _ _ ht => ht) fun _ _ => h.same) fun id t ht => ?_
    have hlinked := h.same ht
    refine .bind (.get (.bind_mono (ensures_attempt hlinked _) ?_))
    rintro ⟨index, implications⟩ _ ⟨rfl, hadd⟩
    refine .bind (.modify (.pure (ImplicationGraph.InRange.addClique hlinked (fun v hv => ?_) hadd)))
    have hnumVars : t.numVars = m.numVars := congrArg Problem.numVars ht.1
    exact hnumVars ▸ (hvars v hv).resolve_left List.not_mem_nil

/-- **In a model that was assembled** implications are about its variables. -/
theorem Assembled.linked {m : Model K σ} (h : m.Assembled) : m.Linked := by
  have hsame : ∀ {α : Type} {op : ModelM K σ α} {m : Model K σ}, Preserves (SameGraph (K := K)) op → m.Linked →
      (after op m).Linked :=
    fun hop hm => after_of_ensures ((hop _).mono (fun _ _ => hm.same) fun _ _ => hm.same)
  induction h with
  | new name => exact ⟨fun e he => absurd he (Array.not_mem_empty e), fun c hc => absurd hc (Array.not_mem_empty c)⟩
  | addVar h name t lower upper obj ih =>
    refine after_of_ensures (.bind (.get (.bind_mono (ensures_attemptProblem ih _) ?_)))
    rintro ⟨id, problem⟩ _ ⟨rfl, hadd⟩
    refine .bind (.modify (.pure (ImplicationGraph.InRange.mono ih ?_)))
    exact (Nat.le_succ _).trans_eq (Problem.addVar_numVars hadd).symm
  | addLinear h name coefs lhs rhs kind ih => exact hsame (builds_sameGraph.addLinear name coefs lhs rhs kind) ih
  | addSos1 h name vars ih => exact hsame (builds_sameGraph.addSos1 name vars) ih
  | addClique h name vars ih => exact after_of_ensures (ih.addClique name vars)
  | addImplication h v value implied ih => exact after_of_ensures (ih.addImplication v value implied)
  | changeType h v t ih =>
    refine after_of_ensures (.bind_mono (ensures_checkVar ih v) ?_)
    rintro _ _ ⟨rfl, hv⟩
    refine .bind (.get (.bind_mono (ensures_attemptProblem ih _) ?_))
    rintro problem _ ⟨rfl, hchange⟩
    refine .modify (ImplicationGraph.InRange.mono ih (Nat.le_of_eq ?_))
    rcases Problem.changeType_spec hchange with rfl | rfl
    · rfl
    · exact Array.size_modify.symm
  | objective h maximize offset objLimit ih => exact ih
  | includeHandler h handler ih => exact after_of_ensures (.modifyGet ih)
  | addConstraint h w family index ih => exact hsame (builds_sameGraph.addConstraint w family index) ih

end Model

end BranchAndCut
