import BranchAndCut.Proofs.Model.Assembly

/-! # Refused calls

A call that builds a model checks its arguments before it stores anything, so that a call
that is refused leaves the model as it was. There is one exception: the implications are
the last to see a clique, and when they refuse it because a variable is named twice, the
row of the clique is already registered. -/

namespace BranchAndCut

/-- Runs of equal members that are single ones already. -/
theorem eraseReps_of_nodup {α : Type} [BEq α] [LawfulBEq α] {l : List α} (h : l.Nodup) : l.eraseReps = l := by
  have hloop : ∀ (l : List α) (a : α) (seen : List α), (a :: l).Nodup →
      List.eraseRepsBy.loop (· == ·) a l seen = seen.reverse ++ a :: l := by
    intro l
    induction l with
    | nil =>
      intro a seen _
      rw [List.eraseRepsBy.loop, List.reverse_cons]
    | cons b l ih =>
      intro a seen hnodup
      have hne : a ≠ b := fun heq => (List.nodup_cons.mp hnodup).1 (heq ▸ List.mem_cons_self)
      rw [List.eraseRepsBy.loop, beq_false_of_ne hne]
      dsimp only
      rw [ih b (a :: seen) (List.nodup_cons.mp hnodup).2, List.reverse_cons, List.append_assoc]
      rfl
  cases l with
  | nil => rfl
  | cons a l => exact hloop l a [] h

/-- A clique of distinct variables is accepted. -/
theorem ImplicationGraph.addClique_of_nodup {K : Type} (g : ImplicationGraph K) {vars : List VarId}
    (h : vars.Nodup) : ∃ n g', g.addClique vars = .ok (n, g') := by
  have hperm := List.mergeSort_perm vars fun a b => decide (a ≤ b)
  unfold ImplicationGraph.addClique
  dsimp only
  rw [eraseReps_of_nodup (hperm.nodup_iff.mpr h), hperm.length_eq, if_neg (not_not_intro rfl)]
  exact ⟨_, _, rfl⟩

/-- A row that was added last can be opened, unless it is enforced on demand. -/
theorem LinearFamily.setModifiable_addRow {K : Type} [Scalar K] (f : LinearFamily K) (name : String) (row : Row K) :
    ∃ g, (f.addRow name row false).2.setModifiable (f.addRow name row false).1 = .ok g := by
  unfold setModifiable addRow
  dsimp only
  rw [Array.getElem?_push_size]
  exact ⟨_, rfl⟩

theorem Handlers.lt_count_of_which {K σ : Type} (hs : Handlers K σ) {family : HandlerId} {handler : CustomHandler K σ}
    (h : hs.which family = .custom handler) : family < hs.count := by
  rcases family with _ | _ | n
  · cases h
  · cases h
  · unfold which at h
    dsimp only at h
    split at h
    · next found hfound => exact Nat.add_lt_add_right (Array.getElem?_eq_some_iff.mp hfound).1 2
    · cases h

namespace Model

variable {K σ : Type} [Scalar K] {m : Model K σ}

/-- Calls that build a model, with their arguments. -/
inductive Call (K σ : Type) where
  | addVar (name : String) (t : VarType) (lower upper obj : K)
  | addLinear (name : String) (coefs : List (VarId × K)) (lhs rhs : K) (kind : LinearKind)
  | addSos1 (name : String) (vars : List VarId)
  | addClique (name : String) (vars : List VarId)
  | addImplication (v : VarId) (value : Bool) (implied : Implication K)
  | addConstraint (w : σ) (family : HandlerId) (index : Nat)
  | changeType (v : VarId) (t : VarType)

/-- The call, whatever it answers. -/
def Call.run : Call K σ → ModelM K σ Unit
  | addVar name t lower upper obj => do let _ ← Model.addVar name t lower upper obj
  | addLinear name coefs lhs rhs kind => do let _ ← Model.addLinear name coefs lhs rhs kind
  | addSos1 name vars => do let _ ← Model.addSos1 name vars
  | addClique name vars => do let _ ← Model.addClique name vars
  | addImplication v value implied => Model.addImplication v value implied
  | addConstraint w family index => do let _ ← Model.addConstraint w family index
  | changeType v t => Model.changeType v t

/-- What is left of a clique that names a variable twice: its row, registered under its name. -/
structure HalfMade (m : Model K σ) (name : String) (vars : List VarId) (t : Model K σ) : Prop where
  repeats : ¬ vars.Nodup
  row : ∃ id, Returns (addLinear name (vars.map fun v => (v, 1)) Scalar.negInf 1 .plain) m id t ∧
    t.findCons? name = some id
  grown : t.numConstraints = m.numConstraints + 1

/-! ## One call at a time -/

theorem ensures_addVar (m : Model K σ) (name : String) (t : VarType) (lower upper obj : K) :
    Ensures (addVar name t lower upper obj) m (fun _ _ => True) fun _ u => u = m :=
  .bind (.get (.bind_mono (ensures_attemptProblem (P := (· = m)) rfl _) fun _ _ _ => .bind (.modify (.pure trivial))))

theorem ensures_changeType (m : Model K σ) (v : VarId) (t : VarType) :
    Ensures (changeType v t) m (fun _ _ => True) fun _ u => u = m := by
  refine .bind_mono (ensures_checkVar (P := (· = m)) rfl v) ?_
  rintro _ _ ⟨rfl, -⟩
  exact .bind (.get (.bind_mono (ensures_attemptProblem (P := (· = m)) rfl _) fun _ _ _ => .modify trivial))

/-- **A linear constraint** is registered under its name, or the model is left as it was. -/
theorem Filed.ensures_addLinear (h : m.Filed) (name : String) (coefs : List (VarId × K)) (lhs rhs : K) (kind : LinearKind) :
    Ensures (addLinear name coefs lhs rhs kind) m (fun id t => t.numConstraints = m.numConstraints + 1 ∧
      t.findCons? name = some id) fun _ t => t = m := by
  -- once the constraint is stored, nothing is refused any more
  have hrest : ∀ (t : Model K σ) (index : Nat), t.registry = m.registry → t.handlers.count = m.handlers.count →
      Ensures (do
        let id ← Model.register (K := K) (σ := σ) 0 index
        modify fun m => { m with consNames := (name, id) :: m.consNames }
        pure id) t (fun id u => u.numConstraints = m.numConstraints + 1 ∧ u.findCons? name = some id)
        fun _ u => u = m := by
    intro t index hregistry hcount
    have ht : t.Filed := ⟨hregistry ▸ h.wf, by rw [hregistry, hcount, h.families]⟩
    have hfamily : 0 < t.handlers.count := Nat.succ_pos _
    refine .bind (((ht.register hfamily index).mono (fun id u hu => ?_) fun _ _ => False.elim))
    refine .bind (.modify (.pure ⟨hu.2.trans ?_, ?_⟩))
    · unfold numConstraints
      rw [hregistry]
    · exact List.lookup_cons_self
  unfold Model.addLinear
  refine .bind_mono (ensures_checkConsName (P := (· = m)) rfl name) ?_
  rintro _ _ rfl
  refine .bind_mono (Ensures.forM (I := fun _ t => m = t) ?_ rfl) ?_
  · rintro ⟨v, a⟩ rest _ rfl
    refine .bind_mono (ensures_checkVar (P := (· = m)) rfl v) ?_
    rintro _ _ ⟨rfl, -⟩
    split
    · exact .throw rfl
    · exact .pure rfl
  rintro _ _ rfl
  dsimp only
  split
  · exact .bind (.throw rfl)
  refine .bind (.get (.bind (.set ?_)))
  split
  · next hkind =>
    subst hkind
    obtain ⟨linear, hlinear⟩ := m.handlers.linear.setModifiable_addRow name (Row.of coefs lhs rhs)
    have hattempt : (attempt ((m.handlers.linear.addRow name (Row.of coefs lhs rhs)
        (decide (LinearKind.modifiable = LinearKind.onDemand))).2.setModifiable (m.handlers.linear.addRow name
        (Row.of coefs lhs rhs) (decide (LinearKind.modifiable = LinearKind.onDemand))).1) : ModelM K σ _) =
        pure linear := congrArg attempt hlinear
    rw [hattempt]
    exact .bind (.pure (.bind (.modify (hrest _ _ rfl rfl))))
  · exact hrest _ _ rfl rfl

/-- **A set** is registered under its name, or the model is left as it was. -/
theorem Filed.ensures_addSos1 (h : m.Filed) (name : String) (vars : List VarId) :
    Ensures (addSos1 name vars) m (fun _ _ => True) fun _ t => t = m := by
  unfold Model.addSos1
  refine .bind_mono (ensures_checkConsName (P := (· = m)) rfl name) ?_
  rintro _ _ rfl
  refine .bind_mono (Ensures.forM (I := fun _ t => m = t) ?_ rfl) ?_
  · rintro v rest _ rfl
    refine .bind_mono (ensures_checkVar (P := (· = m)) rfl v) ?_
    rintro _ _ ⟨rfl, -⟩
    refine .bind (.get ?_)
    dsimp only
    split
    · exact .throw rfl
    · exact .pure rfl
  rintro _ _ rfl
  refine .bind (.get (.bind_mono (ensures_attempt (P := (· = m)) rfl _) ?_))
  rintro ⟨index, sos1⟩ _ ⟨rfl, -⟩
  have hset : Filed { m with handlers := { m.handlers with sos1 } } := ⟨h.wf, h.families⟩
  have hfamily : 1 < Handlers.count { m.handlers with sos1 } := Nat.succ_lt_succ (Nat.succ_pos _)
  refine .bind (.modify (.bind ((hset.register hfamily index).mono (fun id t _ => ?_) fun _ _ => False.elim)))
  exact .bind (.modify (.pure trivial))

/-- **A clique** that is refused leaves the model as it was, or names a variable twice and
leaves its row. -/
theorem Filed.ensures_addClique (h : m.Filed) (name : String) (vars : List VarId) :
    Ensures (addClique name vars) m (fun _ _ => True) fun _ t => t = m ∨ HalfMade m name vars t := by
  unfold Model.addClique
  refine .bind_mono (Ensures.forM (I := fun _ t => m = t) ?_ rfl) ?_
  · rintro v rest _ rfl
    exact ensures_checkBinary (P := fun t => t = m ∨ HalfMade m name vars t) (.inl rfl) v
  rintro _ _ rfl
  have hrow := (h.ensures_addLinear name (vars.map fun v => (v, 1)) Scalar.negInf 1 .plain).self
  refine .bind_mono (hrow.mono (fun _ _ => id) fun _ _ => Or.inl) ?_
  rintro id t ⟨hreturns, hgrown, hfound⟩
  refine .bind (.get ?_)
  by_cases hnodup : vars.Nodup
  · obtain ⟨n, g, haccepted⟩ := t.implications.addClique_of_nodup hnodup
    rw [haccepted]
    exact .bind (.pure (.bind (.modify (.pure trivial))))
  · have hhalf : HalfMade m name vars t := ⟨hnodup, ⟨id, hreturns, hfound⟩, hgrown⟩
    refine .bind_mono (ensures_attempt (P := fun t => t = m ∨ HalfMade m name vars t) (.inr hhalf) _) ?_
    exact fun added u _ => .bind (.modify (.pure trivial))

theorem ensures_addImplication (m : Model K σ) (v : VarId) (value : Bool) (implied : Implication K) :
    Ensures (addImplication v value implied) m (fun _ _ => True) fun _ t => t = m := by
  unfold Model.addImplication
  refine .bind_mono (ensures_checkBinary (P := (· = m)) rfl v) ?_
  rintro _ _ rfl
  refine .bind_mono (ensures_checkVar (P := (· = m)) rfl implied.var) ?_
  rintro _ _ ⟨rfl, -⟩
  split
  · exact .bind (.throw rfl)
  · exact .bind (.get (.bind_mono (ensures_attempt (P := (· = m)) rfl _) fun _ _ _ => .modify trivial))

omit [Scalar K] in
theorem Filed.ensures_addConstraint (h : m.Filed) (w : σ) (family : HandlerId) (index : Nat) :
    Ensures (addConstraint w family index) m (fun _ _ => True) fun _ t => t = m := by
  unfold Model.addConstraint
  refine .bind (.get ?_)
  split
  · next handler hwhich =>
    split
    · exact .bind (.throw rfl)
    · refine (h.register (m.handlers.lt_count_of_which hwhich) index).mono (fun _ _ _ => trivial) ?_
      exact fun _ _ => False.elim
  · exact .throw rfl

/-! ## All calls -/

/-- **A call that is refused** leaves the model as it was, unless it declares a clique that
names a variable twice: then the row of the clique stays. -/
theorem Assembled.refused (h : m.Assembled) (c : Call K σ) {e : Error K} {t : Model K σ}
    (hrefused : c.run m = .error e t) : t = m ∨ ∃ name vars, c = .addClique name vars ∧ HalfMade m name vars t := by
  suffices hleft : Ensures c.run m (fun _ _ => True) fun _ t => t = m ∨ ∃ name vars, c = .addClique name vars ∧
      HalfMade m name vars t by
    unfold Ensures at hleft
    rwa [hrefused] at hleft
  have hanswer : ∀ {α : Type} {op : ModelM K σ α} {left : Model K σ → Prop},
      Ensures op m (fun _ _ => True) (fun _ t => left t) →
      Ensures (do let _ ← op) m (fun _ _ => True) fun _ t => left t :=
    fun hop => .bind_mono hop fun _ _ _ => .pure trivial
  cases c with
  | addVar name t lower upper obj => exact (hanswer (ensures_addVar ..)).mono (fun _ _ => id) fun _ _ => .inl
  | addLinear name coefs lhs rhs kind =>
    refine (hanswer ((h.filed.ensures_addLinear name coefs lhs rhs kind).mono (fun _ _ _ => trivial) fun _ _ => id)).mono ?_ ?_
    · exact fun _ _ => id
    · exact fun _ _ => .inl
  | addSos1 name vars => exact (hanswer (h.filed.ensures_addSos1 name vars)).mono (fun _ _ => id) fun _ _ => .inl
  | addClique name vars =>
    refine (hanswer (h.filed.ensures_addClique name vars)).mono (fun _ _ => id) fun _ u hu => hu.imp_right ?_
    exact fun hhalf => ⟨name, vars, rfl, hhalf⟩
  | addImplication v value implied =>
    exact (ensures_addImplication m v value implied).mono (fun _ _ => id) fun _ _ => .inl
  | addConstraint w family index =>
    exact (hanswer (h.filed.ensures_addConstraint w family index)).mono (fun _ _ => id) fun _ _ => .inl
  | changeType v t => exact (ensures_changeType m v t).mono (fun _ _ => id) fun _ _ => .inl

/-- A binary variable to be maximised. -/
def single : Model (Exact ℚ) Unit := after (addVar "x" .binary 0 1 (-1)) (.new "single")

/-- The variable twice, in a clique that is refused. -/
theorem single_twice : ∃ e t, (Call.addClique "c" [0, 0]).run single = .error e t ∧ t.numConstraints = 1 := by
  have hrun : (match (Call.addClique "c" [0, 0]).run single with
      | .ok _ _ => false
      | .error _ t => decide (t.numConstraints = 1)) = true := by
    have hsorted : ([0, 0] : List VarId).mergeSort (fun a b => decide (a ≤ b)) = [0, 0] := by cbv
    have hclique : ∀ g : ImplicationGraph (Exact ℚ), g.addClique [0, 0] = .error (.invalid .repeatedInClique) :=
      fun g => by
        unfold ImplicationGraph.addClique
        rw [hsorted]
        rfl
    unfold Call.run
    dsimp only
    unfold Model.addClique
    simp only [hclique]
    decide +kernel
  cases hop : (Call.addClique "c" [0, 0]).run single with
  | ok a t =>
    rw [hop] at hrun
    cases hrun
  | error e t =>
    rw [hop] at hrun
    exact ⟨e, t, rfl, of_decide_eq_true hrun⟩

theorem refused_single : single.Assembled ∧ ∃ e t, (Call.addClique "c" [0, 0]).run single = .error e t ∧
    (t = single ∨ ∃ name vars, Call.addClique (K := Exact ℚ) (σ := Unit) "c" [0, 0] = .addClique name vars ∧
      HalfMade single name vars t) := by
  have hassembled : single.Assembled := (Assembled.new _).addVar ..
  obtain ⟨e, t, hrefused, -⟩ := single_twice
  exact ⟨hassembled, e, t, hrefused, hassembled.refused _ hrefused⟩

/-- The refused clique does not leave the model as it was. -/
theorem refused_clique_leaves_row : ¬ ∀ (m : Model (Exact ℚ) Unit), m.Assembled → ∀ (c : Call (Exact ℚ) Unit) e t,
    c.run m = .error e t → t = m := by
  intro h
  obtain ⟨e, t, hrefused, hgrown⟩ := single_twice
  rw [h single ((Assembled.new _).addVar ..) _ e t hrefused] at hgrown
  exact absurd hgrown (by decide +kernel)

end Model

end BranchAndCut
