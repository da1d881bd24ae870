import BranchAndCut.Proofs.Benchmark.Generator
import BranchAndCut.Proofs.Model.Refusal
import BranchAndCut.Proofs.Retention.Feasible

/-! # Models filled step by step

A model is filled with a point in mind: variables take the values of the point between their
bounds, and the point satisfies every constraint that is added. A plan says in advance which
point that is and how variables and constraints are named, so that no name is given twice. -/

namespace BranchAndCut.Benchmark

/-! ## Names with numbers -/

theorem numbered_inj (stem : String) {i j : Nat} : stem ++ toString i = stem ++ toString j ↔ i = j := by
  refine ⟨fun h => ?_, fun h => h ▸ rfl⟩
  have hlist := congrArg String.toList h
  rw [String.toList_append, String.toList_append] at hlist
  exact Nat.repr_inj.mp (String.toList_inj.mp (List.append_cancel_left hlist))

/-- Two numbers with a bar between them can be told apart. -/
theorem barred_inj (stem : String) {i j i' j' : Nat} :
    stem ++ toString i ++ "_" ++ toString j = stem ++ toString i' ++ "_" ++ toString j' ↔ i = i' ∧ j = j' := by
  refine ⟨fun h => ?_, fun ⟨hi, hj⟩ => hi ▸ hj ▸ rfl⟩
  have hlist := congrArg String.toList h
  simp only [String.toList_append, List.append_assoc] at hlist
  have hrest := List.append_cancel_left hlist
  have hbar : ∀ n : Nat, ∀ c ∈ (toString n).toList, (c != '_') = true := fun n c hc => by
    rw [Nat.toString_eq_ofList_toDigits, String.toList_ofList] at hc
    have hdigit := Nat.isDigit_of_mem_toDigits (by decide) (by decide) hc
    exact bne_iff_ne.mpr fun heq => by subst heq; exact absurd hdigit (by decide)
  have htake := congrArg (List.takeWhile (· != '_')) hrest
  have hend : ∀ l : List Char, List.takeWhile (· != '_') ("_".toList ++ l) = [] := fun _ => rfl
  rw [List.takeWhile_append_of_pos (hbar i), List.takeWhile_append_of_pos (hbar i'), hend, hend, List.append_nil,
    List.append_nil] at htake
  obtain rfl := Nat.repr_inj.mp (String.toList_inj.mp htake)
  have hlast := List.append_cancel_left (List.append_cancel_left hrest)
  exact ⟨rfl, Nat.repr_inj.mp (String.toList_inj.mp hlast)⟩

/-- Names with different initials can be told apart. -/
theorem head?_append {s : String} {c : Char} (h : s.toList.head? = some c) (t : String) :
    (s ++ t).toList.head? = some c := by
  rw [String.toList_append, List.head?_append, h, Option.some_or]

/-- Names that differ by their numbers are new one after the other. -/
theorem fresh_of_injective {name : Nat → String} (h : Function.Injective name) (k : Nat) : ∀ i < k, name i ≠ name k :=
  fun _ hi heq => Nat.ne_of_lt hi (h heq)

theorem numbered_injective (stem : String) : Function.Injective fun i : Nat => stem ++ toString i :=
  fun _ _ => (numbered_inj stem).mp

/-! ## Actions that succeed -/

section Actions

variable {K σ α β : Type}

/-- Whatever the state of the generator, the action succeeds on a model as in `I`, with a result
and a model as in `post`. -/
def Fills (act : BuildM K σ α) (I : Model K σ → Prop) (post : α → Model K σ → Prop) : Prop :=
  ∀ g m, I m → Ensures (act g) m (fun r t => post r.1 t) fun _ _ => False

namespace Fills

variable {act : BuildM K σ α} {I : Model K σ → Prop} {post : α → Model K σ → Prop}

theorem pure {a : α} (h : ∀ m, I m → post a m) : Fills (Pure.pure a) I post := fun _ m hm => .pure (h m hm)

theorem bind {f : α → BuildM K σ β} {last : β → Model K σ → Prop} (h : Fills act I post)
    (hf : ∀ a, Fills (f a) (post a) last) : Fills (act >>= f) I last :=
  fun g m hm => .bind_mono (h g m hm) fun r t ht => hf r.1 r.2 t ht

theorem mono {I' : Model K σ → Prop} {post' : α → Model K σ → Prop} (h : Fills act I post)
    (hI : ∀ m, I' m → I m) (hpost : ∀ a m, post a m → post' a m) : Fills act I' post' :=
  fun g m hm => (h g m (hI m hm)).mono (fun _ _ ht => hpost _ _ ht) fun _ _ => id

/-- What does not depend on the model can be assumed. -/
theorem assume {P : Prop} (h : P → Fills act I post) : Fills act (fun m => P ∧ I m) post :=
  fun g m hm => h hm.1 g m hm.2

theorem lift {op : ModelM K σ α} (h : ∀ m, I m → Ensures op m post fun _ _ => False) :
    Fills (op : BuildM K σ α) I post :=
  fun _ m hm => .bind_mono (h m hm) fun _ _ ht => .pure ht

/-- A loop that collects results. -/
theorem mapM {xs : List β} {f : β → BuildM K σ α} {I : List α → Model K σ → Prop}
    (hstep : ∀ (found : List α) (h : found.length < xs.length),
      Fills (f xs[found.length]) (I found) fun a => I (found ++ [a])) :
    Fills (xs.mapM f) (I []) fun found t => found.length = xs.length ∧ I found t := by
  suffices h : ∀ rest found, rest = xs.drop found.length → found.length ≤ xs.length →
      Fills (rest.mapM f) (I found) fun tail t => (found ++ tail).length = xs.length ∧ I (found ++ tail) t from
    h xs [] rfl (Nat.zero_le _)
  intro rest
  induction rest with
  | nil =>
    intro found hrest hle
    rw [List.mapM_nil]
    refine .pure fun m hm => ?_
    rw [List.append_nil]
    exact ⟨Nat.le_antisymm hle (List.drop_eq_nil_iff.mp hrest.symm), hm⟩
  | cons x rest ih =>
    intro found hrest hle
    have hlt : found.length < xs.length := by
      by_contra hge
      rw [List.drop_eq_nil_iff.mpr (Nat.not_lt.mp hge)] at hrest
      cases hrest
    rw [List.drop_eq_getElem_cons hlt] at hrest
    obtain ⟨rfl, htail⟩ := List.cons.inj hrest
    rw [List.mapM_cons]
    refine .bind (hstep found hlt) fun a => .bind (ih (found ++ [a]) ?_ ?_) fun tail => .pure fun m hm => ?_
    · rw [htail, List.length_append, List.length_singleton]
    · rwa [List.length_append, List.length_singleton, Nat.succ_le_iff]
    · rwa [List.append_assoc] at hm

/-- A loop whose results have a property each. -/
theorem mapM_each {xs : List β} {f : β → BuildM K σ α} {Q : α → Prop}
    (h : ∀ x ∈ xs, Fills (f x) I fun a m => Q a ∧ I m) :
    Fills (xs.mapM f) I fun found m => found.length = xs.length ∧ (∀ a ∈ found, Q a) ∧ I m := by
  refine (mapM (I := fun found m => (∀ a ∈ found, Q a) ∧ I m) fun found hlt => .assume fun hfound => ?_).mono
    (fun _ hm => ⟨nofun, hm⟩) fun _ _ => id
  refine (h _ (List.getElem_mem hlt)).mono (fun _ => id) fun a m hm => ⟨fun b hb => ?_, hm.2⟩
  rcases List.mem_append.mp hb with hb | hb
  · exact hfound b hb
  · exact List.mem_singleton.mp hb ▸ hm.1

/-- A loop over the elements of a list. -/
theorem forM {xs : List β} {f : β → BuildM K σ PUnit} {I : Nat → Model K σ → Prop}
    (hstep : ∀ k (h : k < xs.length), Fills (f xs[k]) (I k) fun _ => I (k + 1)) :
    Fills (xs.forM f) (I 0) fun _ => I xs.length := by
  induction xs generalizing I with
  | nil => exact .pure fun _ hm => hm
  | cons x xs ih =>
    refine .bind (hstep 0 (Nat.succ_pos _)) fun _ => ?_
    exact ih (I := fun k => I (k + 1)) fun k hk => hstep (k + 1) (Nat.succ_lt_succ hk)

end Fills

end Actions

variable [Rooted ℚ] {σ : Type}

/-- Random integers are natural numbers. -/
theorem fills_draw (lo hi : UInt32) (I : Model (Exact ℚ) σ → Prop) :
    Fills (draw lo hi) I fun q m => (∃ n : Nat, q = .fin n) ∧ I m :=
  fun _ _ hm => .pure ⟨⟨_, rfl⟩, hm⟩

/-- Random fractions are not negative. -/
theorem fills_drawUnit (I : Model (Exact ℚ) σ → Prop) :
    Fills drawUnit I fun q m => (∃ u : ℚ, 0 ≤ u ∧ q = .fin u) ∧ I m := by
  refine fun g m hm => .pure ⟨⟨g.next.bits / (Nat.pow 2 31 : ℕ), by positivity, ?_⟩, hm⟩
  exact Exact.fin_div (by norm_num)

/-! ## Plans -/

/-- What is known of a model before it is filled: a point that is going to be feasible, the
names of variables and constraints by their numbers, and a property of all rows and one of all
sets. -/
structure Plan where
  point : Point
  varName : Nat → String
  consName : Nat → String
  AcceptsRow : Row (Exact ℚ) → Prop
  AcceptsSet : List VarId → Prop

/-- A model that has been filled as planned with `n` variables and `k` constraints. -/
structure Fits (P : Plan) (n k : Nat) (m : Model (Exact ℚ) σ) : Prop where
  filed : m.Filed
  numVars : m.numVars = n
  numConstraints : m.numConstraints = k
  lower : ∀ v : Nat, v < n → (m.problem.var v).lower = .fin 0
  bounds : ∀ v : Nat, v < n → 0 ≤ P.point.coord v ∧ .fin (P.point.coord v) ≤ (m.problem.var v).upper
  integral : ∀ v : Nat, v < n → (m.problem.var v).type.isIntegral = true → P.point.IsInt v
  stored : m.handlers.linear.conss.size + m.handlers.sos1.conss.size = k
  rows : ∀ cons ∈ m.handlers.linear.conss, cons.row.Holds P.point ∧ P.AcceptsRow cons.row
  sets : ∀ set ∈ m.handlers.sos1.conss, Sos1Constraint.Holds set.vars P.point ∧ P.AcceptsSet set.vars
  varNames : ∀ e ∈ m.problem.names, e.2 < n ∧ e.1 = P.varName e.2
  consNames : ∀ e ∈ m.consNames, e.2 < k ∧ e.1 = P.consName e.2

variable {P : Plan} {n k : Nat} {m : Model (Exact ℚ) σ}

theorem Fits.new (P : Plan) (name : String) : Fits P 0 0 (.new name : Model (Exact ℚ) σ) :=
  ⟨⟨Registry.new_wf 2, rfl⟩, rfl, rfl, nofun, nofun, nofun, rfl, nofun, nofun, nofun, nofun⟩

/-- **A model that fits is feasible**, once it has all variables of the point. -/
theorem Fits.feasible (h : Fits P n k m) (hsize : P.point.size = n) : m.Feasible P.point where
  size := hsize.trans h.numVars.symm
  bounds v hv := by
    rw [h.numVars] at hv
    rw [h.lower v hv]
    exact h.bounds v hv
  integral v hint := by
    by_cases hv : v < n
    · exact h.integral v hv hint
    · have hvoid : m.problem.var v = { name := "", type := .continuous, obj := 0, lower := 0, upper := 0 } :=
        getD_of_size_le _ _ (h.numVars.le.trans (Nat.not_lt.mp hv))
      unfold Problem.isIntegral at hint
      rw [hvoid] at hint
      cases hint
  constraints id _ := by
    unfold Handlers.Meets
    split
    · exact fun cons hcons => (h.rows cons (Array.mem_of_getElem? hcons)).1
    · unfold Sos1Family.members
      split
      · next set hset => exact (h.sets set (Array.mem_of_getElem? hset)).1
      · exact .nil
    · trivial

omit [Rooted ℚ] in
/-- A name that has not been given. -/
theorem lookup_fresh {names : List (String × Nat)} {nameOf : Nat → String} {b : Nat}
    (h : ∀ e ∈ names, e.2 < b ∧ e.1 = nameOf e.2) (hfresh : ∀ i < b, nameOf i ≠ nameOf b) :
    names.lookup (nameOf b) = none := by
  refine List.lookup_eq_none_iff.mpr fun e he => ?_
  obtain ⟨hlt, hname⟩ := h e he
  rw [hname, bne_iff_ne]
  exact (hfresh e.2 hlt).symm

/-! ## Variables -/

/-- A variable with a new name, defined bounds and a finite objective is accepted. -/
theorem addVar_eq {p : Problem (Exact ℚ)} {name : String} (t : VarType) {lower upper obj : Exact ℚ}
    (hname : p.findVar? name = none) (hbounds : Problem.badBounds lower upper = false)
    (hobj : Scalar.isFinite obj = true) : ∃ q, p.addVar name t lower upper obj = .ok (p.numVars, q) ∧
      q.names = (name, p.numVars) :: p.names := by
  unfold Problem.addVar
  rw [hname, hbounds, hobj]
  exact ⟨_, rfl, rfl⟩

/-- **A variable fits** if the value of the point for it lies between its bounds. -/
theorem Fits.addVar (h : Fits P n k m) (hfresh : ∀ i < n, P.varName i ≠ P.varName n) {t : VarType} {u obj : ℚ}
    (hlower : 0 ≤ P.point.coord n) (hupper : P.point.coord n ≤ u)
    (htype : t = .binary ∧ u = 1 ∧ P.point.IsInt n ∨ t = .continuous) :
    Ensures (Model.addVar (P.varName n) t 0 (.fin u) (.fin obj)) m (fun v s => v = n ∧ Fits P (n + 1) k s)
      fun _ _ => False := by
  have hname : m.problem.findVar? (P.varName n) = none := lookup_fresh h.varNames hfresh
  have hbounds : Problem.badBounds (0 : Exact ℚ) (.fin u) = false := by rw [Exact.zero_def]; rfl
  obtain ⟨q, hadd, hnames⟩ := addVar_eq t hname hbounds (Exact.isFinite_fin obj)
  have hnorm : Problem.normalize t (0 : Exact ℚ) (.fin u) = (.fin 0, .fin u) := by
    rw [Exact.zero_def]
    rcases htype with ⟨rfl, rfl, -⟩ | rfl
    · simp [Problem.normalize, Exact.zero_def, Exact.one_def, Exact.max_fin, Exact.min_fin]
    · rfl
  have hvar (v) : q.var v = if v = n then ⟨P.varName n, t, .fin obj, .fin 0, .fin u⟩ else m.problem.var v := by
    rw [Problem.addVar_vars hadd, hnorm, show m.problem.numVars = n from h.numVars]
  have hsize : q.numVars = n + 1 := by
    rw [Problem.addVar_numVars hadd, show m.problem.numVars = n from h.numVars]
  unfold Model.addVar
  refine .bind (.get ?_)
  rw [hadd]
  refine .bind (.pure (.bind (.modify (.pure ⟨h.numVars, ⟨h.filed.wf, h.filed.families⟩, hsize, h.numConstraints, ?_,
    ?_, ?_, h.stored, h.rows, h.sets, ?_, h.consNames⟩))))
  · intro v hv
    show (q.var v).lower = .fin 0
    rw [hvar]
    split
    · rfl
    · next hne => exact h.lower v (Nat.lt_of_le_of_ne (Nat.le_of_lt_succ hv) hne)
  · intro v hv
    show 0 ≤ P.point.coord v ∧ .fin (P.point.coord v) ≤ (q.var v).upper
    rw [hvar]
    split
    · next heq =>
      subst heq
      exact ⟨hlower, hupper⟩
    · next hne => exact h.bounds v (Nat.lt_of_le_of_ne (Nat.le_of_lt_succ hv) hne)
  · intro v hv hint
    change (q.var v).type.isIntegral = true at hint
    rw [hvar] at hint
    split at hint
    · next heq =>
      rcases htype with ⟨-, -, hint'⟩ | rfl
      · exact heq ▸ hint'
      · cases hint
    · next hne => exact h.integral v (Nat.lt_of_le_of_ne (Nat.le_of_lt_succ hv) hne) hint
  · intro e he
    change e ∈ q.names at he
    rw [hnames] at he
    rcases List.mem_cons.mp he with rfl | he
    · rw [show m.problem.numVars = n from h.numVars]
      exact ⟨Nat.lt_succ_self n, rfl⟩
    · obtain ⟨hlt, hname⟩ := h.varNames e he
      exact ⟨Nat.lt_succ_of_lt hlt, hname⟩

/-! ## Constraints -/

/-- Storing a constraint of one of the two built-in families, once these have one more. -/
theorem Fits.register (h : Fits P n k m) {family : HandlerId} (hfamily : family < 2) (index : Nat)
    {hs : Handlers (Exact ℚ) σ} (hcount : hs.count = m.handlers.count)
    (hstored : hs.linear.conss.size + hs.sos1.conss.size = k + 1)
    (hrows : ∀ cons ∈ hs.linear.conss, cons.row.Holds P.point ∧ P.AcceptsRow cons.row)
    (hsets : ∀ set ∈ hs.sos1.conss, Sos1Constraint.Holds set.vars P.point ∧ P.AcceptsSet set.vars) :
    Ensures (do
      let id ← Model.register (K := Exact ℚ) (σ := σ) family index
      modify fun m => { m with consNames := (P.consName k, id) :: m.consNames }
      pure id) { m with handlers := hs } (fun _ s => Fits P n (k + 1) s) fun _ _ => False := by
  have hlt : family < m.registry.active.size := by
    rw [h.filed.families]
    exact Nat.lt_of_lt_of_le hfamily (Nat.le_add_left ..)
  obtain ⟨registry, hadd, hgrown⟩ := Registry.add_spec (K := Exact ℚ) h.filed.wf hlt index .everywhere
  have hsize : registry.size = k + 1 :=
    ((congrArg Array.size hgrown.records).trans (Array.size_push _)).trans (congrArg (· + 1) h.numConstraints)
  unfold Model.register
  refine .bind (.bind (.get ?_))
  rw [hadd]
  refine .bind (.pure (.bind (.modify (.pure (.bind (.modify (.pure ⟨⟨hgrown.wf, ?_⟩, h.numVars, hsize, h.lower,
    h.bounds, h.integral, hstored, hrows, hsets, h.varNames, fun e he => ?_⟩)))))))
  · exact (hgrown.families.trans h.filed.families).trans hcount.symm
  · rcases List.mem_cons.mp he with rfl | he
    · exact ⟨h.numConstraints ▸ Nat.lt_succ_self _, congrArg P.consName h.numConstraints.symm⟩
    · obtain ⟨hlt, hname⟩ := h.consNames e he
      exact ⟨Nat.lt_succ_of_lt hlt, hname⟩

theorem Fits.checkConsName (h : Fits P n k m) (hfresh : ∀ i < k, P.consName i ≠ P.consName k) :
    Ensures (Model.checkConsName (P.consName k)) m (fun _ s => m = s) fun _ _ => False := by
  unfold Model.checkConsName Model.findCons?
  refine .bind (.get ?_)
  rw [lookup_fresh h.consNames hfresh]
  exact .pure rfl

theorem Fits.checkVar (h : Fits P n k m) {v : VarId} (hv : v < n) :
    Ensures (Model.checkVar v) m (fun _ s => m = s) fun _ _ => False := by
  unfold Model.checkVar
  refine .bind (.get ?_)
  rw [if_neg (h.numVars ▸ Nat.not_le.mpr hv)]
  exact .pure rfl

/-- **A linear constraint fits** if the point satisfies it. -/
theorem Fits.addLinear (h : Fits P n k m) (hfresh : ∀ i < k, P.consName i ≠ P.consName k)
    {coefs : List (VarId × Exact ℚ)} (hcoefs : ∀ c ∈ coefs, c.1 < n ∧ Scalar.isFinite c.2 = true) {lhs rhs : Exact ℚ}
    (hsides : Model.badSides lhs rhs = false) (hlhs : lhs ≤ .fin (Row.total coefs P.point))
    (hrhs : .fin (Row.total coefs P.point) ≤ rhs) (haccepts : P.AcceptsRow (Row.of coefs lhs rhs)) :
    Ensures (Model.addLinear (P.consName k) coefs lhs rhs .plain) m (fun _ s => Fits P n (k + 1) s)
      fun _ _ => False := by
  unfold Model.addLinear
  refine .bind_mono (h.checkConsName hfresh) ?_
  rintro _ _ rfl
  refine .bind_mono (Ensures.forM (I := fun rest s => m = s ∧ ∀ c ∈ rest, c ∈ coefs) ?_ ⟨rfl, fun _ => id⟩) ?_
  · rintro ⟨v, a⟩ rest _ ⟨rfl, hrest⟩
    obtain ⟨hv, ha⟩ := hcoefs (v, a) (hrest _ List.mem_cons_self)
    refine .bind_mono (h.checkVar hv) ?_
    rintro _ _ rfl
    rw [ha]
    exact .pure ⟨rfl, fun c hc => hrest c (List.mem_cons_of_mem _ hc)⟩
  rintro _ _ ⟨rfl, -⟩
  rw [hsides]
  refine .bind (.get (.bind (.set (h.register Nat.zero_lt_two _ rfl ?_ (fun cons hcons => ?_) h.sets))))
  · show (m.handlers.linear.conss.push _).size + m.handlers.sos1.conss.size = k + 1
    rw [Array.size_push, Nat.succ_add, h.stored]
  · rcases Array.mem_push.mp hcons with hcons | rfl
    · exact h.rows cons hcons
    · refine ⟨?_, haccepts⟩
      unfold Row.Holds
      rw [Row.activity_of fun c hc => (hcoefs c hc).2]
      exact ⟨hlhs, hrhs⟩

/-- **A set fits** if the point satisfies it. -/
theorem Fits.addSos1 (h : Fits P n k m) (hfresh : ∀ i < k, P.consName i ≠ P.consName k) {vars : List VarId}
    (hvars : ∀ v ∈ vars, v < n) (hnodup : vars.Nodup) (hholds : Sos1Constraint.Holds vars P.point)
    (haccepts : P.AcceptsSet vars) :
    Ensures (Model.addSos1 (P.consName k) vars) m (fun _ s => Fits P n (k + 1) s) fun _ _ => False := by
  have hperm := List.mergeSort_perm vars fun a b => decide (a ≤ b)
  have hadd : (m.handlers.sos1.addSet (P.consName k) vars : Except (Error (Exact ℚ)) _) =
      .ok (m.handlers.sos1.conss.size, { conss := m.handlers.sos1.conss.push ⟨P.consName k, vars⟩ }) := by
    unfold Sos1Family.addSet
    rw [eraseReps_of_nodup (hperm.nodup_iff.mpr hnodup), hperm.length_eq, if_neg (not_not_intro rfl)]
    rfl
  unfold Model.addSos1
  refine .bind_mono (h.checkConsName hfresh) ?_
  rintro _ _ rfl
  refine .bind_mono (Ensures.forM (I := fun rest s => m = s ∧ ∀ v ∈ rest, v ∈ vars) ?_ ⟨rfl, fun _ => id⟩) ?_
  · rintro v rest _ ⟨rfl, hrest⟩
    have hv := hvars v (hrest _ List.mem_cons_self)
    refine .bind_mono (h.checkVar hv) ?_
    rintro _ _ rfl
    refine .bind (.get ?_)
    have hlower : ¬ (m.problem.var v).lower < 0 := by
      rw [h.lower v hv, Exact.zero_def, Exact.fin_lt]
      exact lt_irrefl _
    dsimp only
    rw [if_neg hlower]
    exact .pure ⟨rfl, fun w hw => hrest w (List.mem_cons_of_mem _ hw)⟩
  rintro _ _ ⟨rfl, -⟩
  refine .bind (.get ?_)
  rw [hadd]
  refine .bind (.pure (.bind (.modify (h.register Nat.one_lt_two _ rfl ?_ h.rows fun set hset => ?_))))
  · show m.handlers.linear.conss.size + (m.handlers.sos1.conss.push _).size = k + 1
    rw [Array.size_push, Nat.add_succ, h.stored]
  · rcases Array.mem_push.mp hset with hset | rfl
    · exact h.sets set hset
    · exact ⟨hholds, haccepts⟩

/-! ## Steps of the families -/

/-- A binary variable whose value is zero or one. -/
theorem fills_binary (hfresh : ∀ i < n, P.varName i ≠ P.varName n) (obj : ℚ)
    (hvalue : P.point.coord n = 0 ∨ P.point.coord n = 1) :
    Fills (binary (P.varName n) (.fin obj)) (Fits P n k)
      fun v (m : Model (Exact ℚ) σ) => v = n ∧ Fits P (n + 1) k m := by
  refine .lift fun m hm => ?_
  rw [Exact.one_def]
  refine hm.addVar hfresh ?_ ?_ (.inl ⟨rfl, rfl, ?_⟩)
  · rcases hvalue with h | h <;> rw [h]
    exact zero_le_one
  · rcases hvalue with h | h <;> rw [h]
    exact zero_le_one
  · rcases hvalue with h | h
    · exact ⟨0, by rw [h, Int.cast_zero]⟩
    · exact ⟨1, by rw [h, Int.cast_one]⟩

theorem fills_linear (hfresh : ∀ i < k, P.consName i ≠ P.consName k) {coefs : List (VarId × Exact ℚ)}
    (hcoefs : ∀ c ∈ coefs, c.1 < n ∧ Scalar.isFinite c.2 = true) {lhs rhs : Exact ℚ}
    (hsides : Model.badSides lhs rhs = false) (hlhs : lhs ≤ .fin (Row.total coefs P.point))
    (hrhs : .fin (Row.total coefs P.point) ≤ rhs) (haccepts : P.AcceptsRow (Row.of coefs lhs rhs)) :
    Fills (linear (P.consName k) coefs lhs rhs) (Fits P n k) fun _ (m : Model (Exact ℚ) σ) => Fits P n (k + 1) m :=
  .bind (.lift fun _ hm => hm.addLinear hfresh hcoefs hsides hlhs hrhs haccepts) fun _ => .pure fun _ hm => hm

theorem fills_maximize (P : Plan) :
    Fills maximize (Fits P 0 0) fun _ (m : Model (Exact ℚ) σ) => Fits P 0 0 m := by
  have hmodify : ∀ m : Model (Exact ℚ) σ, Fits P 0 0 m → Ensures
      (modify fun m => { m with problem := { m.problem with maximize := true } } : ModelM (Exact ℚ) σ Unit) m
      (fun _ m => Fits P 0 0 m) fun _ _ => False :=
    fun m hm => .modify ⟨⟨hm.filed.wf, hm.filed.families⟩, hm.numVars, hm.numConstraints, hm.lower, hm.bounds,
      hm.integral, hm.stored, hm.rows, hm.sets, hm.varNames, hm.consNames⟩
  exact .lift hmodify

/-! ## Rows of ones -/

theorem mem_covers {l : List VarId} {c : VarId × Exact ℚ} (h : c ∈ covers l) : c.1 ∈ l ∧ c.2 = .fin 1 := by
  obtain ⟨v, hv, rfl⟩ := List.mem_map.mp h
  exact ⟨hv, Exact.one_def⟩

theorem total_covers (l : List VarId) (p : Point) : Row.total (covers l) p = (l.map fun v => p.coord v).sum := by
  unfold Row.total covers
  rw [List.map_map]
  refine congrArg List.sum (List.map_congr_left fun v _ => ?_)
  rw [Function.comp_apply, Row.termAt, Exact.one_def, Exact.toField_fin, one_mul]

omit [Rooted ℚ] in
/-- Values that are all the same. -/
theorem sum_constant {α : Type} {l : List α} {value : α → ℚ} {q : ℚ} (h : ∀ v ∈ l, value v = q) :
    (l.map value).sum = l.length * q := by
  rw [List.map_congr_left h, List.map_const', List.sum_replicate, nsmul_eq_mul]

/-- Variables, one after the other. -/
theorem fills_items (stem : String) (hname : ∀ j < n, P.varName j = stem ++ toString j)
    (hvalue : ∀ j < n, P.point.coord j = 0 ∨ P.point.coord j = 1) (lo hi : UInt32) :
    Fills ((List.range n).mapM fun j => do binary (stem ++ toString j) (← draw lo hi)) (Fits P 0 0)
      fun vars (m : Model (Exact ℚ) σ) => vars = List.range n ∧ Fits P n 0 m := by
  refine (Fills.mapM (I := fun vars m => vars = List.range vars.length ∧ Fits P vars.length 0 m) fun vars hlt =>
    .assume fun hvars => ?_).mono (fun m hm => ⟨rfl, hm⟩) fun vars m ⟨hlength, hvars, hm⟩ => ?_
  · rw [List.getElem_range]
    rw [List.length_range] at hlt
    refine .bind (fills_draw lo hi _) fun v => .assume fun ⟨v', hv⟩ => ?_
    subst hv
    rw [← hname _ hlt]
    refine (fills_binary (fun i hi heq => ?_) _ (hvalue _ hlt)).mono (fun _ => id) fun v m ⟨hv, hm⟩ => ?_
    · rw [hname i (hi.trans hlt), hname _ hlt] at heq
      exact Nat.ne_of_lt hi ((numbered_inj stem).mp heq)
    · rw [List.length_append, List.length_singleton, List.range_succ, ← hvars, hv]
      exact ⟨rfl, hm⟩
  · rw [List.length_range] at hlength
    rw [hlength] at hvars hm
    exact ⟨hvars, hm⟩

end BranchAndCut.Benchmark
