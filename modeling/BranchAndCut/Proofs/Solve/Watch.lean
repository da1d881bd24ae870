import BranchAndCut.Proofs.Exact
import BranchAndCut.Proofs.Model.Building
import BranchAndCut.Proofs.Solve.Iterations
import BranchAndCut.Proofs.Solve.Nodes

/-! # What the oracle holds when it is asked to solve

The simplex oracle is watched: it stops the run at some call of its solve. The state in
which the run then fails is the state of that call, and in it the oracle holds a row for
each row of an active constraint, a row for each active cut, and nothing else. -/

namespace BranchAndCut

/-- The world of a run that is stopped at some solve: the oracle, the memory of the plugins,
and the number of solves until then. -/
structure Watched (K ω : Type) where
  simplex : KeyedSimplex K
  memory : ω
  left : Nat
  stopped : Bool := false

namespace Watched

variable {K ω : Type}

/-- A world before the run. -/
def start (settings : Lp.Settings K) (memory : ω) (left : Nat) : Watched K ω where
  simplex := { settings }
  memory := memory
  left := left

/-- An action of a plugin, which may change what plugins remember. -/
def Discreet {α : Type} (act : EStateM (Error K) (Watched K ω) α) : Prop :=
  ∀ w, Ensures act w (fun _ u => u = { w with memory := u.memory }) fun _ u => u = { w with memory := u.memory }

variable [Scalar K]

/-- The simplex oracle, which stops the run once it has solved a number of times. -/
def oracle : Oracle K (Watched K ω) :=
  let o : Oracle K (Watched K ω) := KeyedSimplex.oracle.within simplex (fun w simplex => { w with simplex })
  { o with
    solve := do
      let w ← get
      if w.left = 0 then
        set { w with stopped := true }
        throw .outOfSteps
      else
        set { w with left := w.left - 1 }
        o.solve }

/-- A solver with the watched oracle, whose plugins leave the oracle alone. -/
structure Watches (sv : Solver K (Watched K ω)) : Prop where
  oracle : sv.oracle = oracle
  pricers : ∀ pricer ∈ sv.plugins.pricers, ∀ p, Discreet (pricer.generate p)
  separators : ∀ sep ∈ sv.plugins.separators, ∀ p, Discreet (sep.separate p sv.oracle)
  heuristics : ∀ heur ∈ sv.plugins.heuristics, ∀ p, Discreet (heur.find p)
  scoring : ∀ rule ∈ sv.scoring, ∀ cs costs w,
    (rule.score cs costs w).2 = { w with memory := (rule.score cs costs w).2.memory }

variable {sv : Solver K (Watched K ω)} {w : Watched K ω} {c : Contents K}

/-- The run has not been stopped, and the oracle holds a relaxation. -/
def Holds (w : Watched K ω) (c : Contents K) : Prop := w.stopped = false ∧ w.simplex.Holds c

omit [Scalar K] in
theorem Holds.ensures {α : Type} (h : w.Holds c) {act : EStateM (Error K) (Watched K ω) α} (hact : Discreet act) :
    Ensures act w (fun _ u => u.Holds c) fun _ u => u.stopped = false := by
  refine (hact w).mono (fun _ u hu => ?_) fun _ u hu => ?_
  · rw [hu]
    exact h
  · rw [hu]
    exact h.1

omit [Scalar K] in
/-- An operation of the oracle. -/
theorem Holds.ensures_simplex {α : Type} (h : w.Holds c) {act : EStateM (Error K) (KeyedSimplex K) α}
    {d : Contents K} {P : Prop} (hact : Ensures act w.simplex (fun _ o => o.Holds d ∧ P) fun _ _ => True) :
    Ensures (onPart simplex (fun (w : Watched K ω) simplex => { w with simplex }) act) w (fun _ u => u.Holds d ∧ P)
      fun _ u => u.stopped = false :=
  .onPart (hact.mono (fun _ _ ho => ⟨⟨h.1, ho.1⟩, ho.2⟩) fun _ _ _ => h.1)

/-- **The watched oracle does as it is told.** -/
def Watches.footing (h : Watches sv) : Footing sv where
  Holds := Holds
  Ready w c lower upper := w.Holds c ∧ lower.size = c.numCols ∧ upper.size = c.numCols
  Answers _ _ _ _ _ := True
  Admits _ := True
  Fits _ _ _ _ := True
  Offers _ _ := True
  Calm w := w.stopped = false
  Halted w c lower upper := w.simplex.Holds c ∧ lower.size = c.numCols ∧ upper.size = c.numCols
  calm hw := hw.1
  holds hw := hw.1
  addColumns {w c} hw cols _ := by
    rw [h.oracle]
    exact (hw.ensures_simplex ((hw.2.addColumns cols).mono (fun _ _ ho => ⟨ho, trivial⟩) fun _ _ => id)).mono
      (fun _ _ hu => hu.1) fun _ _ => id
  addRows {w c} hw rows _ := by
    rw [h.oracle]
    exact (hw.ensures_simplex ((hw.2.addRows rows).mono (fun _ _ ho => ⟨ho, trivial⟩) fun _ _ => id)).mono
      (fun _ _ hu => hu.1) fun _ _ => id
  removeRows {w c} hw keys := by
    rw [h.oracle]
    have hact : Ensures (modify (·.removeRows keys)) w.simplex (fun _ o => o.Holds (c.removeRows keys) ∧ True)
        fun (_ : Error K) _ => True := .modify ⟨hw.2.removeRows keys, trivial⟩
    exact (hw.ensures_simplex hact).mono (fun _ _ hu => hu.1) fun _ _ => id
  setBounds {w c} hw lower upper := by
    rw [h.oracle]
    exact hw.ensures_simplex (hw.2.setBounds lower upper)
  solve {w c lower upper} hw := by
    rw [h.oracle]
    refine .bind (.get ?_)
    split
    · exact .bind (.set (.throw (.inr ⟨hw.1.2, hw.2⟩)))
    · refine .bind (.set (.onPart (hw.1.2.solve.mono (fun _ o ho => ?_) fun _ _ _ => .inl hw.1.1)))
      exact ⟨⟨⟨hw.1.1, ho⟩, hw.2⟩, trivial⟩
  restoreBasis {w c} hw basis := by
    rw [h.oracle]
    exact ⟨hw.1, hw.2.of_eq rfl rfl rfl⟩
  clearBasis {w c lower upper} hw := by
    rw [h.oracle]
    exact ⟨⟨hw.1.1, hw.1.2.of_eq rfl rfl rfl⟩, hw.2⟩
  price {w c} hw pricer hpricer p := hw.ensures (h.pricers pricer hpricer p)
  separate {w c g p} hw _ sep hsep :=
    (hw.ensures (h.separators sep hsep p)).mono (fun _ _ hu => ⟨⟨hu, trivial⟩, fun _ _ => trivial⟩) fun _ _ => id
  gomory _ _ _ _ _ := trivial
  find {w c} hw heur hheur p := hw.ensures (h.heuristics heur hheur p)
  score {w c} hw rule hrule cs costs := by
    rw [h.scoring rule hrule]
    exact hw

end Watched

namespace Search

variable {K σ : Type} [Scalar K] {sv : Solver K σ} {F : Footing sv} {m : Model K σ}

theorem Fresh.lockAll {s : Search K σ} (h : Fresh F s) (ids : List ConsId) :
    Fresh F (ids.foldl (fun s id => s.lockCons (s.registry.handler id) (s.locksOf id)) s) := by
  induction ids generalizing s with
  | nil => exact h
  | cons id ids ih =>
    refine ih ⟨?_, h.builtIn, h.empty, h.lpRows, h.staleCutRows, h.pool, h.scoring⟩
    exact ⟨h.filed.registry, h.filed.stored, h.filed.distinct, h.filed.pool, h.filed.named⟩

/-- **The search of a model that was built** has not started. -/
theorem fresh_ofModel (hm : m.Built) {w : σ} (hw : F.Holds w {}) : Fresh F (ofModel sv m w) := by
  have ha := hm.arranged
  have hnamed : (SearchTree.new sv.settings.nodeSelection : SearchTree K).Named := fun n node hn => by
    change (∅ : Std.TreeMap NodeId (Node K))[n]? = some node at hn
    rw [Std.TreeMap.getElem?_emptyc] at hn
    cases hn
  have hlocked : ∀ s : Search K σ, Fresh F s → ∀ (ids : List ConsId) gomory, Fresh F
      { ids.foldl (fun s id => s.lockCons (s.registry.handler id) (s.locksOf id)) s with gomory } := by
    intro s hs ids gomory
    have ht := hs.lockAll ids
    exact ⟨⟨ht.filed.registry, ht.filed.stored, ht.filed.distinct, ht.filed.pool, ht.filed.named⟩, ht.builtIn,
      ht.empty, ht.lpRows, ht.staleCutRows, ht.pool, ht.scoring⟩
  refine hlocked _ ?_ _ _
  refine ⟨⟨ha.registry, ha.stored, ha.distinct, ⟨List.nodup_nil, fun c hc => ?_⟩, hnamed⟩, ha.builtIn, hw, rfl, rfl,
    rfl, rfl⟩
  exact (Array.not_mem_empty c hc).elim

/-- The rows that belong into the relaxation: those of the active constraints, and the
active cuts. -/
def Belongs (s : Search K σ) (key : RowKey) (row : Row K) : Prop :=
  (∃ id k, key = .constraint id k ∧ s.registry.isActive id = true ∧
    (s.handlers.initialRows s.world (s.registry.handler id) (s.registry.index id))[k]? = some row) ∨
  ∃ c ∈ s.pool.cuts, key = .cut c.id ∧ c.status = .active ∧ c.cut.row = row

/-- With no rows pending or scheduled for removal, the relaxation has the rows that belong
into it. -/
theorem Tracks.row_iff {s : Search K σ} {c : Contents K} (ht : s.Tracks c []) (hstale : s.staleCutRows = [])
    (hlists : s.Lists (s.registry.isActive · = true)) (key : RowKey) (row : Row K) :
    c.row key = some row ↔ s.Belongs key row := by
  cases key with
  | constraint id k =>
    have hcut : ¬ ∃ x ∈ s.pool.cuts, RowKey.constraint id k = .cut x.id ∧ x.status = .active ∧ x.cut.row = row := by
      rintro ⟨_, -, hkey, -⟩
      cases hkey
    rw [ht.constraint, Belongs, or_iff_left hcut]
    constructor
    · intro hrow
      split at hrow
      · next hid => exact ⟨id, k, rfl, ((hlists id).mp hid).1, hrow⟩
      · cases hrow
    · rintro ⟨_, _, hkey, hactive, hrow⟩
      cases hkey
      have hne : s.rows id ≠ [] := fun hnil => by
        change (s.rows id)[k]? = some row at hrow
        rw [hnil] at hrow
        cases hrow
      rw [if_pos ((hlists id).mpr ⟨hactive, hne⟩)]
      exact hrow
  | cut id =>
    have hshows := ht.cut id List.not_mem_nil row
    rw [hstale, and_iff_right List.not_mem_nil] at hshows
    rw [← hshows, Belongs, or_iff_right]
    · constructor
      · rintro ⟨x, hx, rfl, hactive, hrow⟩
        exact ⟨x, hx, rfl, hactive, hrow⟩
      · rintro ⟨x, hx, hkey, hactive, hrow⟩
        cases hkey
        exact ⟨x, hx, rfl, hactive, hrow⟩
    · rintro ⟨_, _, hkey, -⟩
      cases hkey

end Search

namespace Watched

variable {K ω : Type} [Scalar K]

/-- The oracle has a column for each variable, and the rows that belong into the relaxation. -/
structure InLine (s : Search K (Watched K ω)) : Prop where
  distinct : (s.world.simplex.rows.toList.map Prod.fst).Nodup
  rows : ∀ key row, (key, row) ∈ s.world.simplex.rows ↔ s.Belongs key row
  problem : s.world.simplex.numCols = s.problem.numVars
  domains : s.world.simplex.numCols = s.domains.numVars

/-- **At every solve the relaxation holds exactly the rows it should.** Whichever solve the
run is stopped at, the rows of the oracle are those of the active constraints and the active
cuts, under keys of their own, and its columns are those of problem and domains. -/
theorem run_inLine {sv : Solver K (Watched K ω)} (hsv : Watches sv) {m : Model K (Watched K ω)} (hm : m.Built)
    (settings : Lp.Settings K) (memory : ω) (left : Nat) :
    Ensures (Search.run sv (K := K)) (Search.ofModel sv m (start settings memory left))
      (fun _ t => t.world.stopped = false) fun _ t => t.world.stopped = true → InLine t := by
  have hw : hsv.footing.Holds (start settings memory left) {} := ⟨rfl, .empty settings⟩
  refine ((Search.fresh_ofModel hm hw).run (fun _ _ _ _ => trivial) fun _ => trivial).mono ?_ ?_
  · exact fun _ t ht => ht.calm
  · rintro e t (hcalm | ⟨c, ⟨hc, hlower, -⟩, ht, hstale, hlists⟩) hstopped
    · change t.world.stopped = false at hcalm
      rw [hstopped] at hcalm
      cases hcalm
    · refine ⟨hc.aligned.nodup_keys, fun key row => ?_, hc.numCols.trans ht.numCols, hc.numCols.trans hlower.symm⟩
      rw [hc.mem_rows]
      exact ht.row_iff hstale hlists key row

/-- One variable and one row. -/
def capped : Model (Exact ℚ) (Watched (Exact ℚ) Nat) :=
  Model.after (Model.addLinear "cap" [(0, 2)] (-1) 3 .plain)
    (Model.after (Model.addVar "x" .continuous 0 5 (-1)) (.new "capped"))

/-- A solver whose heuristic counts its calls. -/
def counting : Solver (Exact ℚ) (Watched (Exact ℚ) Nat) where
  settings := Settings.default
  oracle := oracle
  plugins := { heuristics := [{
    name := "count"
    find := fun _ => do
      modify fun w => { w with memory := w.memory + 1 }
      pure none }] }
  steps := 100

/-- The run over one row is stopped at its first solve. -/
theorem run_inLine_capped :
    (match Search.run counting (Search.ofModel counting capped (start Lp.Settings.default 0 0)) with
      | .ok _ _ => false
      | .error _ t => t.world.stopped) = true ∧
    Ensures (Search.run counting) (Search.ofModel counting capped (start Lp.Settings.default 0 0))
      (fun _ t => t.world.stopped = false) fun _ t => t.world.stopped = true → InLine t := by
  have hbuilt : capped.Built := ((Model.Built.new _).addVar ..).addLinear ..
  have hwatches : Watches counting := by
    refine ⟨rfl, fun _ h => (List.not_mem_nil h).elim, fun _ h => (List.not_mem_nil h).elim, fun heur hheur p w => ?_,
      fun _ h => (Option.not_mem_none _ h).elim⟩
    obtain rfl := List.mem_singleton.mp hheur
    exact .bind (.modify (.pure rfl))
  refine ⟨?_, run_inLine hwatches hbuilt _ 0 0⟩
  have hsorted : Row.canonical [((0 : VarId), (2 : Exact ℚ))] = [(0, 2)] := by cbv
  unfold Search.ofModel Propagator.new
  dsimp only
  rw [Handlers.sorted_builtIn hbuilt.arranged.builtIn]
  unfold capped Model.addLinear Row.of
  rw [hsorted]
  decide +kernel

end Watched

end BranchAndCut
