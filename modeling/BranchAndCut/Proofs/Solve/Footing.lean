import BranchAndCut.Proofs.Constraint.Activation
import BranchAndCut.Proofs.Cut.Pool
import BranchAndCut.Proofs.Model.Problem
import BranchAndCut.Proofs.Relaxation.Contents
import BranchAndCut.Solve.Run

/-! # What the search knows of its relaxation

An oracle does what it is told, and plugins leave alone what it holds. So the search can
keep count of the rows: it knows which constraints have rows in the relaxation, and which
rows of cuts are still to be put in or taken out. -/

namespace BranchAndCut

variable {K σ : Type}

/-- What the worlds of a solver tell of the relaxation. The oracle does as it is told,
and the plugins leave alone what it holds. -/
structure Footing [Scalar K] (sv : Solver K σ) where
  Holds : σ → Contents K → Prop
  /-- The relaxation is held with bounds of the variables, ready for a solve. -/
  Ready : σ → Contents K → Array K → Array K → Prop
  /-- What is known after a solve with its answer. -/
  Answers : σ → Contents K → Array K → Array K → Relaxation K → Prop
  /-- What holds of the rows of the cuts in the relaxation. -/
  Admits : Row K → Prop
  /-- What holds where cuts are separated, with the settings of the built-in separator. -/
  Fits : σ → Contents K → Option (GomorySettings K) → Fractional K → Prop
  /-- What holds of the cuts that separators find. -/
  Offers : Fractional K → Cut K → Prop
  /-- An error was met outside a solve. -/
  Calm : σ → Prop
  /-- A solve has failed. -/
  Halted : σ → Contents K → Array K → Array K → Prop
  calm : ∀ {w c}, Holds w c → Calm w
  holds : ∀ {w c l u}, Ready w c l u → Holds w c
  addColumns : ∀ {w c}, Holds w c → ∀ cols, (∀ col ∈ cols, ∀ e ∈ col.entries, ∀ id, e.1 ≠ .cut id) →
    Ensures (sv.oracle.addColumns cols) w (fun _ w' => Holds w' (c.addColumns cols)) fun _ w' => Calm w'
  addRows : ∀ {w c}, Holds w c → ∀ rows, (∀ id row, (.cut id, row) ∈ rows → Admits row) →
    Ensures (sv.oracle.addRows rows) w (fun _ w' => Holds w' (c.addRows rows)) fun _ w' => Calm w'
  removeRows : ∀ {w c}, Holds w c → ∀ keys, Ensures (sv.oracle.removeRows keys) w
    (fun _ w' => Holds w' (c.removeRows keys)) fun _ w' => Calm w'
  setBounds : ∀ {w c}, Holds w c → ∀ l u, Ensures (sv.oracle.setBounds l u) w
    (fun _ w' => Ready w' c l u) fun _ w' => Calm w'
  solve : ∀ {w c l u}, Ready w c l u → Ensures sv.oracle.solve w
    (fun r w' => Ready w' c l u ∧ Answers w' c l u r) fun _ w' => Calm w' ∨ Halted w' c l u
  restoreBasis : ∀ {w c}, Holds w c → ∀ basis, Holds (sv.oracle.restoreBasis basis w) c
  clearBasis : ∀ {w c l u}, Ready w c l u → Ready (sv.oracle.clearBasis w) c l u
  price : ∀ {w c}, Holds w c → ∀ pricer ∈ sv.plugins.pricers, ∀ p, Ensures (pricer.generate p) w
    (fun _ w' => Holds w' c) fun _ w' => Calm w'
  separate : ∀ {w c g p}, Holds w c → Fits w c g p → ∀ sep ∈ sv.plugins.separators,
    Ensures (sep.separate p sv.oracle) w (fun cuts w' => (Holds w' c ∧ Fits w' c g p) ∧ ∀ cut ∈ cuts, Offers p cut)
      fun _ w' => Calm w'
  gomory : ∀ {w c g p cuts}, Holds w c → Fits w c (some g) p →
    Gomory.separate g p (sv.oracle.tableauRows w) (sv.oracle.row? w) = .ok cuts → ∀ cut ∈ cuts, Offers p cut
  find : ∀ {w c}, Holds w c → ∀ heur ∈ sv.plugins.heuristics, ∀ p, Ensures (heur.find p) w
    (fun _ w' => Holds w' c) fun _ w' => Calm w'
  score : ∀ {w c}, Holds w c → ∀ rule ∈ sv.scoring, ∀ cs costs, Holds (rule.score cs costs w).2 c

/-- The families of a model without custom ones. -/
theorem Handlers.which_of_builtIn (hs : Handlers K σ) (hb : hs.custom = #[]) (h : HandlerId) :
    (h = 0 ∧ hs.which h = .linear) ∨ (h ≠ 0 ∧ (hs.which h = .sos1 ∨ hs.which h = .unknown)) := by
  match h with
  | 0 => exact .inl ⟨rfl, rfl⟩
  | 1 => exact .inr ⟨Nat.one_ne_zero, .inl rfl⟩
  | h + 2 => exact .inr ⟨Nat.succ_ne_zero _, .inr (by simp [which, hb])⟩

namespace Search

/-! ## Rows of constraints -/

/-- The rows that a constraint has in the relaxation while it is active. -/
def rows (s : Search K σ) (id : ConsId) : List (Row K) :=
  s.handlers.initialRows s.world (s.registry.handler id) (s.registry.index id)

/-- Among the built-in families only the linear constraints have rows. -/
theorem rows_eq {s : Search K σ} (h : s.handlers.custom = #[]) (id : ConsId) :
    s.rows id = if s.registry.handler id = 0 then s.handlers.linear.initialRows (s.registry.index id) else [] := by
  unfold rows Handlers.initialRows
  rcases s.handlers.which_of_builtIn h (s.registry.handler id) with ⟨hh, hwhich⟩ | ⟨hh, hwhich⟩
  · rw [if_pos hh, hwhich]
  · rw [if_neg hh]
    rcases hwhich with hwhich | hwhich <;> rw [hwhich]

theorem rows_congr {s t : Search K σ} (hs : s.handlers.custom = #[]) (ht : t.handlers.custom = #[]) {id : ConsId}
    (hlinear : s.registry.handler id = 0 → t.handlers.linear.initialRows (s.registry.index id) =
      s.handlers.linear.initialRows (s.registry.index id))
    (hhandler : t.registry.handler id = s.registry.handler id)
    (hindex : t.registry.index id = s.registry.index id) : t.rows id = s.rows id := by
  rw [rows_eq hs, rows_eq ht, hhandler, hindex]
  split
  · next hh => exact hlinear hh
  · rfl

/-! ## Keeping count -/

/-- What the search knows of the relaxation. The rows of the cuts in `pending` are still
to be put in; those scheduled for removal are still to be taken out. -/
structure Tracks [Scalar K] (s : Search K σ) (c : Contents K) (pending : List Nat) : Prop where
  columns : c.costs = s.problem.costs
  constraint : ∀ id k, c.row (.constraint id k) = if id ∈ s.lpRows then (s.rows id)[k]? else none
  count : ∀ id n, s.lpRows[id]? = some n → n = (s.rows id).length
  cut : ∀ id ∉ pending, ∀ row,
    s.pool.Shows id row ↔ .cut id ∉ s.staleCutRows ∧ c.row (.cut id) = some row
  stale : ∀ key ∈ s.staleCutRows, ∃ id, key = .cut id

theorem Tracks.numCols [Scalar K] {s : Search K σ} {c : Contents K} {pending : List Nat} (h : s.Tracks c pending) :
    c.numCols = s.problem.numVars :=
  (congrArg List.length h.columns).trans s.problem.length_costs

/-- The constraints that have rows in the relaxation are those of `active` that have rows. -/
def Lists (s : Search K σ) (active : ConsId → Prop) : Prop :=
  ∀ id, id ∈ s.lpRows ↔ active id ∧ s.rows id ≠ []

theorem Lists.congr {s : Search K σ} {active active' : ConsId → Prop} (h : s.Lists active)
    (hsame : ∀ id, active' id ↔ active id) : s.Lists active' := fun id =>
  (h id).trans (and_congr_left fun _ => (hsame id).symm)

/-- The second state differs from the first only in the relaxation and its bookkeeping. -/
def Relaxes (s t : Search K σ) : Prop :=
  t = { s with world := t.world, lpRows := t.lpRows, staleCutRows := t.staleCutRows, stats := t.stats }

theorem Relaxes.of (s : Search K σ) (world : σ) (lpRows : Std.TreeMap ConsId Nat) (staleCutRows : List RowKey)
    (stats : Stats) : s.Relaxes { s with world, lpRows, staleCutRows, stats } := rfl

theorem Relaxes.refl (s : Search K σ) : Relaxes s s := rfl

theorem Relaxes.trans {s t u : Search K σ} (h : Relaxes s t) (h' : Relaxes t u) : Relaxes s u := by
  unfold Relaxes at *
  rw [h', h]

theorem Relaxes.part {α : Type} {s t : Search K σ} (h : Relaxes s t) (f : Search K σ → α)
    (hf : ∀ world lpRows staleCutRows stats, f { s with world, lpRows, staleCutRows, stats } = f s) : f t = f s := by
  unfold Relaxes at h
  exact (congrArg f h).trans (hf _ _ _ _)

theorem Relaxes.rows {s t : Search K σ} (h : Relaxes s t) (hs : s.handlers.custom = #[]) (id : ConsId) :
    t.rows id = s.rows id := by
  have hhandlers : t.handlers = s.handlers := h.part Search.handlers fun _ _ _ _ => rfl
  have hregistry : t.registry = s.registry := h.part Search.registry fun _ _ _ _ => rfl
  exact rows_congr hs (hhandlers ▸ hs) (by simp [hhandlers]) (by rw [hregistry]) (by rw [hregistry])

/-- What is known of the relaxation stays known while its bookkeeping is left alone. -/
theorem Tracks.relaxes [Scalar K] {s t : Search K σ} {c : Contents K} {pending : List Nat} (h : s.Tracks c pending)
    (hs : s.handlers.custom = #[]) (hr : s.Relaxes t) (hlp : t.lpRows = s.lpRows)
    (hstale : t.staleCutRows = s.staleCutRows) : t.Tracks c pending := by
  have hproblem : t.problem = s.problem := hr.part Search.problem fun _ _ _ _ => rfl
  have hpool : t.pool = s.pool := hr.part Search.pool fun _ _ _ _ => rfl
  refine ⟨hproblem ▸ h.columns, fun id k => ?_, fun id n hn => ?_, fun id hid row => ?_, hstale ▸ h.stale⟩
  · rw [hr.rows hs, hlp]
    exact h.constraint id k
  · rw [hlp] at hn
    rw [hr.rows hs]
    exact h.count id n hn
  · rw [hpool, hstale]
    exact h.cut id hid row

theorem Lists.relaxes {s t : Search K σ} {active : ConsId → Prop} (h : s.Lists active)
    (hs : s.handlers.custom = #[]) (hr : s.Relaxes t) (hlp : t.lpRows = s.lpRows) : t.Lists active := fun id => by
  rw [hr.rows hs, hlp]
  exact h id

variable [Scalar K] {sv : Solver K σ}

/-- The relaxation holds the rows of the constraints in `active`, and the rows of the
active cuts that are not pending. -/
structure Carries (F : Footing sv) (s : Search K σ) (active : ConsId → Prop) (pending : List Nat) :
    Prop where
  builtIn : s.handlers.custom = #[]
  tracks : ∃ c, F.Holds s.world c ∧ s.Tracks c pending
  lists : s.Lists active

/-- What is known where the search fails. If a solve has failed, the relaxation held the
rows of exactly the active constraints and cuts. -/
def Fails (F : Footing sv) (_ : Error K) (s : Search K σ) : Prop :=
  F.Calm s.world ∨ ∃ c, F.Halted s.world c s.domains.lower s.domains.upper ∧ s.Tracks c [] ∧
    s.staleCutRows = [] ∧ s.Lists (s.registry.isActive · = true)

/-- An action on the world that fails calmly, and what follows it. -/
theorem bind_onWorld {α β : Type} {F : Footing sv} {s : Search K σ} {act : EStateM (Error K) σ β}
    {f : β → SearchM K σ α} {mid : β → σ → Prop} {post : α → Search K σ → Prop}
    (hact : Ensures act s.world mid fun _ w => F.Calm w)
    (hf : ∀ b w, mid b w → Ensures (f b) { s with world := w } post (Fails F)) :
    Ensures (onWorld act >>= f) s post (Fails F) :=
  .bind (.onPart (hact.mono (fun b w => hf b w) fun _ _ => .inl))

theorem Carries.calm {F : Footing sv} {s : Search K σ} {active : ConsId → Prop} {pending : List Nat}
    (h : Carries F s active pending) : F.Calm s.world := by
  obtain ⟨c, hw, -⟩ := h.tracks
  exact F.calm hw

theorem Carries.congr {F : Footing sv} {s : Search K σ} {active active' : ConsId → Prop}
    {pending : List Nat} (h : Carries F s active pending) (hsame : ∀ id, active' id ↔ active id) :
    Carries F s active' pending :=
  ⟨h.builtIn, h.tracks, h.lists.congr hsame⟩

end Search

end BranchAndCut
