import BranchAndCut.Proofs.Cut.Efficacy
import BranchAndCut.Proofs.Solve.Constraints
import BranchAndCut.Proofs.Solve.Probed

/-! # Enforcing lazy constraints

A lazy constraint is out of the relaxation until a solution violates it; then separation
offers its row. Two gates stand between the offer and the relaxation: a cut has to be
effective enough, and the pool refuses cuts that are nearly parallel to one that it has.
Past these gates a separation puts a violated row into the relaxation, whatever else it
is offered and however few cuts it may add. -/

namespace BranchAndCut

variable {K σ : Type} [Scalar K]

/-! ## What is put into the relaxation -/

/-- A record of the rows that are put into the relaxation: the oracle enters what it is
given, and nothing else is entered while cuts are looked for. -/
structure RowRecord (sv : Solver K σ) (custom : Array (CustomHandler K σ)) where
  rows : σ → List (RowKey × Row K)
  addRows : ∀ w entries, Ensures (sv.oracle.addRows entries) w (fun _ w' => rows w' = rows w ++ entries)
    fun _ _ => True
  separator : ∀ sep ∈ sv.plugins.separators, ∀ w p, Ensures (sep.separate p sv.oracle) w
    (fun _ w' => rows w' = rows w) fun _ _ => True
  family : ∀ handler ∈ custom, ∀ w conss p, Ensures (handler.separate conss p) w (fun _ w' => rows w' = rows w)
    fun _ _ => True

/-- The world of a simplex oracle that writes down the rows that it is given. -/
abbrev Recorded (K : Type) := KeyedSimplex K × List (RowKey × Row K)

namespace Recorded

def oracle : Oracle K (Recorded K) :=
  let o : Oracle K (Recorded K) := KeyedSimplex.oracle.within Prod.fst fun w simplex => (simplex, w.2)
  { o with
    addRows := fun entries => do
      o.addRows entries
      modify fun (simplex, rows) => (simplex, rows ++ entries) }

/-- A solver without plugins. -/
def solver (settings : Settings K) : Solver K (Recorded K) where
  settings := settings
  oracle := oracle
  steps := 50

/-- The world before a run. -/
def start : Recorded K := ({ settings := Lp.Settings.default }, [])

def record (settings : Settings K) {custom : Array (CustomHandler K (Recorded K))} (hcustom : custom = #[]) :
    RowRecord (solver settings) custom where
  rows := Prod.snd
  addRows w entries := by
    refine .bind (.onPart ?_)
    unfold Ensures
    split
    · rfl
    · trivial
  separator _ hsep := (List.not_mem_nil hsep).elim
  family _ hhandler := (Array.not_mem_empty _ (hcustom ▸ hhandler)).elim

end Recorded

namespace Focus

/-- The relaxation solution as it is handed to separation. -/
def pointAt (sv : Solver K σ) (f : Focus K σ) (x : Array K) : Fractional K where
  x := x
  domains := f.search.domains
  depth := f.depth
  feasTol := sv.settings.feasTol

/-- The cuts that a separation is offered. -/
def proposals (sv : Solver K σ) (enforceOnly : Bool) (p : Fractional K) : SearchM K σ (List (Cut K)) := do
  let enforced ← constraintCuts p
  let planes ← if enforceOnly then pure [] else planeCuts sv p
  pure (enforced ++ planes)

/-- The pool takes the cut for one that it has. Local cuts do not come to it below the root. -/
def Refused (f : Focus K σ) (cut : Cut K) : Prop :=
  ¬ (cut.isLocal = true ∧ 0 < f.depth) ∧ f.search.pool.Repeats cut.row

/-- The pool refuses the row, or it refuses as many cuts that are at least as effective as
may be added in one separation. -/
def Suppressed (sv : Solver K σ) (f : Focus K σ) (enforceOnly : Bool) (x : Array K) (row : Row K) : Prop :=
  f.search.pool.Repeats row ∨ ∃ cuts s refused,
    Returns (proposals sv enforceOnly (f.pointAt sv x)) f.search cuts s ∧ List.Subperm refused cuts ∧
      refused.length = sv.settings.cutsPerRound ∧
      ∀ cut ∈ refused, f.Refused cut ∧ row.efficacy x ≤ cut.row.efficacy x

/-- A row passes the gates: it is effective enough, and it is not suppressed. -/
structure Passes (sv : Solver K σ) (f : Focus K σ) (enforceOnly : Bool) (x : Array K) (row : Row K) : Prop where
  positive : 0 < row.efficacy x
  effective : sv.settings.cutViolationTol < row.efficacy x
  free : ¬ f.Suppressed sv enforceOnly x row

/-- The separation adds cuts and puts a violated row into the relaxation, if the solution
violates an active lazy constraint whose row is in `Due`. -/
def Enforces (sv : Solver K σ) {custom : Array (CustomHandler K σ)} (L : RowRecord sv custom)
    (Due : Focus K σ → Bool → Array K → Row K → Prop) (f : Focus K σ) (enforceOnly : Bool) : Prop :=
  ∀ lp c cons, f.lp = some lp → f.search.handlers.linear.conss[c]? = some cons → cons.isLazy = true →
    c ∈ f.search.handlers.linear.check (f.search.registry.activeIndices 0) lp.x sv.settings.feasTol →
    Due f enforceOnly lp.x cons.row → ∀ out g, Returns (separate sv enforceOnly) f out g → 0 < out.cuts ∧
      ∃ added, L.rows g.search.world = L.rows f.search.world ++ added ∧ ∃ entry ∈ added, 0 < entry.2.violation lp.x

variable {sv : Solver K σ} {custom : Array (CustomHandler K σ)} (L : RowRecord sv custom) {s t : Search K σ}
  {x : Array K}

/-- What an operation of separation does: it leaves the other parts alone and puts rows in. -/
def Puts (s : Search K σ) (entries : List (RowKey × Row K)) (t : Search K σ) : Prop :=
  L.rows t.world = L.rows s.world ++ entries

variable {L} in
omit [Scalar K] in
theorem Puts.trans {entries entries' : List (RowKey × Row K)} {u : Search K σ} (h : Puts L s entries t)
    (h' : Puts L t entries' u) : Puts L s (entries ++ entries') u := by
  unfold Puts at *
  rw [h', h, List.append_assoc]

/-- Nothing is put in, and the pool stays as it is. -/
def Idle (s t : Search K σ) : Prop := t.pool = s.pool ∧ L.rows t.world = L.rows s.world

omit [Scalar K] in
/-- **The row of a cut of the pool.** -/
theorem puts_addCutRow {id : Nat} {c : PooledCut K} (hget : s.pool.get? id = some c) :
    Ensures (Search.addCutRow sv id) s (fun _ t => t.pool = s.pool ∧ Puts L s [(.cut id, c.cut.row)] t)
      fun _ _ => True := by
  unfold Search.addCutRow
  refine .bind (.get ?_)
  rw [hget]
  exact .bind (.modify (.onPart ((L.addRows _ _).mono (fun _ w hw => ⟨rfl, hw⟩) fun _ _ _ => trivial)))

omit [Scalar K] in
/-- **The row of a constraint** that has one. -/
theorem puts_addConsRows {id : ConsId} {row : Row K} (hrows : s.rows id = [row]) :
    Ensures (Search.addConsRows sv id) s (fun _ t => t.pool = s.pool ∧ Puts L s [(.constraint id 0, row)] t)
      fun _ _ => True := by
  unfold Search.addConsRows
  refine .bind (.get ?_)
  change Ensures (if !(s.rows id).isEmpty then Search.onWorld (sv.oracle.addRows ((s.rows id).zipIdx.map _)) >>= _
    else _) _ _ _
  have hsome : (!([row] : List (Row K)).isEmpty) = true := rfl
  rw [hrows, if_pos hsome]
  exact .bind (.onPart ((L.addRows _ _).mono (fun _ w hw => .modify ⟨rfl, hw⟩) fun _ _ _ => trivial))

/-- **A local cut** becomes a constraint, and its row is put in. -/
theorem puts_addLocalCut (node : NodeId) (cut : Cut K) :
    Ensures (Search.addLocalCut sv node cut) s
      (fun _ t => t.pool = s.pool ∧ ∃ key, Puts L s [(key, cut.row)] t) fun _ _ => True := by
  unfold Search.addLocalCut
  refine .bind (.get (.bind (.set ?_)))
  change Ensures (Search.attempt (s.registry.add 0 s.handlers.linear.conss.size (.below node)) >>= _) _ _ _
  cases hadd : s.registry.add (K := K) 0 s.handlers.linear.conss.size (.below node) with
  | error e => exact .bind (.throw trivial)
  | ok added =>
    obtain ⟨id, registry⟩ := added
    have hrows : (s.withLocalCut cut registry).rows id = [cut.row] := by
      have hrecord := Registry.add_record hadd
      unfold Search.rows
      change Handlers.initialRows _ _ (registry.record id).handler (registry.record id).index = _
      rw [hrecord]
      show (s.handlers.linear.addRow cut.name cut.row false).2.initialRows s.handlers.linear.conss.size = _
      unfold LinearFamily.addRow LinearFamily.initialRows
      simp
    exact .bind (.pure (.bind (.modify ((puts_addConsRows L hrows).mono
      (fun _ t ⟨hpool, ht⟩ => ⟨hpool, _, ht⟩) fun _ _ _ => trivial))))

/-- **Adding a cut** puts its row in, unless the pool refuses it. -/
theorem puts_addCut (hpool : s.pool.Wf) (node : NodeId) (depth : Nat) (out : Separated) (cut : Cut K) :
    Ensures (addCut sv node depth out cut) s (fun out' t => t.pool.Wf ∧ ∃ entries, Puts L s entries t ∧
      ((out'.cuts = out.cuts + 1 ∧ ∃ key, (key, cut.row) ∈ entries) ∨
        out.cuts ≤ out'.cuts ∧ ¬ (cut.isLocal = true ∧ 0 < depth) ∧ s.pool.Repeats cut.row ∧
          ∀ row, t.pool.Repeats row ↔ s.pool.Repeats row)) fun _ _ => True := by
  unfold addCut
  by_cases hlocal : (cut.isLocal && decide (0 < depth)) = true
  · rw [if_pos hlocal]
    refine .bind_mono (puts_addLocalCut L node cut) fun _ t ⟨hsame, key, ht⟩ => .pure ?_
    exact ⟨hsame ▸ hpool, _, ht, .inl ⟨rfl, key, List.mem_singleton_self _⟩⟩
  · rw [if_neg hlocal]
    rw [Bool.and_eq_true, decide_eq_true_iff] at hlocal
    have hadds := hpool.add cut
    have hcases := hpool.add_cases cut
    refine .bind (.modifyGet ?_)
    generalize s.pool.add cut = added at hadds hcases ⊢
    obtain ⟨id, duplicate, pool⟩ := added
    dsimp only at hcases ⊢
    have hwf : pool.Wf := by
      cases duplicate with
      | true => exact hadds.wf
      | false => exact hadds.1.wf
    rcases hcases with ⟨_, c, rfl, rfl, hget, rfl⟩ | ⟨hrepeats, hsame⟩
    · rw [if_neg Bool.false_ne_true]
      refine .bind_mono (puts_addCutRow L (s := { s with pool }) hget) fun _ t ⟨hsame, ht⟩ => .pure ?_
      exact ⟨hsame ▸ hwf, _, ht, .inl ⟨rfl, _, List.mem_singleton_self _⟩⟩
    · cases duplicate with
      | true =>
        rw [if_pos rfl]
        exact .pure ⟨hwf, [], (List.append_nil _).symm, .inr ⟨Nat.le_refl _, hlocal, hrepeats, hsame⟩⟩
      | false =>
        rw [if_neg Bool.false_ne_true]
        obtain ⟨-, row, c, hc, rfl, -, rfl⟩ := hadds
        have hget := hwf.get?_eq hc
        refine .bind_mono (puts_addCutRow L (s := { s with pool }) hget) fun _ t ⟨hpool', ht⟩ => .pure ?_
        refine ⟨hpool' ▸ hwf, _, ht, .inr ⟨Nat.le_succ _, hlocal, hrepeats, fun row => ?_⟩⟩
        rw [hpool']
        exact hsame row

/-- **Adding cuts.** Of every first part of them the row of one is put in, unless the pool
refuses that whole part. -/
theorem puts_addCuts (node : NodeId) (depth : Nat) (best : List (K × Cut K)) (hpool : s.pool.Wf) (out : Separated) :
    Ensures (best.foldlM (fun out (_, cut) => addCut sv node depth out cut) out) s (fun out' t =>
      ∃ entries, Puts L s entries t ∧ out.cuts ≤ out'.cuts ∧ ∀ first rest, best = first ++ rest →
        (out.cuts < out'.cuts ∧ ∃ b ∈ first, ∃ key, (key, b.2.row) ∈ entries) ∨
          ∀ b ∈ first, ¬ (b.2.isLocal = true ∧ 0 < depth) ∧ s.pool.Repeats b.2.row) fun _ _ => True := by
  induction best generalizing s out with
  | nil =>
    refine .pure ⟨[], (List.append_nil _).symm, Nat.le_refl _, fun first rest hfirst => .inr ?_⟩
    rw [(List.nil_eq_append_iff.mp hfirst).1]
    nofun
  | cons b best ih =>
    rw [List.foldlM_cons]
    refine .bind_mono (puts_addCut L hpool node depth out b.2) fun out' t ⟨ht, entries, hputs, hb⟩ => ?_
    refine (ih ht out').mono ?_ fun _ _ => id
    rintro out'' u ⟨entries', hputs', hle, hrest⟩
    have hgrown : out.cuts ≤ out'.cuts := by
      rcases hb with ⟨hcuts, -⟩ | ⟨hcuts, -⟩ <;> omega
    refine ⟨_, hputs.trans hputs', Nat.le_trans hgrown hle, fun first rest hfirst => ?_⟩
    cases first with
    | nil => exact .inr nofun
    | cons b' first =>
      obtain ⟨rfl, hbest⟩ := List.cons_eq_cons.mp hfirst
      rcases hb with ⟨hcuts, key, hkey⟩ | ⟨-, hlocal, hrepeats, hsame⟩
      · exact .inl ⟨by omega, b, List.mem_cons_self, key, List.mem_append_left _ hkey⟩
      rcases hrest first rest hbest with ⟨hlt, c, hc, key, hkey⟩ | hrefused
      · exact .inl ⟨by omega, c, List.mem_cons_of_mem _ hc, key, List.mem_append_right _ hkey⟩
      · refine .inr (List.forall_mem_cons.mpr ⟨⟨hlocal, hrepeats⟩, fun c hc => ?_⟩)
        exact ⟨(hrefused c hc).1, (hsame _).mp (hrefused c hc).2⟩

/-! ## What separation is offered -/

/-- A cut that is effective enough, with its efficacy. -/
def score? (sv : Solver K σ) (x : Array K) (cut : Cut K) : Option (K × Cut K) :=
  if sv.settings.cutViolationTol < cut.row.efficacy x then some (cut.row.efficacy x, cut) else none

/-- The most effective cuts, as many as may be added. -/
def selected (sv : Solver K σ) (x : Array K) (cuts : List (Cut K)) : List (K × Cut K) :=
  ((cuts.filterMap (score? sv x)).mergeSort fun a b => Scalar.totalOrder a.1 b.1 != .lt).take sv.settings.cutsPerRound

omit L in
theorem scored_sublist (sv : Solver K σ) (x : Array K) (cuts : List (Cut K)) :
    ((cuts.filterMap (score? sv x)).map Prod.snd).Sublist cuts := by
  induction cuts with
  | nil => exact .slnil
  | cons cut cuts ih =>
    unfold score? at *
    rw [List.filterMap_cons]
    split
    · exact ih.cons cut
    · next heq =>
      split at heq
      · cases heq
        exact ih.cons_cons cut
      · cases heq

omit L in
theorem ensures_scoreAll (cuts : List (Cut K)) : Ensures (cuts.filterMapM (scored sv x)) s
    (fun found t => t = s ∧ found = cuts.filterMap (score? sv x)) fun _ _ => True := by
  have hscored : ∀ cut : Cut K, Ensures (scored sv x cut) s (fun r t => t = s ∧ r = score? sv x cut)
      fun _ _ => True := by
    intro cut
    unfold scored
    split
    · exact .bind (.throw trivial)
    · exact .pure ⟨rfl, rfl⟩
  induction cuts with
  | nil => exact .pure ⟨rfl, rfl⟩
  | cons cut cuts ih =>
    rw [List.filterMapM_cons]
    refine .bind_mono (hscored cut) fun scored t ⟨ht, hscore⟩ => ?_
    rw [ht, hscore]
    cases hcut : score? sv x cut with
    | none =>
      rw [List.filterMap_cons_none hcut]
      exact ih
    | some entry =>
      rw [List.filterMap_cons_some hcut]
      refine .bind (ih.mono (fun found t hfound => .pure ⟨hfound.1, ?_⟩) fun _ _ => id)
      rw [hfound.2]

/-- The families enter no rows, and the cuts include those of the linear constraints. -/
theorem ensures_linearCuts (hcustom : s.handlers.custom = custom) (p : Fractional K) :
    Ensures (constraintCuts p) s (fun cuts t => Idle L s t ∧
      ∀ cut ∈ s.handlers.linear.separate (s.registry.activeIndices 0) p, cut ∈ cuts) fun _ _ => True := by
  have hrest : ∀ h t, Idle L s t → Ensures (do
      let conss := s.registry.activeIndices (h + 1)
      if conss.isEmpty then pure [] else Search.onWorld (s.handlers.separate (h + 1) conss p)) t
      (fun _ u => Idle L s u) fun _ _ => True := by
    intro h t ht
    dsimp only
    split
    · exact .pure ht
    unfold Handlers.separate
    split
    · exact .onPart (.pure ht)
    · next handler hwhich =>
      refine .onPart ((L.family handler ?_ _ _ p).mono (fun _ w hw => ⟨ht.1, hw.trans ht.2⟩) fun _ _ => id)
      unfold Handlers.which at hwhich
      split at hwhich
      · cases hwhich
      · cases hwhich
      · split at hwhich
        · next hget =>
          cases hwhich
          exact hcustom ▸ Array.mem_of_getElem? hget
        · cases hwhich
    · exact .onPart (.pure ht)
  unfold constraintCuts Handlers.count
  refine .bind (.get ?_)
  rw [List.range_succ_eq_map, List.mapM_cons]
  have hlinear : Ensures (do
      let conss := s.registry.activeIndices 0
      if conss.isEmpty then pure [] else Search.onWorld (s.handlers.separate 0 conss p) : SearchM K σ (List (Cut K))) s
      (fun cuts t => t = s ∧ cuts = s.handlers.linear.separate (s.registry.activeIndices 0) p) fun _ _ => True := by
    dsimp only
    split
    · next hnone =>
      rw [List.isEmpty_iff.mp hnone]
      exact .pure ⟨rfl, rfl⟩
    · exact .onPart (.pure ⟨rfl, rfl⟩)
  refine .bind (.bind_mono hlinear fun cuts t ⟨ht, hcuts⟩ => ?_)
  rw [ht, hcuts]
  refine .bind_mono (Ensures.mapM (I := fun _ t => Idle L s t) ?_ ⟨rfl, rfl⟩) fun cuts t ht => .pure (.pure ⟨ht, ?_⟩)
  · intro h hh _ t ht
    obtain ⟨h, -, rfl⟩ := List.mem_map.mp hh
    exact hrest h t ht
  · intro cut hcut
    rw [List.flatten_cons]
    exact List.mem_append_left _ hcut

/-- Separators enter no rows. -/
theorem ensures_planeRows (p : Fractional K) :
    Ensures (planeCuts sv p) s (fun _ t => Idle L s t) fun _ _ => True := by
  have hseparators : ∀ gomory : List (Cut K), Ensures (do
      let cuts ← sv.plugins.separators.mapM fun sep => Search.onWorld (sep.separate p sv.oracle)
      pure (gomory ++ cuts.flatten)) s (fun _ t => Idle L s t) fun _ _ => True := by
    intro gomory
    refine .bind_mono (Ensures.mapM (I := fun _ t => Idle L s t) ?_ ⟨rfl, rfl⟩) fun _ _ ht => .pure ht
    intro sep hsep _ t ht
    exact .onPart ((L.separator sep hsep _ p).mono (fun _ w hw => ⟨ht.1, hw.trans ht.2⟩) fun _ _ => id)
  unfold planeCuts
  refine .bind (.get ?_)
  dsimp only
  split
  · exact .bind (.pure (hseparators []))
  · next g _ =>
    cases Gomory.separate g p (sv.oracle.tableauRows s.world) (sv.oracle.row? s.world) with
    | ok cuts => exact .bind (.pure (hseparators cuts))
    | error e => exact .bind (.throw trivial)

/-- **Separation** puts in rows of the most effective cuts that it is offered, unless the
pool refuses them. -/
theorem puts_separate {f : Focus K σ} (hpool : f.search.pool.Wf) (hcustom : f.search.handlers.custom = custom)
    {lp : Relaxation K} (hlp : f.lp = some lp) (enforceOnly : Bool) :
    Ensures (separate sv enforceOnly) f (fun out g => ∃ cuts s entries,
      Returns (proposals sv enforceOnly (f.pointAt sv lp.x)) f.search cuts s ∧
      (∀ cut ∈ f.search.handlers.linear.separate (f.search.registry.activeIndices 0) (f.pointAt sv lp.x), cut ∈ cuts) ∧
      Puts L f.search entries g.search ∧ ∀ first rest, selected sv lp.x cuts = first ++ rest →
        (0 < out.cuts ∧ ∃ b ∈ first, ∃ key, (key, b.2.row) ∈ entries) ∨ ∀ b ∈ first, f.Refused b.2)
      fun _ _ => True := by
  have htail : ∀ (cuts : List (Cut K)) (reactivated : List Nat) (s : Search K σ), s.pool.Wf →
      (∀ row, s.pool.Repeats row ↔ f.search.pool.Repeats row) → Puts L f.search [] s → Ensures (do
        let found ← cuts.filterMapM (scored sv lp.x)
        let best := (found.mergeSort fun a b => Scalar.totalOrder a.1 b.1 != .lt).take sv.settings.cutsPerRound
        reactivated.forM (Search.addCutRow sv)
        let out ← best.foldlM (fun out (_, cut) => addCut sv f.node f.depth out cut)
          { cuts := reactivated.length }
        Search.modifyStats fun st => { st with cutsAdded := st.cutsAdded + out.cuts }
        pure out) s (fun out t => ∃ entries, Puts L f.search entries t ∧
          ∀ first rest, selected sv lp.x cuts = first ++ rest →
            (0 < out.cuts ∧ ∃ b ∈ first, ∃ key, (key, b.2.row) ∈ entries) ∨ ∀ b ∈ first, f.Refused b.2)
        fun _ _ => True := by
    intro cuts reactivated s hs hsame hstart
    refine .bind_mono (ensures_scoreAll cuts) fun found t ⟨ht, hfound⟩ => ?_
    rw [ht, hfound]
    dsimp only
    have hrevived : Ensures (reactivated.forM (Search.addCutRow sv)) s (fun _ t => t.pool = s.pool ∧
        ∃ entries, Puts L f.search entries t) fun _ _ => True := by
      refine Ensures.forM (I := fun _ t => t.pool = s.pool ∧ ∃ entries, Puts L f.search entries t) ?_ ⟨rfl, _, hstart⟩
      rintro id _ t ⟨hpool, entries, ht⟩
      cases hget : t.pool.get? id with
      | none =>
        unfold Search.addCutRow
        refine .bind (.get ?_)
        rw [hget]
        exact .throw trivial
      | some c =>
        exact (puts_addCutRow L hget).mono (fun _ u ⟨hu, hputs⟩ => ⟨hu.trans hpool, _, ht.trans hputs⟩)
          fun _ _ _ => trivial
    refine .bind_mono hrevived fun _ t ⟨hpool, entries, ht⟩ => ?_
    refine .bind_mono (puts_addCuts L f.node f.depth (selected sv lp.x cuts) (hpool ▸ hs) _) ?_
    rintro out u ⟨entries', hu, -, hfirst⟩
    refine .bind (.modify (.pure ⟨_, ht.trans hu, fun first rest hselected => ?_⟩))
    rcases hfirst first rest hselected with ⟨hlt, b, hb, key, hkey⟩ | hrefused
    · exact .inl ⟨Nat.zero_lt_of_lt hlt, b, hb, key, List.mem_append_right _ hkey⟩
    · exact .inr fun b hb => ⟨(hrefused b hb).1, (hsame _).mp (hpool ▸ (hrefused b hb).2)⟩
  unfold Focus.separate
  refine .bind (.get ?_)
  rw [hlp]
  refine .onPart ?_
  refine .bind_mono (ensures_linearCuts L hcustom (f.pointAt sv lp.x)).self ?_
  rintro enforced s ⟨henforced, ⟨hs, hrows⟩, hlinear⟩
  cases enforceOnly with
  | true =>
    rw [if_pos rfl]
    refine .bind (.pure ?_)
    have hstart : Puts L f.search [] s := hrows.trans (List.append_nil _).symm
    refine (htail (enforced ++ []) [] s (hs ▸ hpool) (fun row => by rw [hs]) hstart).mono ?_ fun _ _ => id
    rintro out t ⟨entries, ht, hfirst⟩
    refine ⟨enforced ++ [], s, entries, ?_, fun cut hcut => List.mem_append_left _ (hlinear cut hcut), ht, hfirst⟩
    exact henforced.andThen rfl
  | false =>
    rw [if_neg Bool.false_ne_true]
    refine .bind_mono (ensures_planeRows L (f.pointAt sv lp.x)).self ?_
    rintro planes t ⟨hplanes, ht, hrows'⟩
    have htpool : t.pool = f.search.pool := ht.trans hs
    have hwf : t.pool.Wf := htpool ▸ hpool
    obtain ⟨hrevives, -⟩ := hwf.separateInactive lp.x sv.settings.cutViolationTol
    have hstart : Puts L f.search [] t := (hrows'.trans hrows).trans (List.append_nil _).symm
    refine .bind (.modifyGet (.bind (.pure ?_)))
    refine (htail (enforced ++ planes) _ { t with pool := _ } hrevives.wf (fun row => ?_) hstart).mono ?_ fun _ _ => id
    · exact (hwf.foldl_activate_repeats _).trans (by rw [htpool])
    rintro out u ⟨entries, hu, hfirst⟩
    refine ⟨enforced ++ planes, t, entries, ?_, fun cut hcut => List.mem_append_left _ (hlinear cut hcut), hu, hfirst⟩
    exact henforced.andThen (hplanes.andThen rfl)

end Focus

/-! ## The run -/

namespace Search

variable {sv : Solver K σ} {custom : Array (CustomHandler K σ)} {s : Search K σ}

/-- What separation rests on: the pool is in order, and the families are those of the model. -/
structure Pooled (custom : Array (CustomHandler K σ)) (s : Search K σ) : Prop where
  pool : s.pool.Wf
  families : s.handlers.custom = custom

theorem survives_pooled : Survives sv (Pooled custom) fun _ => True where
  evolves := {
    clerical := fun {s t} h hs => by
      have hpool : t.pool = s.pool := h.part Search.pool fun _ _ _ _ _ => rfl
      have hhandlers : t.handlers = s.handlers := h.part Search.handlers fun _ _ _ _ _ => rfl
      exact ⟨hpool ▸ hs.pool, hhandlers ▸ hs.families⟩
    trans := fun h h' hs => h' (h hs)
    restore := fun _ hs => ⟨hs.pool, hs.families⟩
    switchPath := fun _ _ hs => ⟨hs.pool, hs.families⟩
    propagate := fun s => by
      unfold Ensures
      split <;> exact fun hs => ⟨hs.pool, hs.families⟩
    updateActivity := fun _ duals hs => ⟨(hs.pool.updateActivity duals).1, hs.families⟩
    separateInactive := fun _ x minEfficacy hs => ⟨(hs.pool.separateInactive x minEfficacy).1.wf, hs.families⟩
    addCut := fun s cut hs => by
      refine ⟨?_, hs.families⟩
      have hadds := hs.pool.add cut
      generalize s.pool.add cut = added at hadds ⊢
      obtain ⟨id, duplicate, pool⟩ := added
      cases duplicate with
      | true => exact hadds.wf
      | false => exact hadds.1.wf
    addRow := fun _ _ _ hs => ⟨hs.pool, hs.families⟩
    register := fun _ hs => ⟨hs.pool, hs.families⟩
    lockCons := fun _ _ _ hs => ⟨hs.pool, hs.families⟩
    addVar := fun _ => fun _ hs => ⟨hs.pool, hs.families⟩
    addCoefficient := fun _ s h c v a => by
      have hsame := Handlers.addCoefficient_custom s.handlers s.world h c v a
      exact hsame.mono (fun _ _ ht hs => ⟨hs.pool, ht.trans hs.families⟩) fun _ _ ht hs =>
        ⟨hs.pool, ht.trans hs.families⟩
    releaseNode := fun _ _ hs => ⟨hs.pool, hs.families⟩
    delete := fun s h c hs => ⟨hs.pool, (Handlers.delete_custom ..).trans hs.families⟩ }
  settle := fun _ _ hs => ⟨hs.pool, hs.families⟩
  counts := fun _ hs => ⟨hs.pool, hs.families⟩
  compact := fun hs _ => ⟨hs.pool, hs.families⟩

theorem ofModel_pooled (sv : Solver K σ) (m : Model K σ) (w : σ) : Pooled m.handlers.custom (.ofModel sv m w) := by
  unfold ofModel
  refine ⟨?_, congrArg Handlers.custom (foldl_lockCons Search.handlers (fun _ _ _ => rfl) _ _)⟩
  have hpool := foldl_lockCons (K := K) (σ := σ) Search.pool (fun _ _ _ => rfl)
  dsimp only
  rw [hpool]
  exact ⟨List.nodup_nil, fun c hc => absurd hc (Array.not_mem_empty c)⟩

/-- **The rounds of a node end as fractional** only by a separation that adds nothing. -/
theorem runRounds_fractional {node : Node K} {depth : Nat} {bound : K} {lp : Option (Relaxation K)} {s t : Search K σ}
    (hret : Returns (runRounds sv node depth) s (.fractional, bound, lp) t) :
    ∃ f enforceOnly out, Returns (Focus.separate sv enforceOnly) f out { f with search := t } ∧ f.lp = lp ∧
      out.cuts = 0 := by
  have hany : ∀ {α : Type} (m : FocusM K σ α) f, Ensures m f (fun _ _ => True) fun _ _ => True := fun m f => by
    unfold Ensures
    split <;> trivial
  have hcontract : (Focus.driver sv).Contract (fun _ => True) (fun _ => True) (fun outcome g =>
      outcome = .fractional → ∃ f enforceOnly out, Returns (Focus.separate sv enforceOnly) f out g ∧ out.cuts = 0)
      fun _ _ => True := by
    refine ⟨fun _ => trivial, fun _ => trivial, fun _ => (hany _ _).mono (fun status _ _ => ?_) fun _ _ => id,
      fun _ => (hany _ _).mono (fun added _ _ => ?_) fun _ _ => id, fun _ _ => nofun,
      fun _ => (hany _ _).mono (fun is _ _ => ?_) fun _ _ => id, fun {f} _ enforceOnly =>
        (hany (Focus.separate sv enforceOnly) f).self.mono (fun out g hg => ?_) fun _ _ => id,
      fun _ => (hany _ _).mono (fun alive _ _ => ?_) fun _ _ => id⟩
    · cases status <;> first | trivial | nofun
    · split
      · trivial
      · exact ⟨trivial, nofun⟩
    · split
      · nofun
      · trivial
    · split
      · next hnone => exact fun _ => ⟨f, enforceOnly, out, hg.1, hnone.1⟩
      · trivial
    · split
      · trivial
      · nofun
  unfold Returns Search.runRounds at hret
  dsimp only at hret
  split at hret
  · next stats g heq =>
    cases hret
    obtain ⟨f, enforceOnly, out, hseparate, hnone⟩ := (hcontract.run _ _ _ trivial).returns heq rfl
    have hg : g = { f with search := g.search } := by
      unfold Focus.separate at hseparate
      obtain ⟨_, _, hget, hseparate⟩ := hseparate.bind
      obtain ⟨rfl, rfl⟩ := hget.get
      split at hseparate
      · rw [hseparate.pure.2]
      · obtain ⟨t, -, rfl⟩ := hseparate.onPart
        rfl
    exact ⟨f, enforceOnly, out, hg ▸ hseparate, (congrArg Focus.lp hg).symm, hnone⟩
  · cases hret

end Search

/-! ## Exact numbers -/

section Exact

variable {F : Type} [Field F] [LinearOrder F] [IsStrictOrderedRing F] [FloorRing F] [Rooted F]
  {sv : Solver (Exact F) σ} {custom : Array (CustomHandler (Exact F) σ)}

open Focus in
/-- **Separation enforces lazy constraints.** -/
theorem Focus.separate_enforces (L : RowRecord sv custom) {f : Focus (Exact F) σ} (hpool : f.search.pool.Wf)
    (hcustom : f.search.handlers.custom = custom) (htol : 0 < sv.settings.feasTol) (enforceOnly : Bool) :
    f.Enforces sv L (Passes sv) enforceOnly := by
  rintro lp c cons hlp hcons hlazy hcheck ⟨hpos, heffective, hfree⟩ out g hret
  obtain ⟨cuts, s, entries, hproposals, hlinear, hputs, hfirst⟩ :=
    (puts_separate L hpool hcustom hlp enforceOnly).returns hret
  have hcut := hlinear _ (LinearFamily.mem_separate (p := f.pointAt sv lp.x) htol hcons hlazy hcheck)
  generalize hname : ({ name := cons.name, row := cons.row, isLocal := false, source := "linear" } : Cut (Exact F)) =
    cut at hcut
  have hrow : cut.row = cons.row := hname ▸ rfl
  have hscored : (cons.row.efficacy lp.x, cut) ∈ cuts.filterMap (score? sv lp.x) := by
    refine List.mem_filterMap.mpr ⟨cut, hcut, ?_⟩
    unfold score?
    rw [hrow, if_pos heffective]
  obtain ⟨first, rest, hselected, htaken, hge, hlong⟩ :=
    exists_first_mergeSort noLess_trans noLess_total hscored sv.settings.cutsPerRound
  -- the first cuts are at least as effective, so the solution violates them
  have hbest : ∀ b ∈ first, b.2 ∈ cuts ∧ cons.row.efficacy lp.x ≤ b.2.row.efficacy lp.x := by
    intro b hb
    have hb' : b ∈ selected sv lp.x cuts := by
      unfold selected
      rw [hselected]
      exact List.mem_append_left _ hb
    obtain ⟨cut', hcut', hscore⟩ := List.mem_filterMap.mp (List.mem_mergeSort.mp (List.mem_of_mem_take hb'))
    unfold score? at hscore
    split at hscore
    · next heffective' =>
      cases hscore
      exact ⟨hcut', Exact.le_of_totalOrder (Exact.ne_nan_of_lt heffective').2 (Exact.ne_nan_of_lt heffective).2
        (bne_iff_ne.mp (hge _ hb))⟩
    · cases hscore
  rcases hfirst first rest hselected with ⟨hcuts, b, hb, key, hkey⟩ | hrefused
  · exact ⟨hcuts, entries, hputs, _, hkey, Row.violation_pos (Exact.lt_of_lt_of_le' hpos (hbest b hb).2)⟩
  refine absurd ?_ hfree
  rcases hlong with hmem | hlong
  · have hrepeats := (hrefused _ hmem).2
    rw [hrow] at hrepeats
    exact .inl hrepeats
  · refine .inr ⟨cuts, s, first.map Prod.snd, hproposals, ?_, by rw [List.length_map, hlong], fun cut' hcut' => ?_⟩
    · obtain ⟨taken, hperm, hsublist⟩ := htaken
      exact ⟨_, hperm.map Prod.snd, (hsublist.map Prod.snd).trans (scored_sublist sv lp.x cuts)⟩
    · obtain ⟨b, hb, rfl⟩ := List.mem_map.mp hcut'
      exact ⟨hrefused b hb, (hbest b hb).2⟩

namespace Search

/-- **Violated lazy constraints are enforced** whenever a run separates: if the row of one is
effective enough and is not suppressed, cuts are added, and a violated row among them. So the
rounds do not end on such a solution, since they end as fractional only where nothing is added. -/
theorem run_enforces (hvalid : sv.settings.validate = .ok ⟨⟩) (m : Model (Exact F) σ) (w : σ)
    (L : RowRecord sv m.handlers.custom) :
    WheneverSeparating sv (.ofModel sv m w) (fun f enforceOnly => f.Enforces sv L (Focus.Passes sv) enforceOnly) ∧
      ∀ s node depth bound lp t, Returns (runRounds sv node depth) s (.fractional, bound, lp) t →
        ∃ f enforceOnly out, Returns (Focus.separate sv enforceOnly) f out { f with search := t } ∧ f.lp = lp ∧
          out.cuts = 0 := by
  obtain ⟨-, -, htol, -⟩ := Settings.validate_spec hvalid
  have hpooled := survives_pooled.separating (.any sv) (Exact.le_of_lt htol) (ofModel_pooled sv m w) trivial
  exact ⟨hpooled.mono fun f enforceOnly hf => Focus.separate_enforces L hf.pool hf.families htol enforceOnly,
    fun _ _ _ _ _ _ => runRounds_fractional⟩

/-- A solver with the default settings. -/
def recorder : Solver (Exact ℚ) (Recorded (Exact ℚ)) := Recorded.solver Settings.default

/-- At most one of two variables, on demand. -/
def packing : Model (Exact ℚ) (Recorded (Exact ℚ)) :=
  Model.after (Model.addLinear "pack" [(0, 1), (1, 1)] Scalar.negInf 1 .onDemand)
    (Model.after (Model.addVar "y" .binary 0 1 (-1)) (Model.after (Model.addVar "x" .binary 0 1 (-1)) (.new "packing")))

/-- The row is added once, and the run ends at a solution that satisfies it. -/
theorem run_enforces_packing : recorder.settings.validate = .ok ⟨⟩ ∧
    (match run recorder (.ofModel recorder packing Recorded.start) with
      | .ok out t => decide (out.status = .optimal) && decide (t.world.2.length = 1)
      | .error _ _ => false) = true ∧
    ∃ L : RowRecord recorder packing.handlers.custom,
      WheneverSeparating recorder (.ofModel recorder packing Recorded.start)
        fun f enforceOnly => f.Enforces recorder L (Focus.Passes recorder) enforceOnly := by
  have hbuilt : packing.Built := (((Model.Built.new _).addVar ..).addVar ..).addLinear ..
  have hvalid : recorder.settings.validate = .ok ⟨⟩ := by decide +kernel
  refine ⟨hvalid, ?_, Recorded.record _ hbuilt.arranged.builtIn, (run_enforces hvalid packing Recorded.start _).1⟩
  have hsorted : Row.canonical [((0 : VarId), (1 : Exact ℚ)), (1, 1)] = [(0, 1), (1, 1)] := by cbv
  unfold Search.ofModel Propagator.new
  dsimp only
  rw [Handlers.sorted_builtIn hbuilt.arranged.builtIn]
  unfold packing Model.addLinear Row.of
  rw [hsorted]
  decide +kernel

/-! ### Constraints that do not pass the gates -/

end Search

namespace Focus

variable {K : Type} [Scalar K]

/-- A lazy constraint fails its check, and separation adds nothing. -/
def lapses (sv : Solver K σ) (f : Focus K σ) (enforceOnly : Bool) : Bool :=
  match f.lp, separate sv enforceOnly f with
  | some lp, .ok out _ =>
    decide (out.cuts = 0) &&
      (f.search.handlers.linear.check (f.search.registry.activeIndices 0) lp.x sv.settings.feasTol).any fun c =>
        match f.search.handlers.linear.conss[c]? with
        | some cons => cons.isLazy
        | none => false
  | _, _ => false

/-- Separation that stops the run where it lapses. -/
def alarmed (sv : Solver K σ) (enforceOnly : Bool) : FocusM K σ Separated := fun f =>
  if f.lapses sv enforceOnly then .error .outOfSteps f else separate sv enforceOnly f

theorem alarmed_eq {sv : Solver K σ} {custom : Array (CustomHandler K σ)} {L : RowRecord sv custom}
    {f : Focus K σ} {enforceOnly : Bool} (h : f.Enforces sv L (fun _ _ _ _ => True) enforceOnly) :
    alarmed sv enforceOnly f = separate sv enforceOnly f := by
  refine if_neg fun hlapses => ?_
  unfold lapses at hlapses
  split at hlapses
  · next lp out g hlp hret =>
    rw [Bool.and_eq_true, decide_eq_true_iff, List.any_eq_true] at hlapses
    obtain ⟨hnone, c, hc, hlazy⟩ := hlapses
    split at hlazy
    · next cons hcons =>
      have hpos := (h lp c cons hlp hcons hlazy hc trivial out g hret).1
      omega
    · cases hlazy
  · cases hlapses

end Focus

namespace Search

/-- A value so small that its row is violated, but not effective enough to be added. -/
def slight : Model (Exact ℚ) (Recorded (Exact ℚ)) :=
  Model.after (Model.addLinear "c" [(0, 2)] Scalar.negInf 0 .onDemand)
    (Model.after (Model.addVar "y" .continuous 0 7.5e-7 (-1)) (.new "slight"))

/-- Two rows that are nearly parallel, so that the pool takes one for the other. -/
def wedge : Model (Exact ℚ) (Recorded (Exact ℚ)) :=
  Model.after (Model.addLinear "s" [(0, 1), (1, -0.005)] Scalar.negInf 0 .onDemand)
    (Model.after (Model.addLinear "r" [(0, 1), (1, 0.005)] Scalar.negInf 0 .onDemand)
      (Model.after (Model.addVar "y" .continuous (-1) 1 0)
        (Model.after (Model.addVar "x" .continuous (-1) 1 (-1)) (.new "wedge"))))

/-- Whether the alarm stops a run that ends without it. -/
def stops (m : Model (Exact ℚ) (Recorded (Exact ℚ))) : Bool :=
  let s := Search.ofModel recorder m Recorded.start
  match runWith { report, separate := Focus.alarmed recorder } recorder s, run recorder s with
  | .error _ _, .ok _ _ => true
  | _, _ => false

theorem not_enforcing_of_stops {m : Model (Exact ℚ) (Recorded (Exact ℚ))} (hstops : stops m = true)
    (L : RowRecord recorder m.handlers.custom) :
    ¬ WheneverSeparating recorder (.ofModel recorder m Recorded.start)
      fun f enforceOnly => f.Enforces recorder L (fun _ _ _ _ => True) enforceOnly := by
  intro hwhenever
  have hsame := hwhenever (Focus.alarmed _) fun f enforceOnly hf => Focus.alarmed_eq hf
  unfold stops at hstops
  dsimp only at hstops
  rw [hsame] at hstops
  split at hstops
  · next herror hok =>
    rw [herror] at hok
    cases hok
  · cases hstops

theorem slight_stops : stops slight = true := by
  have hbuilt : slight.Built := ((Model.Built.new _).addVar ..).addLinear ..
  have hsorted : Row.canonical [((0 : VarId), (2 : Exact ℚ))] = [(0, 2)] := by cbv
  unfold stops Search.ofModel Propagator.new
  dsimp only
  rw [Handlers.sorted_builtIn hbuilt.arranged.builtIn]
  unfold slight Model.addLinear Row.of
  rw [hsorted]
  decide +kernel

theorem wedge_stops : stops wedge = true := by
  have hbuilt : wedge.Built := ((((Model.Built.new _).addVar ..).addVar ..).addLinear ..).addLinear ..
  have hsorted : Row.canonical [((0 : VarId), (1 : Exact ℚ)), (1, 0.005)] = [(0, 1), (1, 0.005)] := by cbv
  have hsorted' : Row.canonical [((0 : VarId), (1 : Exact ℚ)), (1, -0.005)] = [(0, 1), (1, -0.005)] := by cbv
  unfold stops Search.ofModel Propagator.new
  dsimp only
  rw [Handlers.sorted_builtIn hbuilt.arranged.builtIn]
  unfold wedge Model.addLinear Row.of
  rw [hsorted, hsorted']
  decide +kernel

/-- A violated lazy constraint is not enforced where its row is not effective enough, nor
where the pool has a cut that is nearly parallel to it. -/
theorem run_lapses : 1 ≤ recorder.settings.cutsPerRound ∧
    (∀ L : RowRecord recorder slight.handlers.custom,
      ¬ WheneverSeparating recorder (.ofModel recorder slight Recorded.start)
        fun f enforceOnly => f.Enforces recorder L (fun _ _ _ _ => True) enforceOnly) ∧
    ∀ L : RowRecord recorder wedge.handlers.custom,
      ¬ WheneverSeparating recorder (.ofModel recorder wedge Recorded.start)
        fun f enforceOnly => f.Enforces recorder L (fun _ _ _ _ => True) enforceOnly :=
  ⟨by decide +kernel, not_enforcing_of_stops slight_stops, not_enforcing_of_stops wedge_stops⟩

end Search

end Exact

end BranchAndCut
