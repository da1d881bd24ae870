import BranchAndCut.Proofs.Cut.Gomory
import BranchAndCut.Proofs.Domain.Following
import BranchAndCut.Proofs.Retention.Feasible
import BranchAndCut.Proofs.Solve.Iterations
import BranchAndCut.Proofs.Solve.Nodes

/-! # Honest oracles and separators

An oracle is honest if it calls a relaxation infeasible only if no point fulfils it, and
optimal only with a point that is no worse than those that do. A separator is honest if its
cuts hold for all feasible points, and its local cuts for those of the node; it is asked only
at the solution of the last solve. The cuts of the built-in separator hold where the tableau
of that solve is told as it is. From the view of one feasible point, honest answers are a
footing of the search: what is asked of local cuts depends on whether the point belongs to the
node. -/

namespace BranchAndCut

section

variable [Rooted ℚ] {σ : Type}

/-! ## Values -/

namespace Problem

/-- The value of a point depends on the costs alone. -/
theorem value_eq (p : Problem (Exact ℚ)) (y : Array (Exact ℚ)) :
    p.value y = Scalar.sum (List.zipWith (· * ·) p.costs y.toList) := by
  unfold value costs
  rw [List.zipWith_map_left]

/-- Products of finite numbers are those of the rationals. -/
theorem zipWith_fin {costs : List (Exact ℚ)} (h : ∀ a ∈ costs, Scalar.isFinite a = true) (ys : List ℚ) :
    List.zipWith (· * ·) costs (ys.map Exact.fin) = (List.zipWith (fun a b => a.toField * b) costs ys).map Exact.fin := by
  induction costs generalizing ys with
  | nil => rfl
  | cons a costs ih =>
    obtain ⟨ha, hcosts⟩ := List.forall_mem_cons.mp h
    cases ys with
    | nil => rfl
    | cons b ys =>
      rw [List.map_cons, List.zipWith_cons_cons, List.zipWith_cons_cons, List.map_cons, ih hcosts, ← Exact.fin_mul,
        Exact.fin_toField ha]

/-- With finite costs every point has a finite value. -/
theorem exists_value {p : Problem (Exact ℚ)} (h : ∀ a ∈ p.costs, Scalar.isFinite a = true) (y : Point) :
    ∃ a : ℚ, p.value y.vector = .fin a := by
  have hvector : y.vector.toList = y.toList.map Exact.fin := Array.toList_map
  rw [value_eq, hvector, zipWith_fin h]
  exact ⟨_, sum_fin _⟩

end Problem

/-! ## Relaxations and their answers -/

namespace Contents

/-- The value of a point. -/
def value (c : Contents (Exact ℚ)) (y : Point) : Exact ℚ :=
  Scalar.sum (List.zipWith (· * ·) c.costs y.vector.toList)

/-- A point satisfies all rows. -/
def Meets (c : Contents (Exact ℚ)) (y : Point) : Prop := ∀ key row, c.row key = some row → row.Holds y

/-- A point satisfies the rows of cuts. -/
def MeetsCuts (c : Contents (Exact ℚ)) (y : Point) : Prop := ∀ id row, c.row (.cut id) = some row → row.Holds y

/-- A point satisfies the rows of constraints. -/
def MeetsConstraints (c : Contents (Exact ℚ)) (y : Point) : Prop :=
  ∀ id k row, c.row (.constraint id k) = some row → row.Holds y

theorem meets_of {c : Contents (Exact ℚ)} {y : Point} (hcuts : c.MeetsCuts y) (hconstraints : c.MeetsConstraints y) :
    c.Meets y := by
  rintro (⟨id, k⟩ | id) row hrow
  · exact hconstraints id k row hrow
  · exact hcuts id row hrow

section Cuts

variable {c : Contents (Exact ℚ)} {y : Point}

theorem MeetsCuts.addRows (h : c.MeetsCuts y) {rows : List (RowKey × Row (Exact ℚ))}
    (hrows : ∀ id row, (.cut id, row) ∈ rows → row.Holds y) : (c.addRows rows).MeetsCuts y := by
  induction rows generalizing c with
  | nil => exact h
  | cons entry rows ih =>
    refine ih (fun id row hrow => ?_) fun id row hmem => hrows id row (List.mem_cons_of_mem _ hmem)
    change Function.update c.row entry.1 (some entry.2) (.cut id) = some row at hrow
    by_cases hkey : RowKey.cut id = entry.1
    · rw [hkey, Function.update_self] at hrow
      exact hrows id row (List.mem_cons.mpr (.inl (Prod.ext hkey (Option.some.inj hrow).symm)))
    · rw [Function.update_of_ne hkey] at hrow
      exact h id row hrow

theorem MeetsCuts.removeRows (h : c.MeetsCuts y) (keys : List RowKey) : (c.removeRows keys).MeetsCuts y := by
  intro id row hrow
  rw [removeRows_row] at hrow
  split at hrow
  · cases hrow
  · exact h id row hrow

theorem MeetsCuts.addColumns (h : c.MeetsCuts y) {cols : List (NewColumn (Exact ℚ))}
    (hcols : ∀ col ∈ cols, ∀ e ∈ col.entries, ∀ id, e.1 ≠ .cut id) : (c.addColumns cols).MeetsCuts y := by
  have hentries : ∀ (v : VarId) (entries : List (RowKey × Exact ℚ)) (c : Contents (Exact ℚ)),
      (∀ e ∈ entries, ∀ id, e.1 ≠ .cut id) → c.MeetsCuts y → (entries.foldl (enter v) c).MeetsCuts y := by
    intro v entries
    induction entries with
    | nil => exact fun c _ hc => hc
    | cons e entries ih =>
      intro c hne hc
      obtain ⟨hfirst, hrest⟩ := List.forall_mem_cons.mp hne
      refine ih _ hrest fun id row hrow => hc id row ?_
      rwa [enter_of_ne _ _ _ (hfirst id).symm] at hrow
  induction cols generalizing c with
  | nil => exact h
  | cons col cols ih =>
    obtain ⟨hfirst, hrest⟩ := List.forall_mem_cons.mp hcols
    exact ih (hentries col.var col.entries _ hfirst h) hrest

end Cuts

/-- A point within the bounds satisfies all rows. -/
structure Fulfils (c : Contents (Exact ℚ)) (lower upper : Array (Exact ℚ)) (y : Point) : Prop where
  size : y.size = c.numCols
  bounds : ∀ v < c.numCols, lower.getD v 0 ≤ .fin (y.coord v) ∧ .fin (y.coord v) ≤ upper.getD v 0
  rows : c.Meets y

/-- An honest answer: infeasible only if no point fulfils the relaxation, and optimal only
with a point that is no worse than those that do. -/
structure Truthful (c : Contents (Exact ℚ)) (lower upper : Array (Exact ℚ)) (r : Relaxation (Exact ℚ)) : Prop where
  infeasible : r.status = .infeasible → ∀ y, ¬ c.Fulfils lower upper y
  optimal : r.status = .optimal → ∃ y : Point, r.x = y.vector ∧ r.objective = c.value y ∧
    ∀ z, c.Fulfils lower upper z → c.value y ≤ c.value z

end Contents

/-- A cut holds for all feasible points. A local cut, or one that was found at the root, has
to hold only for those that the relaxation left at the node. -/
structure Cut.Valid (m : Model (Exact ℚ) σ) (c : Contents (Exact ℚ)) (p : Fractional (Exact ℚ)) (cut : Cut (Exact ℚ)) :
    Prop where
  proper : cut.row.Proper
  holds : ∀ x, m.Feasible x → (cut.isLocal = true ∨ p.depth = 0 →
    p.domains.Encloses x ∧ c.Fulfils p.domains.lower p.domains.upper x) → cut.row.Holds x

/-- What a valid cut tells a point that may belong to the node. -/
theorem Cut.Valid.offered {m : Model (Exact ℚ) σ} {c : Contents (Exact ℚ)} {p : Fractional (Exact ℚ)}
    {cut : Cut (Exact ℚ)} (h : cut.Valid m c p) {x : Point} (hx : m.Feasible x) {P : Prop}
    (hP : P → p.domains.Encloses x ∧ c.Fulfils p.domains.lower p.domains.upper x) :
    cut.row.Proper ∧ ((cut.isLocal = true ∨ p.depth = 0 → P) → cut.row.Holds x) :=
  ⟨h.proper, fun hnode => h.holds x hx fun hlocal => hP (hnode hlocal)⟩

/-- The rows and the tableau of the last solve are told as they are. -/
structure Oracle.Tells (o : Oracle (Exact ℚ) σ) (w : σ) (c : Contents (Exact ℚ)) (lower upper : Array (Exact ℚ)) :
    Prop where
  row? : ∀ key, o.row? w key = c.row key
  tableau : ∀ vars rows, o.tableauRows w vars = .ok rows →
    ∀ row ∈ rows, row.Right c.row lower upper c.numCols vars

/-- What the domains are like in which the built-in separator is used, and its settings. -/
structure Gomory.Usable (c : Contents (Exact ℚ)) (g : GomorySettings (Exact ℚ)) (d : Domains (Exact ℚ)) : Prop where
  minFrac : 0 < g.minFrac
  grid : d.OnGrid
  numVars : d.numVars = c.numCols

/-- **The cuts of the built-in separator are valid** where the tableau is told as it is. -/
theorem Oracle.Tells.valid {o : Oracle (Exact ℚ) σ} {w : σ} {c : Contents (Exact ℚ)} {p : Fractional (Exact ℚ)}
    (h : o.Tells w c p.domains.lower p.domains.upper) (m : Model (Exact ℚ) σ) {g : GomorySettings (Exact ℚ)}
    (hg : Gomory.Usable c g p.domains) {cuts : List (Cut (Exact ℚ))}
    (hcuts : Gomory.separate g p (o.tableauRows w) (o.row? w) = .ok cuts) : ∀ cut ∈ cuts, cut.Valid m c p := by
  have hrows : o.row? w = c.row := funext h.row?
  rw [hrows] at hcuts
  intro cut hcut
  obtain ⟨hlocal, hproper, hholds⟩ := Gomory.separate_holds hg.minFrac
    (fun v hv => ⟨(hg.grid.lower v hv).2, (hg.grid.upper v hv).2⟩)
    (fun rows hrows => hg.numVars ▸ h.tableau _ rows hrows) hcuts cut hcut
  refine ⟨hproper, fun x _ hnode => ?_⟩
  obtain ⟨hencloses, hfulfils⟩ := hnode hlocal
  exact hholds x (hfulfils.size.trans hg.numVars.symm) hencloses hfulfils.rows

/-- **Honest oracles and separators** for a model. The oracle does as it is told and answers
honestly; the separators find valid cuts at the solution of the last solve, the built-in one
because the tableau is told as it is or for another reason. Heuristics and scoring rules leave
alone what the relaxation holds. -/
structure Honest (sv : Solver (Exact ℚ) σ) (m : Model (Exact ℚ) σ) where
  Holds : σ → Contents (Exact ℚ) → Prop
  /-- The relaxation is held with bounds of the variables, ready for a solve. -/
  Ready : σ → Contents (Exact ℚ) → Array (Exact ℚ) → Array (Exact ℚ) → Prop
  /-- The relaxation was solved within bounds of the variables, with an answer. -/
  Solved : σ → Contents (Exact ℚ) → Array (Exact ℚ) → Array (Exact ℚ) → Relaxation (Exact ℚ) → Prop
  holds : ∀ {w c l u}, Ready w c l u → Holds w c
  addColumns : ∀ {w c}, Holds w c → ∀ cols, Ensures (sv.oracle.addColumns cols) w
    (fun _ w' => Holds w' (c.addColumns cols)) fun _ _ => True
  addRows : ∀ {w c}, Holds w c → ∀ rows, Ensures (sv.oracle.addRows rows) w
    (fun _ w' => Holds w' (c.addRows rows)) fun _ _ => True
  removeRows : ∀ {w c}, Holds w c → ∀ keys, Ensures (sv.oracle.removeRows keys) w
    (fun _ w' => Holds w' (c.removeRows keys)) fun _ _ => True
  setBounds : ∀ {w c}, Holds w c → ∀ l u, Ensures (sv.oracle.setBounds l u) w (fun _ w' => Ready w' c l u) fun _ _ => True
  solve : ∀ {w c l u}, Ready w c l u → Ensures sv.oracle.solve w
    (fun r w' => Ready w' c l u ∧ Solved w' c l u r ∧ c.Truthful l u r) fun _ _ => True
  restoreBasis : ∀ {w c}, Holds w c → ∀ basis, Holds (sv.oracle.restoreBasis basis w) c
  clearBasis : ∀ {w c l u}, Ready w c l u → Ready (sv.oracle.clearBasis w) c l u
  separate : ∀ {w c r p}, Holds w c → Solved w c p.domains.lower p.domains.upper r → r.status = .optimal → p.x = r.x →
    ∀ sep ∈ sv.plugins.separators, Ensures (sep.separate p sv.oracle) w (fun cuts w' => (Holds w' c ∧
      Solved w' c p.domains.lower p.domains.upper r) ∧ ∀ cut ∈ cuts, cut.Valid m c p) fun _ _ => True
  gomory : ∀ {w c r p}, Holds w c → Solved w c p.domains.lower p.domains.upper r → r.status = .optimal → p.x = r.x →
    sv.oracle.Tells w c p.domains.lower p.domains.upper ∨ ∀ g cuts, Gomory.Usable c g p.domains →
      Gomory.separate g p (sv.oracle.tableauRows w) (sv.oracle.row? w) = .ok cuts → ∀ cut ∈ cuts, cut.Valid m c p
  find : ∀ {w c}, Holds w c → ∀ heur ∈ sv.plugins.heuristics, ∀ p, Ensures (heur.find p) w
    (fun _ w' => Holds w' c) fun _ _ => True
  score : ∀ {w c}, Holds w c → ∀ rule ∈ sv.scoring, ∀ cs costs, Holds (rule.score cs costs w).2 c

namespace Honest

variable {sv : Solver (Exact ℚ) σ} {m : Model (Exact ℚ) σ} (H : Honest sv m) (hpricers : sv.plugins.pricers = [])
  {x : Point} (hx : m.Feasible x) (P : Prop)

/-- The relaxation was solved to the point where cuts are sought, and what is known of the point
if it belongs to the node. -/
structure Seeks (w : σ) (c : Contents (Exact ℚ)) (g : Option (GomorySettings (Exact ℚ))) (p : Fractional (Exact ℚ)) :
    Prop where
  solved : ∃ r, H.Solved w c p.domains.lower p.domains.upper r ∧ r.status = .optimal ∧ p.x = r.x
  usable : ∀ g' ∈ g, Gomory.Usable c g' p.domains
  here : P → p.domains.Encloses x ∧ x.size = c.numCols ∧ c.MeetsConstraints x

variable {H P} in
theorem Seeks.fulfils {w : σ} {c : Contents (Exact ℚ)} {g : Option (GomorySettings (Exact ℚ))} {p : Fractional (Exact ℚ)}
    (h : H.Seeks P w c g p (x := x)) (hcuts : c.MeetsCuts x) (hP : P) :
    p.domains.Encloses x ∧ c.Fulfils p.domains.lower p.domains.upper x := by
  obtain ⟨hencloses, hsize, hconstraints⟩ := h.here hP
  exact ⟨hencloses, hsize, fun v _ => ⟨hencloses.lower v, hencloses.upper v⟩, Contents.meets_of hcuts hconstraints⟩

/-- **What one feasible point sees.** The rows of cuts hold for it; what is found at a node
does if it belongs to the node. -/
def footing : Footing sv where
  Holds w c := H.Holds w c ∧ c.MeetsCuts x
  Ready w c l u := H.Ready w c l u ∧ c.MeetsCuts x
  Answers w c l u r := H.Solved w c l u r ∧ c.Truthful l u r
  Admits row := row.Holds x
  Fits w c g p := H.Seeks P w c g p (x := x)
  Offers p cut := cut.row.Proper ∧ ((cut.isLocal = true ∨ p.depth = 0 → P) → cut.row.Holds x)
  Calm _ := True
  Halted _ _ _ _ := True
  calm _ := trivial
  holds h := ⟨H.holds h.1, h.2⟩
  addColumns h cols hcols := (H.addColumns h.1 cols).mono (fun _ _ hw => ⟨hw, h.2.addColumns hcols⟩) fun _ _ => id
  addRows h rows hrows := (H.addRows h.1 rows).mono (fun _ _ hw => ⟨hw, h.2.addRows hrows⟩) fun _ _ => id
  removeRows h keys := (H.removeRows h.1 keys).mono (fun _ _ hw => ⟨hw, h.2.removeRows keys⟩) fun _ _ => id
  setBounds h l u := (H.setBounds h.1 l u).mono (fun _ _ hw => ⟨hw, h.2⟩) fun _ _ => id
  solve h := (H.solve h.1).mono (fun _ _ hr => ⟨⟨hr.1, h.2⟩, hr.2⟩) fun _ _ _ => .inl trivial
  restoreBasis h basis := ⟨H.restoreBasis h.1 basis, h.2⟩
  clearBasis h := ⟨H.clearBasis h.1, h.2⟩
  price _ pricer hpricer := by
    rw [hpricers] at hpricer
    cases hpricer
  separate h hseeks sep hsep := by
    obtain ⟨r, hsolved, hstatus, hsolution⟩ := hseeks.solved
    refine (H.separate h.1 hsolved hstatus hsolution sep hsep).mono ?_ fun _ _ _ => trivial
    rintro cuts w' ⟨⟨hw', hsolved'⟩, hcuts⟩
    exact ⟨⟨⟨hw', h.2⟩, ⟨r, hsolved', hstatus, hsolution⟩, hseeks.usable, hseeks.here⟩, fun cut hcut =>
      (hcuts cut hcut).offered hx (hseeks.fulfils h.2)⟩
  gomory h hseeks hcuts cut hcut := by
    obtain ⟨r, hsolved, hstatus, hsolution⟩ := hseeks.solved
    have husable := hseeks.usable _ rfl
    refine Cut.Valid.offered ?_ hx (hseeks.fulfils h.2)
    rcases H.gomory h.1 hsolved hstatus hsolution with htells | hvalid
    · exact htells.valid m husable hcuts cut hcut
    · exact hvalid _ _ husable hcuts cut hcut
  find h heur hheur p := (H.find h.1 heur hheur p).mono (fun _ _ hw => ⟨hw, h.2⟩) fun _ _ => id
  score h rule hrule cs costs := ⟨H.score h.1 rule hrule cs costs, h.2⟩

/-- What the search knows of the relaxation does not depend on the node. -/
theorem synced_footing {P Q : Prop} {s : Search (Exact ℚ) σ} (h : s.Synced (H.footing hpricers hx P)) :
    s.Synced (H.footing hpricers hx Q) :=
  ⟨h.filed, ⟨h.carries.builtIn, h.carries.tracks, h.carries.lists⟩, h.admits, h.scoring⟩

end Honest

end

/-! ## A guarded tableau -/

/-- The solver whose built-in separator is refused the tableau outside some worlds. What the
separators of the user are given stays the same. -/
def Solver.guarded {K σ : Type} (sv : Solver K σ) (Apt : σ → Prop) [DecidablePred Apt] : Solver K σ :=
  { sv with
    oracle := { sv.oracle with
      tableauRows := fun w vars => if Apt w then sv.oracle.tableauRows w vars else throw .outOfSteps }
    plugins := { sv.plugins with
      separators := sv.plugins.separators.map fun sep => { sep with separate := fun p _ => sep.separate p sv.oracle } } }

/-- Where the first program returns, the second one does the same. -/
def Restricts {ε σ α : Type} (m' m : EStateM ε σ α) : Prop := ∀ s a t, Returns m' s a t → Returns m s a t

namespace Restricts

variable {ε σ τ α β : Type} {m' m : EStateM ε σ α}

theorem refl (m : EStateM ε σ α) : Restricts m m := fun _ _ _ => id

theorem bind {f' f : α → EStateM ε σ β} (h : Restricts m' m) (hf : ∀ a, Restricts (f' a) (f a)) :
    Restricts (m' >>= f') (m >>= f) := by
  intro s b t hreturns
  have hm := h s
  unfold Returns at hreturns hm ⊢
  change EStateM.bind m' f' s = _ at hreturns
  show EStateM.bind m f s = _
  unfold EStateM.bind at hreturns ⊢
  cases hm' : m' s with
  | ok a u =>
    rw [hm'] at hreturns
    rw [hm a u hm']
    exact hf a u b t hreturns
  | error e u =>
    rw [hm'] at hreturns
    cases hreturns

theorem ite {c : Prop} [Decidable c] {n' n : EStateM ε σ α} (h : Restricts m' m) (h' : Restricts n' n) :
    Restricts (if c then m' else n') (if c then m else n) := by
  split
  · exact h
  · exact h'

theorem onPart {part : τ → σ} {put : τ → σ → τ} (h : Restricts m' m) :
    Restricts (BranchAndCut.onPart part put m') (BranchAndCut.onPart part put m) := by
  intro w a t hreturns
  unfold Returns BranchAndCut.onPart at hreturns ⊢
  cases hm' : m' (part w) with
  | ok b s =>
    rw [hm'] at hreturns
    rw [h _ _ _ hm']
    exact hreturns
  | error e s =>
    rw [hm'] at hreturns
    cases hreturns

end Restricts

namespace RoundDriver

variable {K S : Type} {d : RoundDriver K S} {separate : Bool → EStateM (Error K) S Separated}

/-- Rounds with another way to separate. -/
theorem restricts_run (h : ∀ enforceOnly, Restricts (separate enforceOnly) (d.separate enforceOnly)) (limits : RoundLimits)
    (stats : RoundStats) (fuel : Nat) : Restricts ({ d with separate }.run limits stats fuel) (d.run limits stats fuel) := by
  have hconverge : ∀ priced fuel stats, { d with separate }.converge limits stats priced fuel =
      d.converge limits stats priced fuel := by
    intro priced fuel
    induction fuel generalizing priced with
    | zero => exact fun _ => rfl
    | succ fuel ih =>
      intro stats
      simp only [converge, ih]
  induction fuel generalizing stats with
  | zero => exact .refl _
  | succ fuel ih =>
    unfold run runAsking
    rw [hconverge]
    refine .bind (.refl _) fun answer => ?_
    split
    · exact .refl _
    · refine .bind (.refl _) fun f => .ite (.refl _) (.bind (.refl _) fun is => .ite (.refl _) ?_)
      refine .bind (h _) fun sep => ?_
      dsimp only
      exact .ite (.refl _) (.ite (.bind (.refl _) fun alive => .ite (ih _) (.refl _))
        (.bind (.refl _) fun alive => .ite (ih _) (.refl _)))

end RoundDriver

namespace Gomory

/-- The separator fails where it is refused the tableau that it asks for. -/
theorem separate_guarded {K : Type} [Scalar K] {s : GomorySettings K} {p : Fractional K}
    {tableauRows : List VarId → Except (Error K) (List (TableauRow K))} {rowOf : RowKey → Option (Row K)} {c : Prop}
    [Decidable c] {e : Error K} {cuts : List (Cut K)}
    (h : separate s p (fun vars => if c then tableauRows vars else throw e) rowOf = .ok cuts) :
    separate s p tableauRows rowOf = .ok cuts := by
  by_cases hc : c
  · simpa only [if_pos hc] using h
  · simp only [if_neg hc] at h
    unfold separate at h ⊢
    split at h
    · next hnone => rwa [if_pos hnone]
    · next hsome =>
      rw [if_neg hsome]
      dsimp only at h ⊢
      split at h
      · next hempty => rwa [if_pos hempty]
      · cases h

end Gomory

section

variable {K σ : Type} [Scalar K] (sv : Solver K σ) (Apt : σ → Prop) [DecidablePred Apt]

namespace Focus

theorem restricts_planeCuts (p : Fractional K) : Restricts (planeCuts (sv.guarded Apt) p) (planeCuts sv p) := by
  have hseparators : (sv.guarded Apt).plugins.separators.mapM (fun sep =>
      Search.onWorld (sep.separate p (sv.guarded Apt).oracle)) =
      sv.plugins.separators.mapM fun sep => Search.onWorld (K := K) (sep.separate p sv.oracle) :=
    List.mapM_map
  unfold planeCuts
  refine .bind (.refl _) fun s => ?_
  rw [hseparators]
  dsimp only
  split
  · exact .refl _
  · next g _ =>
    refine .bind (fun t cuts u hreturns => ?_) fun _ => .refl _
    cases hcuts : Gomory.separate g p ((sv.guarded Apt).oracle.tableauRows s.world)
        ((sv.guarded Apt).oracle.row? s.world) with
    | ok found =>
      rw [hcuts] at hreturns
      rwa [show Gomory.separate g p (sv.oracle.tableauRows s.world) (sv.oracle.row? s.world) = .ok found from
        Gomory.separate_guarded hcuts]
    | error e =>
      rw [hcuts] at hreturns
      cases hreturns

theorem restricts_separate (enforceOnly : Bool) :
    Restricts (separate (sv.guarded Apt) enforceOnly) (separate sv enforceOnly) := by
  unfold separate
  refine .bind (.refl _) fun f => ?_
  split
  · exact .refl _
  · refine .onPart (.bind (.refl _) fun enforced => ?_)
    split
    · exact .refl _
    · exact .bind (restricts_planeCuts sv Apt _) fun _ => .refl _

variable {Apt} in
/-- A guard that refuses nothing. -/
theorem driver_guarded (h : ∀ w, Apt w) : driver (sv.guarded Apt) = driver sv := by
  have hplanes : planeCuts (sv.guarded Apt) = planeCuts sv := by
    have hseparators : ∀ p, (sv.guarded Apt).plugins.separators.mapM (fun sep =>
        Search.onWorld (sep.separate p (sv.guarded Apt).oracle)) =
        sv.plugins.separators.mapM fun sep => Search.onWorld (K := K) (sep.separate p sv.oracle) :=
      fun p => List.mapM_map
    have htableau : (sv.guarded Apt).oracle.tableauRows = sv.oracle.tableauRows := by
      funext w vars
      exact if_pos (h w)
    funext p
    unfold planeCuts
    simp only [hseparators, htableau]
    rfl
  have hseparate : separate (sv.guarded Apt) = separate sv := by
    funext enforceOnly
    unfold separate
    rw [hplanes]
    rfl
  unfold driver
  rw [hseparate]
  rfl

end Focus

namespace Search

theorem restricts_runRounds (node : Node K) (depth : Nat) :
    Restricts (runRounds (sv.guarded Apt) node depth) (runRounds sv node depth) := by
  intro s r t hreturns
  unfold Returns runRounds at hreturns ⊢
  dsimp only at hreturns ⊢
  have hrun := RoundDriver.restricts_run (d := Focus.driver sv) (Focus.restricts_separate sv Apt)
  split at hreturns
  · next hguarded =>
    split
    · next hplain =>
      cases hplain.symm.trans (hrun _ _ _ _ _ _ hguarded)
      exact hreturns
    · next hplain => cases hplain.symm.trans (hrun _ _ _ _ _ _ hguarded)
  · cases hreturns

theorem restricts_processNode (id : NodeId) : Restricts (processNode (sv.guarded Apt) id) (processNode sv id) := by
  unfold processNode
  refine .bind (.refl _) fun s => .bind (.refl _) fun path => .bind (.refl _) fun feasible => .ite (.refl _) ?_
  refine .bind (.refl _) fun t => .bind (.refl _) fun alive => .ite (.refl _) ?_
  -- The records are replayed or not: what follows is the same.
  refine .ite (.bind (.refl _) fun _ => ?_) ?_
  all_goals
    refine .bind (.refl _) fun u => .bind (.refl _) fun node => .bind (.refl _) fun _ => ?_
    exact .bind (restricts_runRounds sv Apt node _) fun _ => .refl _

/-- **A guarded iteration** that returns is an iteration. -/
theorem restricts_step : Restricts (step (sv.guarded Apt)) (step sv) := by
  unfold step
  refine .bind (.refl _) fun s => ?_
  have hlimit : s.limit? (sv.guarded Apt) = s.limit? sv := rfl
  rw [hlimit]
  split
  · exact .refl _
  · refine .bind (.refl _) fun t => .bind (.refl _) fun next => ?_
    split
    · exact .refl _
    · exact .bind (.refl _) fun _ => .bind (restricts_processNode sv Apt _) fun _ => .refl _

theorem restricts_loop (fuel : Nat) : Restricts (loop (sv.guarded Apt) fuel) (loop sv fuel) := by
  induction fuel with
  | zero => exact .refl _
  | succ fuel ih =>
    refine .bind (restricts_step sv Apt) fun status => ?_
    cases status with
    | some status => exact .refl _
    | none => exact ih

/-- **A guarded run** that returns is a run. -/
theorem restricts_run : Restricts (run (sv.guarded Apt)) (run sv) := by
  unfold run
  refine .bind (.refl _) fun _ => .bind (.refl _) fun s => .ite (.refl _) (.bind (.refl _) fun _ => ?_)
  exact .bind (restricts_loop sv Apt sv.steps) fun _ => .refl _

/-- A loop that returns has made its first step. -/
theorem loop_step {sv : Solver K σ} {s u : Search K σ} {status : Status} {fuel : Nat}
    (h : Returns (loop sv fuel) s status u) : ∃ rest a t, fuel = rest + 1 ∧ Returns (step sv) s a t ∧
      match a with
      | some status' => status = status' ∧ u = t
      | none => Returns (loop sv rest) t status u := by
  cases fuel with
  | zero => cases h
  | succ rest =>
    obtain ⟨a, t, hstep, h⟩ := Returns.bind h
    refine ⟨rest, a, t, rfl, hstep, ?_⟩
    cases a with
    | some status' => exact h.pure
    | none => exact h

variable {Apt} in
theorem step_guarded (h : ∀ w, Apt w) : step (sv.guarded Apt) = step sv := by
  have hrounds : runRounds (sv.guarded Apt) = runRounds sv := by
    funext node depth
    unfold runRounds
    rw [Focus.driver_guarded sv h]
    rfl
  have hnode : processNode (sv.guarded Apt) = processNode sv := by
    funext id
    unfold processNode
    rw [hrounds]
    rfl
  unfold step
  rw [hnode]
  rfl

/-- **The tableau is used in some worlds only:** the iterations that return do so as well if it is
refused elsewhere. -/
def TableauIn (s₀ : Search K σ) : Prop := ∀ s, Visits sv s₀ s → ∀ a t, Returns (step sv) s a t →
  Returns (step (sv.guarded Apt)) s a t

variable {sv Apt} {s₀ s t : Search K σ}

theorem TableauIn.visits (h : TableauIn sv Apt s₀) (hs : Visits sv s₀ s) : Visits (sv.guarded Apt) s₀ s := by
  induction hs with
  | root hsetUp hdomains hroot => exact .root hsetUp hdomains hroot
  | next hs hstep ih => exact ih.next (h _ hs _ _ hstep)

/-- Where nothing is refused, there is nothing to ask for. -/
theorem TableauIn.always (h : ∀ w, Apt w) (s₀ : Search K σ) : TableauIn sv Apt s₀ := fun s _ a t hstep => by
  rwa [step_guarded sv h]

/-- **A guarded run that returns** is a run that uses the tableau in these worlds only. -/
theorem tableauIn_of_run {out : Outcome K} (h : Returns (run (sv.guarded Apt)) s₀ out t) : TableauIn sv Apt s₀ := by
  -- from each state that is visited the guarded loop returns
  have hloops : ∀ s, Visits sv s₀ s → ∃ fuel status u, Returns (loop (sv.guarded Apt) fuel) s status u := by
    intro s hs
    induction hs with
    | root hsetUp hdomains hroot =>
      obtain ⟨⟨⟩, u, hsetUp', h⟩ := h.bind
      obtain ⟨-, rfl⟩ := hsetUp'.unique hsetUp
      obtain ⟨u', v, hget, h⟩ := h.bind
      obtain ⟨rfl, rfl⟩ := hget.get
      rw [hdomains] at h
      obtain ⟨id, w, hroot', h⟩ := Returns.bind h
      obtain ⟨-, rfl⟩ := hroot'.unique hroot
      obtain ⟨status, x, hloop, -⟩ := h.bind
      exact ⟨_, status, x, hloop⟩
    | next _ hstep ih =>
      obtain ⟨fuel, status, u, hloop⟩ := ih
      obtain ⟨fuel, a, v, rfl, hguarded, hrest⟩ := loop_step hloop
      obtain ⟨rfl, rfl⟩ := (restricts_step sv Apt _ _ _ hguarded).unique hstep
      exact ⟨fuel, status, u, hrest⟩
  intro s hs a v hstep
  obtain ⟨fuel, status, u, hloop⟩ := hloops s hs
  obtain ⟨fuel, a', v', rfl, hguarded, -⟩ := loop_step hloop
  obtain ⟨rfl, rfl⟩ := (restricts_step sv Apt _ _ _ hguarded).unique hstep
  exact hguarded

end Search

end

end BranchAndCut
