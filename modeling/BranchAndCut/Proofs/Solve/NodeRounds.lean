import BranchAndCut.Proofs.Constraint.Fixpoint
import BranchAndCut.Proofs.Solve.Columns
import BranchAndCut.Proofs.Solve.Rounds

/-! # The relaxation during the rounds

Before each solve the rows scheduled for removal are taken out and the bounds are set. So
the relaxation that is solved has the rows of exactly the active constraints and the
active cuts, and the rounds keep it in line with the search. -/

namespace BranchAndCut

variable {K σ : Type} [Scalar K] {sv : Solver K σ} {F : Footing sv}

namespace Search

/-- The relaxation is ready for a solve. -/
structure Primed (F : Footing sv) (s : Search K σ) (c : Contents K) : Prop where
  synced : Synced F s
  stale : s.staleCutRows = []
  tracks : s.Tracks c []
  ready : F.Ready s.world c s.domains.lower s.domains.upper

/-- The world after a solve, or after the basis was forgotten. -/
theorem Primed.world {s : Search K σ} {c : Contents K} (h : Primed F s c) {w : σ}
    (hw : F.Ready w c s.domains.lower s.domains.upper) (stats : Stats) :
    Primed F { s with world := w, stats } c := by
  have hb := h.synced.carries.builtIn
  have ht := h.tracks.relaxes (t := { s with world := w, stats }) hb (.of ..) rfl rfl
  exact ⟨⟨h.synced.filed.relaxes (.of ..), ⟨hb, ⟨c, F.holds hw, ht⟩,
    h.synced.carries.lists.relaxes hb (.of ..) rfl⟩, h.synced.admits, h.synced.scoring⟩, h.stale, ht, hw⟩

/-- **Propagation** changes the domains only. -/
theorem Synced.propagate {s : Search K σ} (h : Synced F s) :
    Ensures (propagate sv) s (fun _ t => Synced F t ∧ t = { s with domains := t.domains, stats := t.stats })
      (Fails F) := by
  have hb := h.carries.builtIn
  have hdomains : ∀ d : Domains K, Synced F { s with domains := d } := fun d =>
    h.transfer rfl rfl rfl rfl rfl rfl rfl rfl h.filed.named
  unfold Search.propagate
  refine .bind (.get (.bind (.onPart ((Propagator.run_world hb ..).mono ?_ ?_))))
  · rintro out ⟨d, _⟩ rfl
    refine .bind (.modify (.pure ⟨?_, rfl⟩))
    exact h.transfer rfl rfl rfl rfl rfl rfl rfl rfl h.filed.named
  · rintro e ⟨d, _⟩ rfl
    exact .inl (hdomains d).calm

/-- **Before a solve.** -/
theorem Synced.prime {s : Search K σ} (h : Synced F s) :
    Ensures (do
      flushStaleRows sv
      let d := (← get).domains
      onWorld (sv.oracle.setBounds d.lower d.upper)) s
      (fun _ t => s.Relaxes t ∧ ∃ c, Primed F t c) (Fails F) := by
  refine .bind_mono h.carries.flushStaleRows fun _ t ⟨hr, hstale, ht⟩ => .bind (.get ?_)
  have hregistry : t.registry = s.registry := hr.part Search.registry fun _ _ _ _ => rfl
  have hbrancher : t.brancher = s.brancher := hr.part Search.brancher fun _ _ _ _ => rfl
  have hpool : t.pool = s.pool := hr.part Search.pool fun _ _ _ _ => rfl
  have hsynced : Synced F t := ⟨h.filed.relaxes hr, ht.congr fun id => by rw [hregistry], hpool ▸ h.admits,
    (congrArg Brancher.custom hbrancher).trans h.scoring⟩
  obtain ⟨c, hw, htracks⟩ := ht.tracks
  refine .onPart ((F.setBounds hw _ _).mono (fun _ w hready => ?_) fun _ _ => .inl)
  exact ⟨hr.trans (.of ..), c, hsynced.world htracks (F.holds hready), hstale,
    htracks.relaxes ht.builtIn (.of ..) rfl rfl, hready⟩

end Search

namespace Focus

variable {f : Focus K σ}

theorem ensures_onSearch {α : Type} {act : SearchM K σ α} {post : α → Search K σ → Prop}
    (h : Ensures act f.search post (Search.Fails F)) :
    Ensures (onSearch act) f (fun a g => ∃ t, g = { f with search := t } ∧ post a t)
      fun e g => Search.Fails F e g.search :=
  .onPart (h.mono (fun _ t ht => ⟨t, rfl, ht⟩) fun _ _ hfail => hfail)

/-! ## The solve -/

/-- **A solve** answers for the relaxation that is held. -/
theorem ensures_solveOnce {c : Contents K} (h : f.search.Primed F c) :
    Ensures (solveOnce sv) f (fun lp g => ∃ t, g = { f with search := t } ∧ f.search.Relaxes t ∧ t.Primed F c ∧
      F.Answers t.world c t.domains.lower t.domains.upper lp) fun e g => Search.Fails F e g.search := by
  refine ensures_onSearch (.bind (.onPart ((F.solve h.ready).mono ?_ ?_)))
  · rintro lp w ⟨hready, hanswers⟩
    exact .bind (.modify (.pure ⟨.of .., h.world hready _, hanswers⟩))
  · rintro e w (hcalm | hhalted)
    · exact .inl hcalm
    · have hb := h.synced.carries.builtIn
      exact .inr ⟨c, hhalted, h.tracks.relaxes hb (.of ..) rfl rfl, h.stale,
        h.synced.carries.lists.relaxes hb (.of ..) rfl⟩

/-- **A solve,** tried twice if need be. -/
theorem ensures_solveReliably {c : Contents K} (h : f.search.Primed F c) :
    Ensures (solveReliably sv) f (fun lp g => ∃ t, g = { f with search := t } ∧ f.search.Relaxes t ∧ t.Primed F c ∧
      F.Answers t.world c t.domains.lower t.domains.upper lp) fun e g => Search.Fails F e g.search := by
  unfold solveReliably
  refine .bind_mono (ensures_solveOnce h) ?_
  rintro lp _ ⟨t, rfl, hr, ht, hanswers⟩
  split
  · refine .bind (Ensures.onPart (.bind (.modify (.modify ?_))))
    refine (ensures_solveOnce (ht.world (F.clearBasis ht.ready) _)).mono ?_ fun _ _ hfail => hfail
    rintro lp' _ ⟨u, rfl, hr', hu, hanswers'⟩
    exact ⟨u, rfl, hr.trans ((Search.Relaxes.of t ..).trans hr'), hu, hanswers'⟩
  · exact .pure ⟨t, rfl, hr, ht, hanswers⟩

/-- The relaxation is in line with the search, and the node is on its path. -/
structure Focused (F : Footing sv) (f : Focus K σ) : Prop where
  synced : f.search.Synced F
  node : f.node ∈ f.search.registry.path.map Prod.fst

theorem Focused.fails (h : Focused F f) (e : Error K) : Search.Fails F e f.search := .inl h.synced.calm

/-- An operation of the search that stays on the path. -/
theorem Focused.onSearch {α : Type} (h : Focused F f) {act : SearchM K σ α}
    (hact : Ensures act f.search (fun _ t => t.Synced F ∧
      t.registry.path.map Prod.fst = f.search.registry.path.map Prod.fst) (Search.Fails F)) :
    Ensures (onSearch act) f (fun _ g => Focused F g) fun e g => Search.Fails F e g.search := by
  refine (ensures_onSearch hact).mono ?_ fun _ _ hfail => hfail
  rintro _ _ ⟨t, rfl, ht, hpath⟩
  exact ⟨ht, hpath ▸ h.node⟩

/-- The second state differs from the first only in the relaxation, the cuts at hand and
what was learned. -/
def Follows (f g : Focus K σ) : Prop :=
  g = { f with
    search := { f.search with
      world := g.search.world
      lpRows := g.search.lpRows
      staleCutRows := g.search.staleCutRows
      stats := g.search.stats
      pool := g.search.pool
      brancher := g.search.brancher }
    pricerBound := g.pricerBound
    origin := g.origin
    lp := g.lp }

omit [Scalar K] in
theorem Follows.of (f : Focus K σ) (world : σ) (lpRows : Std.TreeMap ConsId Nat) (staleCutRows : List RowKey)
    (stats : Stats) (pool : CutPool K) (brancher : Brancher K σ) (pricerBound : K) (origin : Option (BranchOrigin K))
    (lp : Option (Relaxation K)) :
    f.Follows { f with
      search := { f.search with world, lpRows, staleCutRows, stats, pool, brancher }
      pricerBound, origin, lp } := rfl

omit [Scalar K] in
theorem Follows.trans {f g h : Focus K σ} (hfg : f.Follows g) (hgh : g.Follows h) : f.Follows h := by
  unfold Follows at *
  rw [hgh, hfg]

omit [Scalar K] in
theorem Follows.of_relaxes {t : Search K σ} (h : f.search.Relaxes t) : f.Follows { f with search := t } := by
  unfold Follows
  rw [h]

/-- What a solve in the rounds tells: the answer for the relaxation, which held the rows of
exactly the active constraints and cuts, and holds them still when the cuts have aged. -/
structure Solves (F : Footing sv) (f : Focus K σ) (status : RelaxationStatus) (g : Focus K σ) : Prop where
  follows : f.Follows g
  answer : ∃ lp c t, g.lp = some lp ∧ lp.status = status ∧ f.search.Relaxes t ∧ t.Primed F c ∧
    F.Answers t.world c t.domains.lower t.domains.upper lp ∧ g.search.world = t.world ∧ g.search.Tracks c []
  pricerBound : g.pricerBound = if status = .optimal then Scalar.negInf else f.pricerBound

/-- The world is the same, and what the relaxation is known to hold. -/
def Keeps (f g : Focus K σ) : Prop :=
  g.search.world = f.search.world ∧ ∀ c, f.search.Tracks c [] → g.search.Tracks c []

/-- Cuts that stayed slack are set aside. -/
theorem Focused.ageCuts (h : Focused F f) (lp : Relaxation K) :
    Ensures (ageCuts lp) f (fun _ g => Focused F g ∧ f.Follows g ∧ f.Keeps g)
      fun e g => Search.Fails F e g.search := by
  have hfiled := h.synced.filed
  obtain ⟨hpool, hshows⟩ :=
    hfiled.pool.updateActivity (f.search.pool.activeCuts.map fun c => (c.id, lp.dual (.cut c.id)))
  unfold Focus.ageCuts
  refine .onPart (.bind (.modifyGet (.modify ⟨⟨⟨?_, h.synced.carries.retire hshows,
    h.synced.admits.updateActivity _, h.synced.scoring⟩, h.node⟩, .of .., rfl, fun _ ht => ht.retire hshows⟩)))
  exact ⟨hfiled.registry, hfiled.stored, hfiled.distinct, hpool, hfiled.named⟩

/-- What is learned from the gain of the first solve concerns the choice of candidates. -/
theorem Focused.learnGain (h : Focused F f) (lp : Relaxation K) :
    Ensures (learnGain lp) f (fun _ g => Focused F g ∧ f.Follows g ∧ f.Keeps g)
      fun e g => Search.Fails F e g.search := by
  refine .modify ?_
  dsimp only
  split
  · exact ⟨h, .of .., rfl, fun _ ht => ht⟩
  · exact ⟨⟨h.synced.transfer rfl rfl rfl rfl rfl rfl rfl rfl h.synced.filed.named, h.node⟩, .of .., rfl,
      fun _ ht => ⟨ht.columns, ht.constraint, ht.count, ht.cut, ht.stale⟩⟩

/-- **A solve in the rounds.** -/
theorem Focused.solve (h : Focused F f) :
    Ensures (solve sv) f (fun status g => Focused F g ∧ Solves F f status g) fun e g => Search.Fails F e g.search := by
  unfold Focus.solve
  refine .bind_mono (ensures_onSearch h.synced.prime) ?_
  rintro _ _ ⟨t, rfl, hr, c, ht⟩
  refine .bind_mono (ensures_solveReliably ht) ?_
  rintro lp _ ⟨u, rfl, hr', hu, hanswers⟩
  have hru := hr.trans hr'
  have hfocused : Focused F { f with search := u } := by
    refine ⟨hu.synced, ?_⟩
    rw [hru.part Search.registry fun _ _ _ _ => rfl]
    exact h.node
  have hfollows : f.Follows { f with search := u } := .of_relaxes hru
  by_cases hoptimal : lp.status = .optimal
  · rw [if_pos hoptimal]
    refine .bind_mono (hfocused.ageCuts lp) ?_
    rintro _ g ⟨hg, hfg, hworld, htracks⟩
    refine .bind_mono (hg.learnGain lp) ?_
    rintro _ g' ⟨hg', hgg', hworld', htracks'⟩
    exact .bind (.modify (.bind (.modify (.pure ⟨⟨hg'.synced, hg'.node⟩,
      ((hfollows.trans hfg).trans hgg').trans (.of ..),
      ⟨lp, c, u, rfl, rfl, hru, hu, hanswers, hworld'.trans hworld, htracks' c (htracks c hu.tracks)⟩,
      (if_pos hoptimal).symm⟩))))
  · rw [if_neg hoptimal]
    exact .bind (.modify (.pure ⟨⟨hfocused.synced, hfocused.node⟩,
      hfollows.trans (.of ..), ⟨lp, c, u, rfl, rfl, hru, hu, hanswers, rfl, hu.tracks⟩, (if_neg hoptimal).symm⟩))

/-! ## Pricing -/

/-- **Pricing** adds columns. -/
theorem Focused.price (h : Focused F f) :
    Ensures (price sv) f (fun _ g => Focused F g) fun e g => Search.Fails F e g.search := by
  unfold Focus.price
  refine .bind (.get ?_)
  split
  · exact .pure h
  · refine .bind_mono (Ensures.mapM (I := fun _ g => Focused F g) ?_ h) fun columns g hg => ?_
    · intro pricer hpricer _ g hg
      unfold askPricer
      refine .bind_mono (ensures_onSearch (hg.synced.ensures_onWorld fun c hw _ =>
        (F.price hw pricer hpricer _).mono (fun _ _ hw' => ⟨hw', trivial⟩) fun _ _ hcalm => hcalm)) ?_
      rintro found _ ⟨t, rfl, ht, -, w, rfl⟩
      have hfocused : Focused F { g with search := { g.search with world := w } } := ⟨ht, hg.node⟩
      split
      · exact .pure hfocused
      · dsimp only
        split
        · exact .bind (.throw (hfocused.fails _))
        · exact .bind (.modify (.pure ⟨ht, hg.node⟩))
    · refine .bind_mono (Ensures.forM (I := fun _ g => Focused F g) ?_ hg) fun _ g' hg' => .pure hg'
      rintro ⟨pricer, col⟩ _ g' hg'
      refine hg'.onSearch ((hg'.synced.addPricedColumn pricer col).mono ?_ fun _ _ hfail => hfail)
      rintro _ t ⟨ht, hregistry⟩
      exact ⟨ht, by rw [hregistry]⟩

theorem Focused.isFeasible (h : Focused F f) :
    Ensures (isFeasible sv) f (fun _ g => Focused F g) fun e g => Search.Fails F e g.search := by
  unfold Focus.isFeasible
  refine .bind (.get ?_)
  split <;> exact .pure h

/-! ## Separation -/

variable {s : Search K σ}

omit [Scalar K] in
/-- Separation by the built-in families is a function of the constraints. -/
theorem separate_of_builtIn {hs : Handlers K σ} (hb : hs.custom = #[]) (h : HandlerId) (conss : List Nat)
    (p : Fractional K) [Scalar K] :
    hs.separate h conss p = pure (if h = 0 then hs.linear.separate conss p else []) := by
  unfold Handlers.separate
  rcases hs.which_of_builtIn hb h with ⟨hh, hwhich⟩ | ⟨hh, hwhich⟩
  · rw [if_pos hh, hwhich]
  · rw [if_neg hh]
    rcases hwhich with hwhich | hwhich <;> rw [hwhich]

/-- The cuts of the constraints are rows of lazy linear constraints. -/
theorem ensures_constraintCuts (hb : s.handlers.custom = #[]) (p : Fractional K)
    {fail : Error K → Search K σ → Prop} :
    Ensures (constraintCuts p) s (fun cuts t => t = s ∧
      ∀ cut ∈ cuts, cut ∈ s.handlers.linear.separate (s.registry.activeIndices 0) p) fail := by
  unfold constraintCuts
  refine .bind (.get ?_)
  refine .bind_mono (Ensures.mapM (I := fun found t => t = s ∧ ∀ cut ∈ found.flatten,
    cut ∈ s.handlers.linear.separate (s.registry.activeIndices 0) p) ?_ ⟨rfl, nofun⟩) ?_
  · rintro h - found t ⟨rfl, hfound⟩
    dsimp only
    split
    · refine .pure ⟨rfl, ?_⟩
      simpa using hfound
    · rw [separate_of_builtIn hb]
      refine Ensures.onPart (.pure ⟨rfl, ?_⟩)
      intro cut hcut
      rw [List.flatten_append, List.mem_append] at hcut
      rcases hcut with hcut | hcut
      · exact hfound cut hcut
      · rw [List.flatten_singleton] at hcut
        split at hcut
        · next hh => exact hh ▸ hcut
        · cases hcut
  · rintro found t ⟨rfl, hfound⟩
    exact .pure ⟨rfl, hfound⟩

/-- The built-in separator and the user's find cuts, and leave alone what the relaxation
holds. -/
theorem ensures_planeCuts (h : s.Synced F) {p : Fractional K} {c : Contents K} (hw : F.Holds s.world c)
    (ht : s.Tracks c []) (hfits : F.Fits s.world c s.gomory p) :
    Ensures (planeCuts sv p) s (fun cuts t => t.Synced F ∧ (∀ cut ∈ cuts, F.Offers p cut) ∧
      ∃ w, t = { s with world := w }) (Search.Fails F) := by
  have hseparators : ∀ gomory : List (Cut K), (∀ cut ∈ gomory, F.Offers p cut) → Ensures (do
      let cuts ← sv.plugins.separators.mapM fun sep => Search.onWorld (sep.separate p sv.oracle)
      pure (gomory ++ cuts.flatten)) s (fun cuts t => t.Synced F ∧ (∀ cut ∈ cuts, F.Offers p cut) ∧
        ∃ w, t = { s with world := w }) (Search.Fails F) := by
    intro gomory hgomory
    refine .bind_mono (Ensures.mapM (I := fun found u => (∀ cut ∈ found.flatten, F.Offers p cut) ∧
      ∃ w, u = { s with world := w } ∧ F.Holds w c ∧ F.Fits w c s.gomory p) ?_ ⟨nofun, s.world, rfl, hw, hfits⟩) ?_
    · rintro sep hsep found _ ⟨hfound, w, rfl, hw, hfits⟩
      refine .onPart ((F.separate hw hfits sep hsep).mono ?_ fun _ _ => .inl)
      rintro cuts w' ⟨hw', hcuts⟩
      refine ⟨fun cut hcut => ?_, w', rfl, hw'⟩
      rw [List.flatten_append, List.flatten_singleton] at hcut
      exact (List.mem_append.mp hcut).elim (hfound cut) (hcuts cut)
    · rintro cuts _ ⟨hcuts, w, rfl, hw, -⟩
      exact .pure ⟨h.world ht hw, fun cut hcut => (List.mem_append.mp hcut).elim (hgomory cut) (hcuts cut), w, rfl⟩
  unfold planeCuts
  refine .bind (.get ?_)
  dsimp only
  split
  · exact .bind (.pure (hseparators [] nofun))
  · next g hg =>
    rw [hg] at hfits
    cases hcuts : Gomory.separate g p (sv.oracle.tableauRows s.world) (sv.oracle.row? s.world) with
    | ok cuts => exact .bind (.pure (hseparators cuts (F.gomory hw hfits hcuts)))
    | error e => exact .bind (.throw (.inl h.calm))

/-- A cut is scored or refused. -/
theorem ensures_scored (hcalm : F.Calm s.world) (x : Array K) (cut : Cut K) :
    Ensures (scored sv x cut) s (fun r t => t = s ∧ ∀ e ∈ r, e.2 = cut) (Search.Fails F) := by
  unfold scored
  split
  · exact .bind (.throw (.inl hcalm))
  · refine .pure ⟨rfl, fun e he => ?_⟩
    split at he
    · cases he
      rfl
    · cases he

/-- The second state comes from the first by adding cuts that were offered, and by bringing
back cuts of the pool. Only at the root local cuts go to the pool. -/
inductive Separates (node : NodeId) (depth : Nat) (Offered : Cut K → Prop) (s : Search K σ) :
    Search K σ → Prop
  | refl : Separates node depth Offered s s
  | relax {t u : Search K σ} (h : Separates node depth Offered s t) (hr : t.Relaxes u) :
      Separates node depth Offered s u
  | revive {t : Search K σ} (h : Separates node depth Offered s t) (ids : List Nat) :
      Separates node depth Offered s { t with pool := ids.foldl (fun p id => (p.activate id).2) t.pool }
  | pool {t : Search K σ} {cut : Cut K} (h : Separates node depth Offered s t) (hcut : Offered cut)
      (hlocal : cut.isLocal = true → depth = 0) :
      Separates node depth Offered s { t with pool := (t.pool.add cut).2.2 }
  | constraint {t : Search K σ} {cut : Cut K} {registry : Registry} (h : Separates node depth Offered s t)
      (hcut : Offered cut) (hgrown : Registry.Grown t.registry
        { handler := 0, index := t.handlers.linear.conss.size, scope := .below node } registry) :
      Separates node depth Offered s (t.withLocalCut cut registry)

/-- **Adding a cut:** to the constraints of the node, or to the pool with its row. -/
theorem ensures_addCut (h : s.Synced F) {node : NodeId} (hnode : node ∈ s.registry.path.map Prod.fst)
    {depth : Nat} {Offered : Cut K → Prop} {s₀ : Search K σ} (hs : Separates node depth Offered s₀ s)
    (out : Separated) {cut : Cut K} (hcut : Offered cut)
    (hadmits : (cut.isLocal = true → depth = 0) → F.Admits cut.row) :
    Ensures (addCut sv node depth out cut) s (fun _ t => t.Synced F ∧
      t.registry.path.map Prod.fst = s.registry.path.map Prod.fst ∧ Separates node depth Offered s₀ t)
      (Search.Fails F) := by
  unfold addCut
  by_cases hlocal : (cut.isLocal && decide (0 < depth)) = true
  · rw [if_pos hlocal]
    refine .bind_mono (h.addLocalCut hnode cut) ?_
    rintro _ t ⟨ht, registry, hgrown, hr⟩
    refine .pure ⟨ht, ?_, (hs.constraint hcut hgrown).relax hr⟩
    rw [hr.part Search.registry fun _ _ _ _ => rfl]
    exact hgrown.nodes
  · rw [if_neg hlocal]
    have hroot : cut.isLocal = true → depth = 0 := fun hl => by
      rw [hl, Bool.true_and, decide_eq_true_eq] at hlocal
      omega
    have hpooled := hs.pool hcut hroot
    have hadds := h.filed.pool.add cut
    have hall := h.admits.add (hadmits hroot)
    refine .bind (.modifyGet ?_)
    generalize s.pool.add cut = added at hadds hpooled hall ⊢
    obtain ⟨id, duplicate, pool⟩ := added
    have hfiled : pool.Wf → Search.Filed { s with pool } := fun hpool =>
      ⟨h.filed.registry, h.filed.stored, h.filed.distinct, hpool, h.filed.named⟩
    dsimp only at hpooled hall ⊢
    cases duplicate with
    | true =>
      rw [if_pos rfl]
      exact .pure ⟨⟨hfiled hadds.wf, h.carries.revive hadds, hall, h.scoring⟩, rfl, hpooled⟩
    | false =>
      obtain ⟨hrevives, hshown⟩ := hadds
      rw [if_neg Bool.false_ne_true]
      refine .bind_mono ((h.carries.revive hrevives).addCutRow hrevives.wf hall hshown) ?_
      rintro _ t ⟨hr, ht⟩
      have hregistry : t.registry = s.registry := hr.part Search.registry fun _ _ _ _ => rfl
      have hbrancher : t.brancher = s.brancher := hr.part Search.brancher fun _ _ _ _ => rfl
      have hpool : t.pool = pool := hr.part Search.pool fun _ _ _ _ => rfl
      exact .pure ⟨⟨(hfiled hrevives.wf).relaxes hr, hregistry ▸ ht, hpool ▸ hall, hbrancher ▸ h.scoring⟩,
        by rw [hregistry], hpooled.relax hr⟩

/-- The rows of the cuts brought back are put in. -/
theorem ensures_addCutRows {ids : List Nat} (hs : s.Filed) (h : Search.Carries F s (s.registry.isActive · = true) ids)
    (hadmits : s.pool.All F.Admits) (hscoring : s.brancher.custom = sv.scoring) (hshown : ∀ id ∈ ids, ∃ row, s.pool.Shows id row) :
    Ensures (ids.forM (Search.addCutRow sv)) s (fun _ t => t.Synced F ∧ s.Relaxes t) (Search.Fails F) := by
  refine (Ensures.forM (I := fun rest t => s.Relaxes t ∧
    Search.Carries F t (s.registry.isActive · = true) rest ∧ ∀ id ∈ rest, ∃ row, s.pool.Shows id row) ?_
    ⟨.refl s, h, hshown⟩).mono ?_ fun _ _ hfail => hfail
  · rintro id rest t ⟨hr, ht, hrest⟩
    have hpool : t.pool = s.pool := hr.part Search.pool fun _ _ _ _ => rfl
    refine (ht.addCutRow (hpool ▸ hs.pool) (hpool ▸ hadmits) (hpool ▸ hrest id List.mem_cons_self)).mono ?_ fun _ _ hfail => hfail
    rintro _ u ⟨hr', hu⟩
    exact ⟨hr.trans hr', hu, fun x hx => hrest x (List.mem_cons_of_mem _ hx)⟩
  · rintro _ t ⟨hr, ht, -⟩
    have hregistry : t.registry = s.registry := hr.part Search.registry fun _ _ _ _ => rfl
    have hbrancher : t.brancher = s.brancher := hr.part Search.brancher fun _ _ _ _ => rfl
    have hpool : t.pool = s.pool := hr.part Search.pool fun _ _ _ _ => rfl
    exact ⟨⟨hs.relaxes hr, hregistry ▸ ht, hpool ▸ hadmits, hbrancher ▸ hscoring⟩, hr⟩

variable (sv) in
/-- The relaxation solution at which cuts are sought. -/
def fractional (f : Focus K σ) (lp : Relaxation K) : Fractional K where
  x := lp.x
  domains := f.search.domains
  depth := f.depth
  feasTol := sv.settings.feasTol

/-- What the relaxation holds fits its solution. -/
def Fits (F : Footing sv) (f : Focus K σ) : Prop :=
  ∀ lp, f.lp = some lp → ∃ c, F.Holds f.search.world c ∧ f.search.Tracks c [] ∧
    F.Fits f.search.world c f.search.gomory (f.fractional sv lp)

/-- A cut that constraints or separators offer at a relaxation solution. -/
def Offered (F : Footing sv) (f : Focus K σ) (cut : Cut K) : Prop :=
  ∃ lp, f.lp = some lp ∧
    (cut ∈ f.search.handlers.linear.separate (f.search.registry.activeIndices 0) (f.fractional sv lp) ∨
      F.Offers (f.fractional sv lp) cut)

/-- **The best cuts** that were offered are entered, after those that were taken up again. -/
theorem Focused.enterBest (h : Focused F f)
    (hadmits : ∀ cut, Offered F f cut → (cut.isLocal = true → f.depth = 0) → F.Admits cut.row) {x : Array K}
    {cuts : List (Cut K)} {reactivated : List Nat} {s : Search K σ} (hoffered : ∀ cut ∈ cuts, Offered F f cut)
    (hs : s.Filed) (hcarries : Search.Carries F s (s.registry.isActive · = true) reactivated) (hall : s.pool.All F.Admits)
    (hscoring : s.brancher.custom = sv.scoring) (hshown : ∀ id ∈ reactivated, ∃ row, s.pool.Shows id row)
    (hregistry : s.registry = f.search.registry) (hsep : Separates f.node f.depth (Offered F f) f.search s) :
    Ensures (do
      let cuts ← cuts.filterMapM (scored sv x)
      let best := (cuts.mergeSort fun a b => Scalar.totalOrder a.1 b.1 != .lt).take sv.settings.cutsPerRound
      reactivated.forM (Search.addCutRow sv)
      let out ← best.foldlM (fun out (_, cut) => addCut sv f.node f.depth out cut)
        { cuts := reactivated.length }
      Search.modifyStats fun st => { st with cutsAdded := st.cutsAdded + out.cuts }
      pure out) s (fun _ t => t.Synced F ∧
        t.registry.path.map Prod.fst = f.search.registry.path.map Prod.fst ∧
        Separates f.node f.depth (Offered F f) f.search t) (Search.Fails F) := by
  have hpath : s.registry.path.map Prod.fst = f.search.registry.path.map Prod.fst := by rw [hregistry]
  refine .bind_mono (Ensures.filterMapM (I := fun found t => t = s ∧ ∀ e ∈ found, Offered F f e.2) ?_ ⟨rfl, nofun⟩) ?_
  · rintro cut hcut found t ⟨rfl, hfound⟩
    refine (ensures_scored hcarries.calm x cut).mono ?_ fun _ _ hfail => hfail
    rintro e t ⟨rfl, he⟩
    refine ⟨rfl, fun e' he' => (List.mem_append.mp he').elim (hfound e') fun he' => ?_⟩
    rw [he e' (Option.mem_toList.mp he')]
    exact hoffered cut hcut
  rintro cuts t ⟨rfl, hcuts⟩
  refine .bind_mono (ensures_addCutRows hs hcarries hall hscoring hshown) ?_
  rintro _ u ⟨hu, hr⟩
  have huregistry : u.registry = t.registry := hr.part Search.registry fun _ _ _ _ => rfl
  refine .bind_mono (Ensures.foldlM (I := fun _ v => v.Synced F ∧
    v.registry.path.map Prod.fst = f.search.registry.path.map Prod.fst ∧
    Separates f.node f.depth (Offered F f) f.search v) ?_ ⟨hu, by rw [huregistry, hpath], hsep.relax hr⟩) ?_
  · rintro ⟨score, cut⟩ hcut out v ⟨hv, hvpath, hvsep⟩
    have hcut' : Offered F f cut := hcuts _ (List.mem_mergeSort.mp (List.mem_of_mem_take hcut))
    refine (ensures_addCut hv (hvpath ▸ h.node) hvsep out hcut' (hadmits cut hcut')).mono ?_ fun _ _ hfail => hfail
    rintro _ w ⟨hw, hwpath, hwsep⟩
    exact ⟨hw, hwpath.trans hvpath, hwsep⟩
  · rintro out v ⟨hv, hvpath, hvsep⟩
    refine .bind (.modify (.pure ⟨?_, hvpath, hvsep.relax (.of ..)⟩))
    exact hv.transfer rfl rfl rfl rfl rfl rfl rfl rfl hv.filed.named

/-- **Separation** adds cuts that were offered. -/
theorem Focused.separate (h : Focused F f) (hfits : f.Fits F)
    (hadmits : ∀ cut, Offered F f cut → (cut.isLocal = true → f.depth = 0) → F.Admits cut.row)
    (enforceOnly : Bool) :
    Ensures (separate sv enforceOnly) f (fun _ g => Focused F g ∧ ∃ t, g = { f with search := t } ∧
      Separates f.node f.depth (Offered F f) f.search t) fun e g => Search.Fails F e g.search := by
  unfold Focus.separate
  refine .bind (.get ?_)
  split
  · exact .pure ⟨h, f.search, rfl, .refl⟩
  next lp hlp =>
  refine (@ensures_onSearch _ _ _ _ F f _ _ (fun _ t => t.Synced F ∧
    t.registry.path.map Prod.fst = f.search.registry.path.map Prod.fst ∧
    Separates f.node f.depth (Offered F f) f.search t) ?_).mono ?_ fun _ _ hfail => hfail
  · refine .bind_mono (ensures_constraintCuts h.synced.carries.builtIn _) ?_
    rintro enforced s ⟨hs, henforced⟩
    subst hs
    have henforced' : ∀ cut ∈ enforced, Offered F f cut := fun cut hcut => ⟨lp, hlp, .inl (henforced cut hcut)⟩
    split
    · refine .bind (.pure (h.enterBest hadmits ?_ h.synced.filed h.synced.carries h.synced.admits h.synced.scoring
        (fun _ hid => absurd hid List.not_mem_nil) rfl .refl))
      rw [List.append_nil]
      exact henforced'
    · obtain ⟨c, hw, ht, hfits⟩ := hfits lp hlp
      refine .bind_mono (ensures_planeCuts h.synced hw ht hfits) ?_
      rintro planes t ⟨ht, hplanes, w, rfl⟩
      obtain ⟨hrevives, hshown⟩ := ht.filed.pool.separateInactive lp.x sv.settings.cutViolationTol
      refine .bind (.modifyGet (.bind (.pure
        (h.enterBest hadmits ?_ ?_ (ht.carries.revive hrevives) (ht.admits.foldl_activate _) ht.scoring hshown rfl ?_))))
      · exact fun cut hcut => (List.mem_append.mp hcut).elim (henforced' cut)
          fun hcut => ⟨lp, hlp, .inr (hplanes cut hcut)⟩
      · exact ⟨ht.filed.registry, ht.filed.stored, ht.filed.distinct, hrevives.wf, ht.filed.named⟩
      · exact (Separates.refl.relax (.of ..)).revive _
  · rintro _ _ ⟨t, rfl, ht, hpath, hsep⟩
    exact ⟨⟨ht, hpath ▸ h.node⟩, t, rfl, hsep⟩

/-! ## The rounds -/

/-- **Propagation in the rounds.** -/
theorem Focused.propagate (h : Focused F f) :
    Ensures ((driver sv).propagate) f (fun _ g => Focused F g ∧
      g = { f with search := { f.search with domains := g.search.domains, stats := g.search.stats } })
      fun e g => Search.Fails F e g.search := by
  refine (ensures_onSearch h.synced.propagate).mono ?_ fun _ _ hfail => hfail
  rintro _ _ ⟨t, rfl, ht, hframe⟩
  refine ⟨⟨ht, ?_⟩, ?_⟩
  · rw [hframe]
    exact h.node
  · exact congrArg (fun search => { f with search }) hframe

/-- **The rounds** keep the relaxation in line where the cuts found may be rows. -/
theorem contract_focused (hfits : ∀ w c g p, F.Fits w c g p) (hadmits : ∀ row, F.Admits row) :
    (driver sv).Contract (Focused F) (Focused F) (fun _ => Focused F) fun e f => Search.Fails F e f.search where
  ready h := h.fails _
  solved h := h.fails _
  solve h := by
    refine h.solve.mono ?_ fun _ _ hfail => hfail
    rintro status g ⟨hg, -⟩
    split <;> exact hg
  price h := by
    refine h.price.mono ?_ fun _ _ hfail => hfail
    rintro added g hg
    split
    · exact hg
    · exact ⟨hg, hg⟩
  exceeded h _ := h
  feasible h := by
    refine h.isFeasible.mono ?_ fun _ _ hfail => hfail
    rintro is g hg
    split <;> exact hg
  separate h enforceOnly := by
    obtain ⟨c, hw, ht⟩ := h.synced.carries.tracks
    refine (h.separate (fun _ _ => ⟨c, hw, ht, hfits ..⟩) (fun cut _ _ => hadmits cut.row) enforceOnly).mono ?_
      fun _ _ hfail => hfail
    rintro sep g ⟨hg, -⟩
    split <;> exact hg
  propagate h := by
    refine h.propagate.mono ?_ fun _ _ hfail => hfail
    rintro alive g ⟨hg, -⟩
    split <;> exact hg

end Focus

end BranchAndCut
