import BranchAndCut.Proofs.Branching.Partition
import BranchAndCut.Proofs.Solve.Evolution
import BranchAndCut.Proofs.Solve.Footing

/-! # How a split comes about

A node is split at a fractional value, as a family of constraints proposes, or by halving
the domain of an integer variable. Only a custom family proposes more than two children. -/

namespace BranchAndCut

variable {K σ : Type} [Scalar K]

namespace Brancher

/-- Splits at fractional values. -/
theorem select_dichotomy (b : Brancher K σ) (nodeBound : K) (vars : List VarId) (x : Array K) (d : Domains K)
    (n : Nat) (m : σ) : Ensures (b.select nodeBound vars x d n) m
      (fun choice _ => ∀ chosen ∈ choice, ∃ c ∈ b.candidates vars x, chosen = b.dichotomy nodeBound c d)
      fun _ _ => True := by
  unfold select
  dsimp only
  split
  · exact .pure nofun
  · refine .bind_mono ((b.scores_spec _ n m).mono (fun _ _ => id) fun _ _ _ => trivial) fun scores _ _ => .pure ?_
    intro chosen hchosen
    obtain ⟨c, hc, rfl⟩ := Option.map_eq_some_iff.mp hchosen
    obtain ⟨score, hmem⟩ := best?_mem hc
    exact ⟨c, (List.of_mem_zip hmem).1, rfl⟩

/-- The best of some splits is the first one or has two children at least. -/
theorem mem_of_best {options : List (ConsBranching K)} {best : Option (ConsBranching K)} {o : ConsBranching K}
    (h : options.foldl (fun best o =>
      if o.children.length < 2 then best
      else
        match best with
        | none => some o
        | some b => if b.score < o.score then some o else best) best = some o) :
    best = some o ∨ o ∈ options ∧ 2 ≤ o.children.length := by
  induction options generalizing best with
  | nil => exact .inl h
  | cons first rest ih =>
    rw [List.foldl_cons] at h
    rcases ih h with hbest | ⟨hmem, hmany⟩
    · split at hbest
      · exact .inl hbest
      · next hmany =>
        have hnew : some first = some o → o ∈ first :: rest ∧ 2 ≤ o.children.length := fun heq =>
          Option.some.inj heq ▸ ⟨List.mem_cons_self, Nat.le_of_not_lt hmany⟩
        split at hbest
        · exact .inr (hnew hbest)
        · split at hbest
          · exact .inr (hnew hbest)
          · exact .inl hbest
    · exact .inr ⟨List.mem_cons_of_mem _ hmem, hmany⟩

/-- A split that families offer is one of theirs, with two children at least. -/
theorem ofOptions?_spec {nodeBound : K} {options : List (ConsBranching K)} {d : BranchingDecision K}
    (h : ofOptions? nodeBound options = some d) : ∃ o ∈ options, 2 ≤ o.children.length ∧
      d = { children := o.children.map fun changes => { changes, estimate := nodeBound } } := by
  unfold ofOptions? at h
  obtain ⟨o, ho, rfl⟩ := Option.map_eq_some_iff.mp h
  obtain ⟨hmem, hmany⟩ := (mem_of_best ho).resolve_left (Option.some_ne_none o).symm
  exact ⟨o, hmem, hmany, rfl⟩

theorem halve_children {b : Brancher K σ} {nodeBound : K} {vars : List VarId} {x : Option (Array K)} {d : Domains K}
    {chosen : BranchingDecision K} (h : b.halve nodeBound vars x d = .ok (some chosen)) :
    chosen.children.length = 2 := by
  unfold halve at h
  dsimp only at h
  split at h
  · cases h
  · split at h
    · cases h
      rfl
    · cases h

end Brancher

namespace Search

variable {s : Search K σ} {bound : K} {x : Array K} {d : BranchingDecision K}

/-- The ways in which a node is split at a relaxation solution. -/
inductive Decides (s : Search K σ) (bound : K) (x : Array K) : BranchingDecision K → Prop
  | value {c : Candidate K} (hc : c ∈ s.brancher.candidates s.problem.branchable x) :
    Decides s bound x (s.brancher.dichotomy bound c s.domains)
  | family {w : σ} {h : HandlerId} {o : ConsBranching K}
    (ho : o ∈ s.handlers.branchings w h (s.registry.activeIndices h) x s.domains) (hmany : 2 ≤ o.children.length) :
    Decides s bound x { children := o.children.map fun changes => { changes, estimate := bound } }
  | halves {d : BranchingDecision K}
    (hd : s.brancher.halve bound s.problem.branchable (some x) s.domains = .ok (some d)) : Decides s bound x d

/-- **How a split comes about.** -/
theorem ensures_decide? (s : Search K σ) (bound : K) (x : Array K) : Ensures (decide? bound x) s
    (fun choice t => s.Clerical t ∧ ∀ d ∈ choice, s.Decides bound x d) fun _ _ => True := by
  unfold decide?
  refine .bind (.get (.bind (.onPart ((s.brancher.select_dichotomy bound s.problem.branchable x s.domains
    s.stats.nodesProcessed s.world).mono (fun selected w hselected => ?_) fun _ _ _ => trivial))))
  have hworld : s.Clerical { s with world := w } := rfl
  cases selected with
  | some d =>
    obtain ⟨c, hc, rfl⟩ := hselected d rfl
    exact .pure ⟨hworld, fun d hd => Option.some.inj hd ▸ .value hc⟩
  | none =>
    refine .bind (.get ?_)
    dsimp only
    split
    · next d hoptions =>
      refine .pure ⟨hworld, fun d' hd' => ?_⟩
      obtain ⟨o, ho, hmany, rfl⟩ := Brancher.ofOptions?_spec hoptions
      obtain ⟨h, -, ho⟩ := List.mem_flatMap.mp ho
      split at ho
      · cases ho
      · exact Option.some.inj hd' ▸ .family ho hmany
    · cases hhalves : s.brancher.halve bound s.problem.branchable (some x) s.domains with
      | error e => exact .throw trivial
      | ok choice => exact .pure ⟨hworld, fun d hd => .halves (hhalves.trans (congrArg Except.ok hd))⟩

/-- Without custom families every split has two parts. -/
theorem Decides.two (h : s.Decides bound x d) (hbuiltIn : s.handlers.custom = #[]) : d.children.length = 2 := by
  cases h with
  | value => rfl
  | halves hd => exact Brancher.halve_children hd
  | @family w h o ho hmany =>
    unfold Handlers.branchings at ho
    split at ho
    · obtain ⟨c, -, hsplit⟩ := List.mem_filterMap.mp ho
      unfold Sos1Family.split? at hsplit
      dsimp only at hsplit
      split at hsplit
      · cases hsplit
      · cases hsplit
        rfl
    · next handler hwhich =>
      have hwhich' := Handlers.which_of_builtIn s.handlers hbuiltIn h
      simp [hwhich] at hwhich'
    · cases ho

end Search

/-! ## No point is split away

The children of a split need not be disjoint, nor need the domains be whole or the members
of sets nonnegative, for this to hold: a point at which the split variable is integral, or
which satisfies the set that is split, meets the changes of a child. -/

section Covering

variable [Rooted ℚ] {d : Domains (Exact ℚ)} {v : VarId} {p : Point}

/-- At an integral value one of the two sides holds, wherever the split is. -/
theorem meets_upper_or_lower (hp : p.IsInt v) {s : Exact ℚ} (hs : s ≠ .nan) (old old' : Exact ℚ) :
    Meets [.upper v old (Scalar.floor s)] p ∨ Meets [.lower v old' (Scalar.floor s + 1)] p := by
  unfold Meets
  simp only [List.forall_mem_singleton]
  cases s with
  | nan => exact absurd rfl hs
  | posInf => exact .inl trivial
  | negInf => exact .inr trivial
  | fin a =>
    obtain ⟨z, hz⟩ := hp
    have hnext : Scalar.floor (Exact.fin a) + 1 = .fin ((⌊a⌋ + 1 : ℤ) : ℚ) := by
      rw [Exact.floor_fin, Exact.one_def, Exact.fin_add]
      push_cast
      rfl
    rw [hnext, Exact.floor_fin, BoundChange.admits_upper, BoundChange.admits_lower, hz]
    exact_mod_cast (le_or_gt z ⌊a⌋)

namespace Brancher

theorem clamp_ne_nan {x lo hi : Exact ℚ} (hx : x ≠ .nan) : clamp x lo hi ≠ .nan := by
  unfold clamp
  split
  · next h => exact (Exact.ne_nan_of_lt h).2
  · split
    · next h => exact (Exact.ne_nan_of_lt h).1
    · exact hx

/-- **Halving a domain** keeps every point that is integral where variables are split. -/
theorem halve_covers {b : Brancher (Exact ℚ) σ} {bound : Exact ℚ} {vars : List VarId} {x : Option Point}
    {chosen : BranchingDecision (Exact ℚ)} (hvars : ∀ v ∈ vars, p.IsInt v)
    (h : b.halve bound vars (x.map Point.vector) d = .ok (some chosen)) :
    ∃ spec ∈ chosen.children, Meets spec.changes p := by
  unfold halve at h
  dsimp only at h
  split at h
  · cases h
  next v hfind =>
  split at h
  · cases h
    have hv : v ∈ vars := List.mem_mergeSort.mp (List.mem_of_find?_eq_some hfind)
    obtain ⟨q, hq⟩ := splitGuess_eq v x (d.lb v) (d.ub v)
    have hguess : splitGuess v (x.map Point.vector) (d.lb v) (d.ub v) ≠ .nan := hq ▸ Exact.fin_ne_nan q
    rcases meets_upper_or_lower (hvars v hv) (clamp_ne_nan hguess) (d.ub v) (d.lb v) with hleft | hright
    · exact ⟨_, List.mem_cons_self, hleft⟩
    · exact ⟨_, List.mem_cons_of_mem _ List.mem_cons_self, hright⟩
  · cases h

/-- **Rounding a value** down and up keeps every point that is integral there. -/
theorem dichotomy_covers {b : Brancher (Exact ℚ) σ} {bound : Exact ℚ} {c : Candidate (Exact ℚ)} {q : ℚ}
    (hvalue : c.value = .fin q) (hp : p.IsInt c.var) :
    ∃ spec ∈ (b.dichotomy bound c d).children, Meets spec.changes p := by
  obtain ⟨z, hz⟩ := hp
  have hside : z ≤ ⌊q⌋ ∨ ⌈q⌉ ≤ z := by
    rcases le_or_gt (z : ℚ) q with hle | hlt
    · exact .inl (Int.le_floor.mpr hle)
    · exact .inr (Int.ceil_le.mpr hlt.le)
  rcases hside with hdown | hup
  · refine ⟨_, List.mem_cons_self, List.forall_mem_singleton.mpr ?_⟩
    rw [BoundChange.down, hvalue, Exact.floor_fin, BoundChange.admits_upper, hz]
    exact_mod_cast hdown
  · refine ⟨_, List.mem_cons_of_mem _ List.mem_cons_self, List.forall_mem_singleton.mpr ?_⟩
    rw [BoundChange.up, hvalue, Exact.ceil_fin, BoundChange.admits_lower, hz]
    exact_mod_cast hup

end Brancher

/-- **Splitting a set** keeps every point that satisfies the set. -/
theorem Sos1Family.split?_covers {x : Array (Exact ℚ)} {vars : List VarId} {o : ConsBranching (Exact ℚ)}
    (ho : split? d x vars = some o) (hp : Sos1Constraint.Holds vars p) : ∃ changes ∈ o.children, Meets changes p := by
  unfold split? at ho
  dsimp only at ho
  split at ho
  · cases ho
  generalize (Option.map Prod.snd _).getD 0 = middle at ho
  cases ho
  rw [← List.take_append_drop middle vars] at hp
  rcases zero_of_holds hp with hleft | hright
  · exact ⟨_, List.mem_cons_self, meets_zeroAll hleft⟩
  · exact ⟨_, List.mem_cons_of_mem _ List.mem_cons_self, meets_zeroAll hright⟩

/-- **However a node is split** at a relaxation solution, no point is lost that is integral
at the variables to be split and satisfies the active sets. -/
theorem Search.Decides.covers {s : Search (Exact ℚ) σ} {bound : Exact ℚ} {y : Point}
    {decision : BranchingDecision (Exact ℚ)} (h : s.Decides bound y.vector decision) (hb : s.handlers.custom = #[])
    (hint : ∀ v ∈ s.problem.branchable, p.IsInt v)
    (hsets : ∀ c ∈ s.registry.activeIndices 1, Sos1Constraint.Holds (s.handlers.sos1.members c) p) :
    ∃ spec ∈ decision.children, Meets spec.changes p := by
  cases h with
  | value hc =>
    obtain ⟨v, hv, hcandidate⟩ := Brancher.mem_candidates.mp hc
    obtain rfl := Brancher.candidate?_var hcandidate
    exact Brancher.dichotomy_covers (Brancher.candidate?_eq_some hcandidate).1 (hint _ hv)
  | @family w h o ho hmany =>
    have hone : h = 1 ∧ o ∈ s.handlers.sos1.branchings (s.registry.activeIndices 1) y.vector s.domains := by
      match h with
      | 0 => cases ho
      | 1 => exact ⟨rfl, ho⟩
      | h + 2 =>
        rcases s.handlers.which_of_builtIn hb (h + 2) with ⟨hzero, -⟩ | ⟨-, hwhich⟩
        · cases hzero
        · unfold Handlers.branchings at ho
          rcases hwhich with hwhich | hwhich
          · simp [Handlers.which, hb] at hwhich
          · rw [hwhich] at ho
            cases ho
    obtain ⟨c, hc, hsplit⟩ := List.mem_filterMap.mp hone.2
    obtain ⟨changes, hmem, hmeets⟩ := Sos1Family.split?_covers hsplit (hsets c hc)
    exact ⟨_, List.mem_map_of_mem hmem, hmeets⟩
  | halves hd => exact Brancher.halve_covers (x := some y) hint hd

end Covering

end BranchAndCut
