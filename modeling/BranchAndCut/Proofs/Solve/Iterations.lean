import BranchAndCut.Proofs.Program
import BranchAndCut.Solve.Run

/-! # The iterations of a run

The states in which a run looks for the next node, and how it ends: after the iteration
that gave a status, or before the first one if a domain is empty. -/

namespace BranchAndCut

/-- The built-in families propagate in the order of their numbers. -/
theorem Handlers.sorted_builtIn {K σ : Type} {hs : Handlers K σ} (hb : hs.custom = #[]) :
    ((List.range hs.count).mergeSort fun a b => decide (hs.priority b ≤ hs.priority a)) = [0, 1] := by
  have hcount : hs.count = 2 := by simp [Handlers.count, hb]
  have hlinear : hs.priority 0 = 100 := by simp [Handlers.priority, Handlers.which]
  have hsos1 : hs.priority 1 = 50 := by simp [Handlers.priority, Handlers.which]
  rw [hcount]
  show [0, 1].mergeSort _ = _
  simp [List.mergeSort, List.MergeSort.Internal.splitInTwo, hlinear, hsos1]

/-- The tolerances of settings that are accepted. -/
theorem Settings.validate_spec {K : Type} [Scalar K] {settings : Settings K} (h : settings.validate = .ok ⟨⟩) :
    0 ≤ settings.gapTol ∧ 0 ≤ settings.gapAbsTol ∧ 0 < settings.feasTol ∧ 0 < settings.intFeasTol ∧
      ¬ 0.5 ≤ settings.intFeasTol := by
  unfold validate at h
  by_cases hgap : (!decide ((0 : K) ≤ settings.gapTol) || !decide ((0 : K) ≤ settings.gapAbsTol)) = true
  · rw [if_pos hgap] at h
    cases h
  rw [if_neg hgap] at h
  by_cases htol : (!decide ((0 : K) < settings.feasTol) || !decide ((0 : K) < settings.intFeasTol) ||
      decide (0.5 ≤ settings.intFeasTol)) = true
  · rw [if_pos htol] at h
    cases h
  rw [Bool.or_eq_true, not_or] at hgap
  rw [Bool.or_eq_true, Bool.or_eq_true, not_or, not_or] at htol
  simpa [and_assoc] using And.intro hgap htol

/-- A solve that returns a result has run to its end. -/
theorem Solver.solve_returns {K σ : Type} [Scalar K] (sv : Solver K σ) {m : Model K σ} {w : σ} {out : Outcome K}
    (hout : (sv.solve m w).1 = .ok out) : ∃ s, Returns (Search.run sv) (.ofModel sv m w) out s := by
  unfold Solver.solve at hout
  unfold Returns
  split at hout
  · cases hout
  · split at hout
    · next s heq =>
      cases hout
      exact ⟨s, heq⟩
    · cases hout

namespace Search

variable {K σ : Type} [Scalar K] {sv : Solver K σ} {s₀ s t : Search K σ}

/-! ## The start -/

/-- Locking constraints changes the locks and who watches the variables. -/
theorem foldl_lockCons {α : Type} (f : Search K σ → α)
    (hf : ∀ (s : Search K σ) locks propagator, f { s with locks, propagator } = f s) (ids : List ConsId)
    (s : Search K σ) : f (ids.foldl (fun s id => s.lockCons (s.registry.handler id) (s.locksOf id)) s) = f s := by
  induction ids generalizing s with
  | nil => rfl
  | cons id ids ih => exact (ih _).trans (hf s _ _)

/-- The tree is empty at the start, and there is no incumbent. -/
theorem ofModel_start (sv : Solver K σ) (m : Model K σ) (w : σ) :
    (ofModel sv m w).tree = SearchTree.new sv.settings.nodeSelection ∧
      ∃ objLimit, (ofModel sv m w).incumbent = Incumbent.new objLimit sv.settings.feasTol := by
  unfold ofModel
  exact ⟨foldl_lockCons Search.tree (fun _ _ _ => rfl) _ _, _,
    foldl_lockCons Search.incumbent (fun _ _ _ => rfl) _ _⟩

/-! ## Iterations -/

/-- A run from `s₀` comes to state `s` at the start of an iteration. -/
inductive Visits (sv : Solver K σ) (s₀ : Search K σ) : Search K σ → Prop
  | root {s t : Search K σ} {id : NodeId} (hsetUp : Returns (setUp sv) s₀ ⟨⟩ s)
      (hdomains : s.domains.hasEmptyDomain = false)
      (hroot : Returns (onTree (SearchTree.createRoot Scalar.negInf)) s id t) : Visits sv s₀ t
  | next {s t : Search K σ} (hs : Visits sv s₀ s) (hstep : Returns (step sv) s none t) : Visits sv s₀ t

/-- What holds before the first iteration and is kept by each holds at every start of one. -/
theorem Visits.invariant {I : Search K σ → Prop} (h : Visits sv s₀ s)
    (hroot : ∀ s t id, Returns (setUp sv) s₀ ⟨⟩ s → s.domains.hasEmptyDomain = false →
      Returns (onTree (SearchTree.createRoot Scalar.negInf)) s id t → I t)
    (hnext : ∀ s t, I s → Returns (step sv) s none t → I t) : I s := by
  induction h with
  | root hsetUp hdomains hcreate => exact hroot _ _ _ hsetUp hdomains hcreate
  | next _ hstep ih => exact hnext _ _ ih hstep

theorem loop_ends {fuel : Nat} {status : Status} (hs : Visits sv s₀ s)
    (h : Returns (loop sv fuel) s status t) :
    ∃ u, Visits sv s₀ u ∧ Returns (step sv) u (some status) t := by
  induction fuel generalizing s with
  | zero => exact h.throw.elim
  | succ fuel ih =>
    obtain ⟨answer, u, hstep, hrest⟩ := h.bind
    cases answer with
    | none => exact ih (hs.next hstep) hrest
    | some status' =>
      obtain ⟨rfl, rfl⟩ := hrest.pure
      exact ⟨s, hs, hstep⟩

/-- **How a run ends.** -/
theorem run_ends {out : Outcome K} (h : Returns (run sv) s₀ out t) :
    (Returns (setUp sv) s₀ ⟨⟩ t ∧ t.domains.hasEmptyDomain = true ∧ out = t.finish .infeasible) ∨
      ∃ s status, Visits sv s₀ s ∧ Returns (step sv) s (some status) t ∧ out = t.finish status := by
  obtain ⟨⟨⟩, u, hsetUp, h⟩ := h.bind
  obtain ⟨u', v, hget, h⟩ := h.bind
  obtain ⟨rfl, rfl⟩ := hget.get
  cases hdomains : u.domains.hasEmptyDomain with
  | true =>
    rw [hdomains] at h
    obtain ⟨w, v, hget, h⟩ := Returns.bind h
    obtain ⟨rfl, rfl⟩ := hget.get
    obtain ⟨rfl, rfl⟩ := h.pure
    exact .inl ⟨hsetUp, hdomains, rfl⟩
  | false =>
    rw [hdomains] at h
    obtain ⟨id, w, hroot, h⟩ := Returns.bind h
    obtain ⟨status, x, hloop, h⟩ := h.bind
    obtain ⟨w', x', hget, h⟩ := h.bind
    obtain ⟨rfl, rfl⟩ := hget.get
    obtain ⟨rfl, rfl⟩ := h.pure
    obtain ⟨y, hy, hstep⟩ := loop_ends (.root hsetUp hdomains hroot) hloop
    exact .inr ⟨y, status, hy, hstep, rfl⟩

/-- **What one iteration does**: it ends the run at a limit or for want of a node, or it
processes the next node, frees what left the tree and takes up the dual bound. -/
theorem step_cases {answer : Option Status} (h : Returns (step sv) s answer t) :
    (∃ status, s.limit? sv = some status ∧ answer = some status ∧ t = s) ∨
      (s.limit? sv = none ∧ ∃ u, Returns (onTree (SearchTree.popNext s.incumbent.isPrunable)) s none u ∧
        answer = some u.exhausted ∧ t = u) ∨
      (s.limit? sv = none ∧ ∃ id u, Returns (onTree (SearchTree.popNext s.incumbent.isPrunable)) s (some id) u ∧
        ∃ result v w, Returns (processNode sv id)
          { u with stats := { u.stats with nodesProcessed := u.stats.nodesProcessed + 1 } } result v ∧
        Returns (releaseNodes sv) v ⟨⟩ w ∧
        (result = .unbounded ∧ answer = some .unbounded ∧ t = w ∨
          result = .continue ∧ answer = none ∧ Returns updateDual w ⟨⟩ t)) := by
  obtain ⟨s', u, hget, h⟩ := h.bind
  obtain ⟨rfl, rfl⟩ := hget.get
  cases hlimit : s.limit? sv with
  | some status =>
    rw [hlimit] at h
    obtain ⟨rfl, rfl⟩ := h.pure
    exact .inl ⟨status, rfl, rfl, rfl⟩
  | none =>
    rw [hlimit] at h
    obtain ⟨s', u, hget, h⟩ := Returns.bind h
    obtain ⟨rfl, rfl⟩ := hget.get
    obtain ⟨next, u, hpop, h⟩ := h.bind
    cases next with
    | none =>
      obtain ⟨u', v, hget, h⟩ := Returns.bind h
      obtain ⟨rfl, rfl⟩ := hget.get
      obtain ⟨rfl, rfl⟩ := h.pure
      exact .inr (.inl ⟨rfl, _, hpop, rfl, rfl⟩)
    | some id =>
      obtain ⟨⟨⟩, v, hstats, h⟩ := Returns.bind h
      obtain rfl := Returns.modify hstats
      obtain ⟨result, v, hprocess, h⟩ := h.bind
      obtain ⟨⟨⟩, w, hrelease, h⟩ := h.bind
      refine .inr (.inr ⟨rfl, id, u, hpop, result, v, w, hprocess, hrelease, ?_⟩)
      cases result with
      | unbounded =>
        obtain ⟨rfl, rfl⟩ := Returns.pure h
        exact .inl ⟨rfl, rfl, rfl⟩
      | «continue» =>
        obtain ⟨⟨⟩, x, hdual, h⟩ := Returns.bind h
        obtain ⟨rfl, rfl⟩ := h.pure
        exact .inr ⟨rfl, rfl, hdual⟩

end Search

end BranchAndCut
