import BranchAndCut.Constraint.Fixpoint
import BranchAndCut.Proofs.Constraint.Linear
import BranchAndCut.Proofs.Constraint.Sos1
import BranchAndCut.Proofs.Domain.Nesting
import BranchAndCut.Proofs.Program

/-! # Propagation to a fixpoint

Families run in any order and any number of times. Each run follows from the
constraints, so the whole call does: its changes are requests that every point
of the domain satisfies which satisfies the active constraints. -/

namespace BranchAndCut

/-! ## The world -/

namespace Propagator

variable {K σ : Type} [Scalar K] {hs : Handlers K σ} {d : Domains K} {w : σ}

/-- The built-in families do not touch the world. -/
theorem propagate_world (hb : hs.custom = #[]) (h : HandlerId) (conss : List Nat) (g : ImplicationGraph K)
    (reason : Reason) (d : Deduction K) :
    Ensures (hs.propagate h conss g reason) (d, w) (fun _ s => s.2 = w) fun _ s => s.2 = w := by
  unfold Handlers.propagate
  cases hw : hs.which h with
  | linear => exact .modifyGet rfl
  | sos1 => exact .modifyGet rfl
  | custom handler => rcases h with _ | _ | h <;> simp [Handlers.which, hb] at hw
  | unknown => exact .pure rfl

theorem runFamily_world (hb : hs.custom = #[]) (g : ImplicationGraph K) (h : HandlerId) (conss : List Nat) :
    Ensures (runFamily hs g h conss) (d, w) (fun _ s => s.2 = w) fun _ s => s.2 = w := by
  have hworld := propagate_world (w := w) hb h conss g (.propagation h) { domains := d }
  unfold Ensures at hworld
  unfold Ensures runFamily
  dsimp only
  cases heq : hs.propagate h conss g (.propagation h) ({ domains := d }, w) with
  | ok verdict after =>
    rw [heq] at hworld
    dsimp only
    by_cases hexhausted : after.1.exhausted = true
    · rw [if_pos hexhausted]
      exact hworld
    · rw [if_neg hexhausted]
      exact hworld
  | error e after =>
    rw [heq] at hworld
    exact hworld

theorem pass_world (hb : hs.custom = #[]) (p : Propagator) (r : Registry) (g : ImplicationGraph K)
    (order : List HandlerId) (dirty : Array Bool) (out : Propagated) :
    Ensures (p.pass hs r g dirty out order) (d, w) (fun _ s => s.2 = w) fun _ s => s.2 = w := by
  induction order generalizing d dirty out with
  | nil => exact .pure rfl
  | cons h rest ih =>
    unfold pass
    split
    · exact ih ..
    · dsimp only
      split
      · exact ih ..
      · refine .bind_mono (runFamily_world hb g h _) ?_
        rintro ⟨cutoff, reductions⟩ ⟨e, _⟩ rfl
        dsimp only
        split
        · exact .bind (.modify (.pure rfl))
        · exact .bind (.modifyGet (ih ..))

theorem passes_world (hb : hs.custom = #[]) (p : Propagator) (r : Registry) (g : ImplicationGraph K)
    (dirty : Array Bool) (out : Propagated) (fuel : Nat) :
    Ensures (p.passes hs r g dirty out fuel) (d, w) (fun _ s => s.2 = w) fun _ s => s.2 = w := by
  induction fuel generalizing d dirty out with
  | zero => exact .throw rfl
  | succ fuel ih =>
    unfold passes
    split
    · exact .pure rfl
    · refine .bind_mono (pass_world hb p r g ..) ?_
      rintro ⟨dirty', out'⟩ ⟨e, _⟩ rfl
      dsimp only
      split
      · exact .pure rfl
      · exact ih ..

/-- **Propagation does not touch the world,** whether it ends or fails. -/
theorem run_world (hb : hs.custom = #[]) (p : Propagator) (r : Registry) (g : ImplicationGraph K) (fuel : Nat) :
    Ensures (p.run hs r g fuel) (d, w) (fun _ s => s.2 = w) fun _ s => s.2 = w := by
  unfold run
  refine .bind (.modifyGet ?_)
  dsimp only
  split
  · exact .bind (.throw rfl)
  · refine .bind (.modify ?_)
    split
    · exact passes_world hb p r g ..
    · exact .pure rfl

end Propagator

/-! ## The candidates -/

section Exact

variable [Rooted ℚ] {σ : Type} {g : ImplicationGraph (Exact ℚ)} {P : Set Point}

namespace Handlers

/-- A point satisfies a constraint of a family. -/
def Holds (hs : Handlers (Exact ℚ) σ) (h : HandlerId) (c : Nat) (p : Point) : Prop :=
  match hs.which h with
  | .linear => hs.linear.Holds c p
  | .sos1 => Sos1Constraint.Holds (hs.sos1.members c) p
  | _ => True

/-- Only linear constraints and special ordered sets, with proper rows. -/
structure BuiltIn (hs : Handlers (Exact ℚ) σ) : Prop where
  custom : hs.custom = #[]
  proper : hs.linear.Proper

/-- A point satisfies every active constraint. -/
def Satisfies (hs : Handlers (Exact ℚ) σ) (r : Registry) (p : Point) : Prop :=
  ∀ h, ∀ c ∈ r.activeIndices h, hs.Holds h c p

end Handlers

namespace Propagator

variable {hs : Handlers (Exact ℚ) σ} {r : Registry} {p : Propagator} {d : Domains (Exact ℚ)} {w : σ}

/-- A family does not touch the world and loses no candidate. -/
theorem propagate_eq (hb : hs.BuiltIn) (hP : Deduction.Candidates g P d) {h : HandlerId}
    {conss : List Nat} (hholds : ∀ c ∈ conss, ∀ p ∈ P, hs.Holds h c p) (reason : Reason) :
    ∃ verdict after, hs.propagate h conss g reason ({ domains := d }, w) =
        .ok verdict (after, w) ∧
      Deduction.Follows P { domains := d } after ∧ (verdict = .cutoff → P = ∅) := by
  unfold Handlers.propagate
  unfold Handlers.Holds at hholds
  cases hw : hs.which h with
  | linear =>
    rw [hw] at hholds
    obtain ⟨hfollows, hempty⟩ := LinearFamily.propagate_follows (d := { domains := d }) hb.proper hP
      reason hholds
    exact ⟨_, _, rfl, hfollows, hempty⟩
  | sos1 =>
    rw [hw] at hholds
    obtain ⟨hfollows, hempty⟩ := Sos1Family.propagate_follows (d := { domains := d }) hP reason
      hholds
    exact ⟨_, _, rfl, hfollows, hempty⟩
  | custom handler =>
    rcases h with _ | _ | h <;> simp [Handlers.which, hb.custom] at hw
  | unknown => exact ⟨_, _, rfl, .refl _, nofun⟩

/-- What a step of propagation from a store `d` does: requests that all candidates
satisfy, and a cutoff only where there are none. -/
def Keeps (P : Set Point) (d : Domains (Exact ℚ)) (w : σ) {α : Type} (cutoff : α → Bool)
    (m : PropagateM (Exact ℚ) σ α) : Prop :=
  Ensures m (d, w) (fun a s => d.Tightens P s.1 ∧ s.2 = w ∧ (cutoff a = true → P = ∅))
    (fun e s => e = .outOfSteps ∧ d.Tightens P s.1 ∧ s.2 = w)

/-- Continues after a step. -/
theorem Keeps.from {e : Domains (Exact ℚ)} {α : Type} {cutoff : α → Bool}
    {m : PropagateM (Exact ℚ) σ α} (hstep : d.Tightens P e) (h : Keeps P e w cutoff m) :
    Ensures m (e, w) (fun a s => d.Tightens P s.1 ∧ s.2 = w ∧ (cutoff a = true → P = ∅))
      (fun e s => e = .outOfSteps ∧ d.Tightens P s.1 ∧ s.2 = w) :=
  Ensures.mono h (fun _ _ ⟨ht, hrest⟩ => ⟨hstep.trans ht, hrest⟩)
    fun _ _ ⟨he, ht, hw⟩ => ⟨he, hstep.trans ht, hw⟩

theorem runFamily_keeps (hb : hs.BuiltIn) (hP : Deduction.Candidates g P d) {h : HandlerId}
    {conss : List Nat} (hholds : ∀ c ∈ conss, ∀ p ∈ P, hs.Holds h c p) :
    Keeps P d w (fun a => a.1) (runFamily hs g h conss) := by
  obtain ⟨verdict, after, heq, hfollows, hempty⟩ :=
    propagate_eq (w := w) hb hP hholds (.propagation h)
  unfold Keeps Ensures runFamily
  dsimp only
  rw [heq]
  by_cases hexhausted : after.exhausted = true
  · simp only [hexhausted, if_true]
    exact ⟨trivial, hfollows.domains, trivial⟩
  · simp only [hexhausted]
    refine ⟨hfollows.domains, rfl, fun hcut => ?_⟩
    rcases Bool.or_eq_true_iff.mp hcut with hverdict | hinfeasible
    · exact hempty (by simpa using hverdict)
    · exact (hfollows.infeasible hinfeasible).resolve_left nofun

theorem pass_keeps (hb : hs.BuiltIn) (hP : Deduction.Candidates g P d)
    (hholds : ∀ p ∈ P, hs.Satisfies r p) (order : List HandlerId) (dirty : Array Bool)
    {out : Propagated} (hout : out.cutoff = false) :
    Keeps P d w (fun a => a.2.cutoff) (p.pass hs r g dirty out order) := by
  induction order generalizing d dirty out with
  | nil => exact .pure ⟨.refl, rfl, by simp [hout]⟩
  | cons h rest ih =>
    unfold pass
    split
    · exact ih hP dirty hout
    · dsimp only
      split
      · exact ih hP _ hout
      · refine Ensures.bind_mono (runFamily_keeps hb hP fun c hc p hp => hholds p hp h c hc) ?_
        rintro ⟨cutoff, reductions⟩ ⟨e, w'⟩ ⟨htightens, rfl, hcut⟩
        dsimp only
        split
        · exact .bind (.modify (.pure ⟨htightens.agree rfl, rfl, hcut⟩))
        · next hcutoff =>
          have hdrained : d.Tightens P e.drainPending.2 := htightens.agree rfl
          exact .bind (.modifyGet ((ih (hP.tightens hdrained) _ (by simpa using hcutoff)).from hdrained))

theorem passes_keeps (hb : hs.BuiltIn) (hP : Deduction.Candidates g P d)
    (hholds : ∀ p ∈ P, hs.Satisfies r p) (dirty : Array Bool) {out : Propagated}
    (hout : out.cutoff = false) (fuel : Nat) :
    Keeps P d w Propagated.cutoff (p.passes hs r g dirty out fuel) := by
  induction fuel generalizing d dirty out with
  | zero => exact .throw ⟨rfl, .refl, rfl⟩
  | succ fuel ih =>
    unfold passes
    split
    · exact .pure ⟨.refl, rfl, by simp [hout]⟩
    · refine Ensures.bind_mono (pass_keeps hb hP hholds p.order dirty hout) ?_
      rintro ⟨dirty', out'⟩ ⟨e, w'⟩ ⟨htightens, rfl, hcut⟩
      dsimp only at htightens hcut ⊢
      split
      · exact .pure ⟨htightens, rfl, hcut⟩
      · next hgo =>
        simp only [Bool.or_eq_true, not_or, Bool.not_eq_true] at hgo
        exact (ih (hP.tightens htightens) dirty' hgo.1).from htightens

theorem closeAll_follows {d : Deduction (Exact ℚ)} (hP : Deduction.Candidates g P d.domains)
    (vars : List VarId) :
    Deduction.Follows P d (closeAll g d vars).2 ∧ ((closeAll g d vars).1 = false → P = ∅) := by
  induction vars generalizing d with
  | nil => exact ⟨.refl d, nofun⟩
  | cons v rest ih =>
    obtain ⟨hfollows, hempty⟩ := Deduction.closeImplications_follows hP v
    unfold closeAll
    cases hc : d.closeImplications g v with
    | mk feasible e =>
      rw [hc] at hfollows hempty
      cases feasible with
      | false => exact ⟨hfollows, hempty⟩
      | true =>
        obtain ⟨hfollows', hempty'⟩ := ih (hP.tightens hfollows.domains)
        exact ⟨hfollows.trans hfollows', hempty'⟩

/-- **Propagation loses no point** of the domain that satisfies the active
constraints and the implications. -/
theorem run_keeps (hb : hs.BuiltIn) (hP : Deduction.Candidates g P d)
    (hholds : ∀ p ∈ P, hs.Satisfies r p) (fuel : Nat) :
    Keeps P d w Propagated.cutoff (p.run hs r g fuel) := by
  obtain ⟨hfollows, hempty⟩ := closeAll_follows (d := { domains := d }) hP
    (d.focusDelta.map BoundChange.var)
  unfold run
  refine .bind (.modifyGet ?_)
  cases hc : closeAll g { domains := d } (d.focusDelta.map BoundChange.var) with
  | mk feasible closed =>
    rw [hc] at hfollows hempty
    dsimp only at hfollows hempty ⊢
    simp only [hc]
    have hclear : d.Tightens P closed.domains.clearPending := hfollows.domains.agree rfl
    split
    · exact .bind (.throw ⟨rfl, hfollows.domains, rfl⟩)
    · refine .bind (.modify ?_)
      cases feasible with
      | true => exact (passes_keeps hb (hP.tightens hclear) hholds _ rfl fuel).from hclear
      | false => exact .pure ⟨hclear, rfl, fun _ => hempty rfl⟩

/-- **Propagation loses no feasible point.** In a store that the operations can
build, a point of the local domain that satisfies the active constraints and the
implications is still there after propagation, and no cutoff is reported. -/
theorem run_encloses (hd : d.Reachable) {x : Point} (hx : d.Encloses x) (hg : g.Holds x)
    (hb : hs.BuiltIn) (hholds : hs.Satisfies r x) (fuel : Nat) :
    Ensures (p.run hs r g fuel) (d, w) (fun out s => out.cutoff = false ∧ s.1.Encloses x)
      (fun e s => e = .outOfSteps ∧ s.1.Encloses x) := by
  have htol := hd.levels.top.tol
  have hP : Deduction.Candidates g {x} d :=
    { tol := htol
      encloses := fun y hy => hy ▸ hx
      globally := fun y hy v hv => hy ▸ hd.enclosesGlobally hx hv
      implications := fun y hy => hy ▸ hg }
  refine Ensures.mono (run_keeps hb hP (fun y hy => hy ▸ hholds) fuel) ?_ ?_
  · rintro out s ⟨htightens, -, hcut⟩
    refine ⟨?_, htightens.encloses htol rfl hx⟩
    by_contra hne
    exact Set.singleton_ne_empty x (hcut (by simpa using hne))
  · rintro e s ⟨he, htightens, -⟩
    exact ⟨he, htightens.encloses htol rfl hx⟩

end Propagator

end Exact

namespace Propagator

/-- A row, a set and an implication after a branching. -/
theorem run_encloses_branched :
    let d : Domains (Exact ℚ) :=
      ((Domains.new #[.fin 0, .fin 0, .fin 0] #[.fin 4, .fin 1, .posInf] #[true, true, false]
        (.fin (1 / 1000))).tighten 0 .upper (.fin 2) .branching).2
    let hs : Handlers (Exact ℚ) Unit :=
      { linear := ⟨#[{ name := "sum", row := ⟨[(0, .fin 1), (2, .fin 2)], .fin 3, .posInf⟩ }]⟩
        sos1 := ⟨#[{ name := "set", vars := [1, 2] }]⟩ }
    let r : Registry :=
      { records := #[⟨0, 0, .everywhere, false⟩, ⟨1, 0, .everywhere, false⟩]
        active := #[#[0], #[1]] }
    let g : ImplicationGraph (Exact ℚ) :=
      { implications := #[((1, true), ⟨0, .upper, .fin 1⟩)] }
    let p : Propagator := { order := [0, 1], watchers := #[[0], [1], [0, 1]], maxPasses := 0 }
    Ensures (p.run hs r g 9) (d, ())
      (fun out s => out.cutoff = false ∧ s.1.Encloses #[2, 0, 1 / 2])
      (fun e s => e = .outOfSteps ∧ s.1.Encloses #[2, 0, 1 / 2]) := by
  intro d hs r g p
  have hd : d.Reachable := by
    have hnew : (Domains.new #[Exact.fin 0, .fin 0, .fin 0] #[.fin 4, .fin 1, .posInf]
        #[true, true, false] (.fin (1 / 1000 : ℚ))).Reachable := by
      refine .new (by decide +kernel) rfl rfl ?_
      intro v hv
      rcases v with _ | _ | _ | v
      · exact .inl (by decide +kernel)
      · exact .inl (by decide +kernel)
      · exact .inl (by decide +kernel)
      · simp at hv
    exact hnew.tighten (v := 0) (by decide) _ _ _
  have hx : d.Encloses #[2, 0, 1 / 2] :=
    Domains.encloses_of_lt (by decide +kernel) (by decide +kernel) (by decide +kernel)
      (by decide +kernel)
  have hg : g.Holds #[2, 0, 1 / 2] := by
    refine ⟨fun e he hvalue => ?_, fun members hmem => absurd hmem (by simp [g])⟩
    obtain rfl : e = ((1, true), ⟨0, .upper, .fin 1⟩) := by simpa [g] using he
    have h01 : (0 : ℚ) = 1 := hvalue
    exact absurd h01 (by decide)
  have hb : hs.BuiltIn := by
    refine ⟨rfl, fun cons hcons => ?_⟩
    obtain rfl : cons = { name := "sum", row := ⟨[(0, .fin 1), (2, .fin 2)], .fin 3, .posInf⟩ } := by
      simpa [hs] using hcons
    exact List.forall_mem_cons.mpr ⟨⟨1, by decide, rfl⟩,
      List.forall_mem_cons.mpr ⟨⟨2, by decide, rfl⟩, nofun⟩⟩
  have hr : hs.Satisfies r #[2, 0, 1 / 2] := by
    intro h c hc
    have hlinear : r.activeIndices 0 = [0] := by decide +kernel
    have hsos1 : r.activeIndices 1 = [0] := by decide +kernel
    rcases h with _ | _ | h
    · obtain rfl : c = 0 := by simpa [hlinear] using hc
      intro cons hcons
      obtain rfl : { name := "sum", row := ⟨[(0, .fin 1), (2, .fin 2)], .fin 3, .posInf⟩ } = cons := by
        simpa [hs] using hcons
      exact fun _ _ => ⟨by decide +kernel, by decide +kernel⟩
    · obtain rfl : c = 0 := by simpa [hsos1] using hc
      exact List.Pairwise.cons (by decide +kernel) (.cons nofun .nil)
    · simp [r, Registry.activeIndices] at hc
  exact run_encloses hd hx hg hb hr 9

/-- The store of a model with crossing bounds, but within the tolerance: the first
tightening of an upper bound raises it to the lower one. -/
def crossed : Domains (Exact ℚ) :=
  (((Domains.new #[.fin 2, .fin 0] #[.fin 1, .fin 1] #[true, false] (.fin 5)).restore [0]
    fun _ => []).2.tighten 0 .upper (.fin (-5)) .branching).2

/-- **Bounds that cross within the tolerance lose points.** A raised upper bound
of an integral variable with global bounds that cross counts as a fixing. -/
theorem run_loses_crossed :
    let g : ImplicationGraph (Exact ℚ) :=
      { implications := #[((0, true), ⟨1, .upper, .fin 0⟩)] }
    let p : Propagator := { order := [0, 1], watchers := #[[], []], maxPasses := 0 }
    let hs : Handlers (Exact ℚ) Unit := {}
    let r := Registry.new 2
    crossed.Encloses #[2, 1] ∧ g.Holds #[2, 1] ∧ hs.Satisfies r #[2, 1] ∧
      ¬ Ensures (p.run hs r g 9) (crossed, ())
        (fun out s => out.cutoff = false ∧ s.1.Encloses #[2, 1])
        (fun e s => e = .outOfSteps ∧ s.1.Encloses #[2, 1]) := by
  intro g p hs r
  have hidle : ∀ h, r.activeIndices h = [] := by
    intro h
    rcases h with _ | _ | h <;> rfl
  refine ⟨?_, ⟨fun e he hvalue => ?_, fun members hmem => absurd hmem (by simp [g])⟩,
    fun h c hc => absurd hc (by simp [hidle]), fun h => ?_⟩
  · exact Domains.encloses_of_lt (by decide +kernel) (by decide +kernel) (by decide +kernel)
      (by decide +kernel)
  · obtain rfl : e = ((0, true), ⟨1, .upper, .fin 0⟩) := by simpa [g] using he
    have h21 : (2 : ℚ) = 1 := hvalue
    exact absurd h21 (by decide)
  · have hub : (match p.run hs r g 9 (crossed, ()) with
        | .ok _ s => s.1.ub 1
        | .error _ s => s.1.ub 1) = .fin 0 := by decide +kernel
    unfold Ensures at h
    cases hrun : p.run hs r g 9 (crossed, ()) with
    | ok out s =>
      rw [hrun] at h hub
      have hle : Exact.fin (Point.coord #[2, 1] 1) ≤ .fin 0 := hub ▸ h.2.upper 1
      exact absurd hle (by decide +kernel)
    | error e s =>
      rw [hrun] at h hub
      have hle : Exact.fin (Point.coord #[2, 1] 1) ≤ .fin 0 := hub ▸ h.2.upper 1
      exact absurd hle (by decide +kernel)

end Propagator

end BranchAndCut
