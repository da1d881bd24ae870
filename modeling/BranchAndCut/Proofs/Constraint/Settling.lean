import BranchAndCut.Proofs.Constraint.Quiescence
import BranchAndCut.Proofs.Domain.Room

/-! # A call of propagation settles

Where all variables are integral with finite bounds, a call of propagation makes no more
passes than there is room between the bounds, and one more. Unless it cuts the domain off,
a second call finds nothing to do: all families are at rest, and what is implied by the
variables changed at the active node is in force. Those variables are what a call starts
from. -/

namespace BranchAndCut

open Domains Deduction

/-! ## What is changed at the active node -/

section Changed

variable {K : Type} [Scalar K] {g : ImplicationGraph K} {n : Nat} {J : Domains K → Prop} {U : Domains K → Implication K → Prop}
  {v : VarId}

/-- A variable that was changed at the active node, apart from some. -/
def Domains.ChangedBut (others : List VarId) (d : Domains K) (v : VarId) : Prop :=
  v ∈ d.focusDelta.map BoundChange.var ∧ v ∉ others

theorem Domains.changedBut_record {others : List VarId} {d : Domains K} {w : VarId} {kind : BoundKind} {new : K} {reason : Reason}
    (h : ChangedBut others (d.record v kind new reason) w) : ChangedBut others d w ∨ w = v := by
  obtain ⟨hmem, hnot⟩ := h
  unfold focusDelta at hmem
  rw [record_frames] at hmem
  unfold ChangedBut focusDelta
  cases hframes : d.frames with
  | nil =>
    rw [hframes] at hmem
    cases hmem
  | cons f fs =>
    rw [hframes] at hmem
    simp only [List.reverse_cons, List.map_append, List.map_cons, List.map_nil, List.mem_append, List.mem_singleton] at hmem
    exact hmem.imp_left fun hold => ⟨hold, hnot⟩

omit [Scalar K] in
theorem Domains.changedBut_cons {v w : VarId} {others : List VarId} {d : Domains K} (hw : w ≠ v) (h : ChangedBut others d w) :
    ChangedBut (v :: others) d w :=
  ⟨h.1, by simp [hw, h.2]⟩

/-- **Closing a node** settles what its changes imply. The variables that are watched become
more with each one that is closed. -/
theorem Propagator.closeAll_covers {W : List VarId → Domains K → VarId → Prop}
    (hF : ∀ others, Followable g n J (W others) U) (hW : ∀ v others d w, w ≠ v → W others d w → W (v :: others) d w)
    {d : Deduction K} (hd : J d.domains) {vars : List VarId} (hcovers : Covers g (W vars) U d.domains [] []) :
    J (closeAll g d vars).2.domains ∧ (closeAll g d vars).2.exhausted = d.exhausted ∧
      ((closeAll g d vars).1 = true → Covers g (W []) U (closeAll g d vars).2.domains [] []) := by
  induction vars generalizing d with
  | nil => exact ⟨hd, rfl, fun _ => hcovers⟩
  | cons v rest ih =>
    obtain ⟨hinv, hends, hclosed, -⟩ := (hF rest).closeImplications (v := v) hd fun w b hw hwatched hfix i hi =>
      hcovers.settled (hW v rest d.domains w hw hwatched) hfix i hi
    unfold closeAll
    split
    · next heq =>
      rw [heq] at hinv hends hclosed
      obtain ⟨hinv', hends', hclosed'⟩ := ih hinv (hclosed rfl)
      exact ⟨hinv', hends'.trans hends, hclosed'⟩
    · next heq =>
      rw [heq] at hinv hends
      exact ⟨hinv, hends, nofun⟩

/-- An implied bound that a request would not change. -/
def Domains.InPlace (d : Domains K) (i : Implication K) : Prop := (d.judge i.var i.kind i.value).1 = .redundant

theorem Deduction.applyImplied_idle {d : Deduction K} {is : List (Implication K)} (his : ∀ i ∈ is, d.domains.InPlace i)
    (stack : List (VarId × Bool)) : d.applyImplied stack is = (true, d, stack) := by
  induction is with
  | nil => rfl
  | cons i rest ih =>
    have hi : (d.domains.judge i.var i.kind i.value).1 = .redundant := his i (by simp)
    rcases applyImplied_cons d stack i rest with ⟨new, hjudge, -⟩ | ⟨-, heq⟩ | ⟨hjudge, -⟩
    · rw [hjudge] at hi
      cases hi
    · rw [heq]
      exact ih fun j hj => his j (by simp [hj])
    · rw [hjudge] at hi
      cases hi

/-- Closing what is closed changes nothing. -/
theorem Deduction.closeImplications_idle {d : Deduction K}
    (h : ∀ value, binaryFixing? d.domains v = some value → ∀ i ∈ g.implied v value, d.domains.InPlace i) :
    closeImplications g d v = (true, d) := by
  unfold closeImplications
  split
  · rfl
  · cases hfix : binaryFixing? d.domains v with
    | none => rfl
    | some value =>
      obtain ⟨k, hk⟩ : ∃ k, closureSteps d.domains = k + 2 := ⟨2 ^ 62 - 2 + d.domains.numVars, by
        have hsteps : closureSteps d.domains = 2 ^ 62 + d.domains.numVars := rfl
        omega⟩
      dsimp only
      rw [hk, closeStack, applyImplied_idle (h value hfix)]
      rfl

theorem Propagator.closeAll_idle {d : Deduction K} {vars : List VarId}
    (h : ∀ v ∈ vars, ∀ value, binaryFixing? d.domains v = some value → ∀ i ∈ g.implied v value, d.domains.InPlace i) :
    closeAll g d vars = (true, d) := by
  induction vars with
  | nil => rfl
  | cons v rest ih =>
    unfold closeAll
    rw [closeImplications_idle (h v (by simp))]
    exact ih fun w hw => h w (by simp [hw])

end Changed

/-! ## Propagators -/

/-- A propagator as it is set up, with some limit on the passes and some variables watched. -/
inductive Propagator.SetUp {K σ : Type} [Scalar K] (hs : Handlers K σ) (maxPasses : Nat) : Propagator → Prop
  | new (numVars : Nat) : SetUp hs maxPasses (Propagator.new hs numVars maxPasses)
  | watch {p : Propagator} (h : SetUp hs maxPasses p) (k : HandlerId) (locks : List Lock) : SetUp hs maxPasses (p.watch k locks)

/-- Linear constraints propagate before special ordered sets. -/
theorem Propagator.new_builtIn {K σ : Type} [Scalar K] {hs : Handlers K σ} (hb : hs.custom = #[]) (n m : Nat) :
    Propagator.new hs n m = ⟨[0, 1], Array.replicate n [], m⟩ := by
  have hcount : hs.count = 2 := by
    rw [Handlers.count, hb]
    rfl
  unfold Propagator.new
  rw [hcount, List.mergeSort_of_pairwise]
  · rfl
  · simp [List.range, List.range.loop, Handlers.priority, Handlers.which]

namespace Propagator.SetUp

variable {K σ : Type} [Scalar K] {hs : Handlers K σ} {m : Nat} {p : Propagator}

theorem maxPasses (hp : SetUp hs m p) : p.maxPasses = m := by
  induction hp with
  | new => rfl
  | watch _ _ _ ih => exact ih

/-- Every family has its place in a pass. -/
theorem order (hp : SetUp hs m p) : ∀ h < hs.count, h ∈ p.order := by
  induction hp with
  | new => exact fun h hh => List.mem_mergeSort.mpr (List.mem_range.mpr hh)
  | watch _ _ _ ih => exact ih

end Propagator.SetUp

/-! ## Bounded domains -/

section Exact

variable [Rooted ℚ] {σ : Type} {g : ImplicationGraph (Exact ℚ)} {t : ℚ} {n : Nat} {d e : Domains (Exact ℚ)}
  {hs : Handlers (Exact ℚ) σ} {r : Registry} {p : Propagator} {w : σ}

/-- Fixings in bounded domains can be followed. -/
theorem followable_bounded (hg : g.InRange n) (others : List VarId) :
    Followable g n (Bounded t n) (ChangedBut others) InPlace where
  numVars _ hd := hd.numVars
  graph := hg
  keeps _ _ _ _ _ reason hd hv hjudge := hd.record hv hjudge reason
  fixed _ _ kind value hd hfix := hd.judge_fixed hfix kind value
  stays _ _ _ _ _ reason _ hd hv hjudge hU := hd.redundant_record hv hjudge reason hU
  reached _ _ _ hd hi hjudge := hd.redundant_applied hi hjudge .implication
  redundant _ _ _ hjudge := hjudge
  watched _ _ _ _ _ _ h := changedBut_record h

/-- Bounded domains in which is in force what is implied by the changes of the active node. -/
structure Settled (g : ImplicationGraph (Exact ℚ)) (t : ℚ) (n : Nat) (d : Domains (Exact ℚ)) : Prop where
  bounded : Bounded t n d
  closed : Covers g (ChangedBut []) InPlace d [] []

/-- A deduction within bounded domains: reductions take room. -/
structure Within (t : ℚ) (n C : Nat) (b : Deduction (Exact ℚ)) : Prop where
  bounded : Bounded t n b.domains
  room : b.reductions + b.domains.room ≤ C

theorem kept_within (t : ℚ) (n C : Nat) : KeptByRequests (· < n) (Within t n C) where
  applied b v kind _ reason new hv hjudge hb := by
    have hroom := hb.room
    have hless := hb.bounded.room_record hv hjudge reason
    refine ⟨hb.bounded.record hv hjudge reason, ?_⟩
    simp only [applied]
    omega
  infeasible _ hb := ⟨hb.bounded, hb.room⟩
  exhausted _ hb := ⟨hb.bounded, hb.room⟩

/-- What a request keeps, feasible or not. -/
theorem kept_settled (hg : g.InRange n) (reason : Reason) (C : Nat) :
    KeptByDeductions g reason (· < n)
      (fun b => (Within t n C b ∧ b.exhausted = false) ∧ Covers g (ChangedBut []) InPlace b.domains [] [])
      fun b => Within t n C b ∧ b.exhausted = false where
  feasible b v kind value hv hb hok := by
    obtain ⟨⟨hwithin, hends⟩, hcovers⟩ := hb
    have hsettles := (followable_bounded hg []).tighten hwithin.bounded hv hcovers reason kind value
    have hkept := (kept_within t n C).tighten hg.implied hv hwithin reason kind value
    exact ⟨⟨hkept, hsettles.ends.trans hends⟩, hsettles.covers hok⟩
  infeasible b v kind value hv hb _ := by
    obtain ⟨⟨hwithin, hends⟩, hcovers⟩ := hb
    have hsettles := (followable_bounded hg []).tighten hwithin.bounded hv hcovers reason kind value
    exact ⟨(kept_within t n C).tighten hg.implied hv hwithin reason kind value, hsettles.ends.trans hends⟩
  weaken _ hb := hb.1

/-- Families keep domains settled unless they cut them off. -/
theorem descends_settled (hg : g.InRange n) (hlocks : ∀ h v, hs.Locked w r h v → v < n) :
    Propagator.Descends hs g r (Settled g t n) room := by
  have hrun : ∀ h d, Settled g t n d → Leaves
      (fun b => (Within t n d.room b ∧ b.exhausted = false) ∧ Covers g (ChangedBut []) InPlace b.domains [] [])
      (fun b => Within t n d.room b ∧ b.exhausted = false) ((hs.step g r h d).1 ≠ .cutoff) (hs.step g r h d).2 := by
    intro h d hd
    refine Handlers.deduce_leaves (w := w) (kept_settled hg (.propagation h) d.room)
      (fun c hc l hl => hlocks h l.var ⟨c, hc, l, hl, rfl⟩) ⟨⟨⟨hd.bounded, ?_⟩, rfl⟩, hd.closed⟩
    exact (Nat.zero_add _).le
  have hwithin : ∀ h d, Settled g t n d →
      Within t n d.room (hs.step g r h d).2 ∧ (hs.step g r h d).2.exhausted = false := by
    intro h d hd
    by_cases hok : (hs.step g r h d).1 ≠ .cutoff
    · exact ((hrun h d hd).1 hok).1
    · exact (hrun h d hd).2 hok
  refine ⟨fun h d hd => (hwithin h d hd).2, fun h d hd => (hwithin h d hd).1.room, fun h d hd hok => ?_, fun _ => rfl⟩
  obtain ⟨⟨hin, -⟩, hclosed⟩ := (hrun h d hd).1 hok
  exact ⟨hin.bounded.agree rfl, hclosed⟩

namespace Propagator

variable (hb : hs.custom = #[]) (hlocks : ∀ h v, hs.Locked w r h v → v < n ∧ h ∈ p.watchers.getD v []) (hg : g.InRange n)
  (hmax : p.maxPasses = 0) (horder : ∀ h < hs.count, h ∈ p.order)

include hb hlocks hg hmax horder

/-- A call ends with as many passes as there is room for, and one. -/
theorem run_rests (hd : Bounded t n d) {fuel : Nat} (hfuel : d.room < fuel) :
    Ensures (p.run hs r g fuel) (d, w)
      (fun a s => s.2 = w ∧ a.passes ≤ 1 + d.room ∧
        (a.cutoff = false → Settled g t n s.1 ∧ s.1.pending = [] ∧ hs.AllRest g r s.1))
      fun _ _ => False := by
  have hwithin : Within t n d.room (closeAll g { domains := d } (d.focusDelta.map BoundChange.var)).2 :=
    (kept_within t n d.room).closeAll hg.implied ⟨hd, (Nat.zero_add _).le⟩ _
  -- before the closure nothing is known of the variables changed at the active node
  have hunseen : Covers g (ChangedBut (d.focusDelta.map BoundChange.var)) InPlace d [] [] :=
    fun v value hchanged _ => absurd hchanged.1 hchanged.2
  obtain ⟨hbounded, hends, hcovers⟩ :=
    closeAll_covers (followable_bounded (t := t) hg) (fun _ _ _ _ => changedBut_cons) (d := { domains := d }) hd hunseen
  unfold run
  refine .bind (.modifyGet ?_)
  dsimp only
  cases hclose : closeAll g { domains := d } (d.focusDelta.map BoundChange.var) with
  | mk feasible c =>
    rw [hclose] at hwithin hbounded hends hcovers
    dsimp only at hbounded hends hcovers ⊢
    rw [hends]
    refine .bind (.modify ?_)
    split
    · next hfeasible =>
      have hsettled : Settled g t n c.domains.clearPending := ⟨hbounded.agree rfl, hcovers hfeasible⟩
      have hrest : Resting hs g r (Array.replicate hs.count true) c.domains.clearPending := by
        refine ⟨Array.size_replicate, rfl, fun h hh _ hclean => ?_⟩
        simp [hh] at hclean
      have hroom : c.domains.clearPending.room ≤ d.room := (Nat.le_add_left ..).trans hwithin.room
      have hdescends := descends_settled (r := r) (t := t) hg fun h v hv => (hlocks h v hv).1
      refine (passes_rests hb (fun h v hv => (hlocks h v hv).2) hdescends hmax horder hsettled hrest rfl
        (hroom.trans_lt hfuel)).mono (fun a s hafter => ⟨hafter.1, ?_, hafter.2.2⟩) fun _ _ => id
      have hpasses : a.passes ≤ 0 + (1 + c.domains.clearPending.room) := hafter.2.1
      omega
    · exact .pure ⟨rfl, Nat.zero_le _, nofun⟩

omit hlocks hg in
/-- A call on settled domains changes nothing. -/
theorem run_settled (hd : Settled g t n d) (hpending : d.pending = []) (hall : hs.AllRest g r d) (fuel : Nat) :
    Returns (p.run hs r g (fuel + 1)) (d, w) { cutoff := false, reductions := 0, passes := 1 } (d, w) := by
  have hclose : closeAll g { domains := d } (d.focusDelta.map BoundChange.var) = (true, { domains := d }) :=
    closeAll_idle fun v hv value hfix => hd.closed.settled ⟨hv, List.not_mem_nil⟩ hfix
  have hclear : d.clearPending = d := by
    unfold Domains.clearPending
    rw [← hpending]
  unfold run
  refine Returns.andThen (b := (true, { domains := d })) (u := (d, w)) ?_ ?_
  · change EStateM.Result.ok _ _ = _
    rw [hclose]
  · refine Returns.andThen (b := ⟨⟩) (u := (d, w)) ?_ ?_
    · change EStateM.Result.ok _ (d.clearPending, w) = _
      rw [hclear]
    · exact passes_at_rest hb hall hpending Array.size_replicate rfl hmax horder fuel

omit hb hlocks hg hmax horder in
/-- **Propagation of bounded integers ends at a fixpoint.** In a store that its calls can build,
where all variables are integral with finite whole bounds and the tolerance is below one,
let a propagator without a limit on the passes watch the locked variables of the linear
constraints and special ordered sets that are active. Then a call ends with no more
passes than one and the room between the bounds, whatever the implications are. If it does not
cut the domain off, no change is pending, and a second call makes one pass and changes nothing. -/
theorem run_settles (hd : Built (Allowed True) d) (htol : d.tol = .fin t) (hbelow : t < 1)
    (hintegral : ∀ v < d.numVars, d.isIntegral v = true) (hwhole : ∀ v < d.numVars, ∀ kind, ∃ z : ℤ, d.bound v kind = .fin z)
    (hb : hs.custom = #[]) (hg : g.InRange d.numVars) (hp : SetUp hs 0 p)
    (hlocks : ∀ h, ∀ c ∈ r.activeIndices h, ∀ l ∈ hs.locks w h c, l.var < d.numVars ∧ h ∈ p.watchers.getD l.var [])
    {fuel : Nat} (hfuel : d.room < fuel) :
    ∃ a e, Returns (p.run hs r g fuel) (d, w) a (e, w) ∧ a.passes ≤ 1 + d.room ∧
      (a.cutoff = false → e.pending = [] ∧
        ∀ fuel', Returns (p.run hs r g (fuel' + 1)) (e, w) { cutoff := false, reductions := 0, passes := 1 } (e, w)) := by
  have hbounded : Bounded t d.numVars d := ⟨hd.placed, htol, hbelow, rfl, hintegral, hwhole⟩
  have hlocked : ∀ h v, hs.Locked w r h v → v < d.numVars ∧ h ∈ p.watchers.getD v [] := by
    rintro h _ ⟨c, hc, l, hl, rfl⟩
    exact hlocks h c hc l hl
  obtain ⟨a, ⟨e, w'⟩, hreturns, rfl, hpasses, hrests⟩ :=
    (run_rests hb hlocked hg hp.maxPasses hp.order hbounded hfuel).exists_returns
  refine ⟨a, e, hreturns, hpasses, fun hcut => ?_⟩
  obtain ⟨hsettled, hpending, hall⟩ := hrests hcut
  exact ⟨hpending, run_settled hb hp.maxPasses hp.order hsettled hpending hall⟩

end Propagator

end Exact

namespace Propagator

/-- Variables with room for fourteen steps: two of them are binary. -/
def fourBounded : Domains (Exact ℚ) :=
  ((Domains.new #[.fin 0, .fin 0, .fin 0, .fin 0] #[.fin 6, .fin 6, .fin 1, .fin 1] #[true, true, true, true]
    (.fin (1 / 1000000))).restore [0] fun _ => []).2

/-- A row raises the first variable, so that the set takes the third one to zero, that the fourth
one, and then another row raises the second. The implications run in a circle. -/
theorem run_settles_circle :
    let hs : Handlers (Exact ℚ) Unit :=
      { linear := ⟨#[{ name := "low", row := ⟨[(0, .fin 1)], .fin 1, .posInf⟩ },
          { name := "sum", row := ⟨[(1, .fin 1), (3, .fin 1)], .fin 2, .posInf⟩ }]⟩
        sos1 := ⟨#[{ name := "set", vars := [0, 2] }]⟩ }
    let r : Registry :=
      { records := #[⟨0, 0, .everywhere, false⟩, ⟨0, 1, .everywhere, false⟩, ⟨1, 0, .everywhere, false⟩]
        active := #[#[0, 1], #[2]] }
    let g : ImplicationGraph (Exact ℚ) :=
      { implications := #[((2, false), ⟨3, .upper, .fin 0⟩), ((3, false), ⟨2, .upper, .fin 0⟩)] }
    let p := (((new hs 4 0).watch 0 (hs.locks () 0 0)).watch 0 (hs.locks () 0 1)).watch 1 (hs.locks () 1 0)
    fourBounded.room = 14 ∧
      ∃ a e, Returns (p.run hs r g 15) (fourBounded, ()) a (e, ()) ∧ a.passes ≤ 15 ∧ a.passes = 3 ∧ e.lb 1 = .fin 2 ∧
        e.pending = [] ∧ Returns (p.run hs r g 15) (e, ()) { cutoff := false, reductions := 0, passes := 1 } (e, ()) := by
  intro hs r g p
  have hd : Built (Allowed True) fourBounded := by
    have hnew : Built (Allowed True) (Domains.new #[.fin 0, .fin 0, .fin 0, .fin 0] #[.fin 6, .fin 6, .fin 1, .fin 1]
        #[true, true, true, true] (.fin (1 / 1000000))) := by
      refine .new rfl rfl fun v hv => ?_
      rcases v with _ | _ | _ | _ | v
      · exact .inl (by decide +kernel)
      · exact .inl (by decide +kernel)
      · exact .inl (by decide +kernel)
      · exact .inl (by decide +kernel)
      · have hlt : v + 4 < 4 := hv
        omega
    exact hnew.call (.restore [0] (by simp))
  have hintegral : ∀ v < fourBounded.numVars, fourBounded.isIntegral v = true := by decide +kernel
  have hwhole : ∀ v < fourBounded.numVars, ∀ kind, ∃ z : ℤ, fourBounded.bound v kind = .fin z := by
    have hall : ∀ v < fourBounded.numVars, fourBounded.bound v .lower = .fin ((0 : ℤ) : ℚ) ∧
        (fourBounded.bound v .upper = .fin ((6 : ℤ) : ℚ) ∨ fourBounded.bound v .upper = .fin ((1 : ℤ) : ℚ)) := by
      decide +kernel
    intro v hv kind
    obtain ⟨hlb, hub⟩ := hall v hv
    cases kind with
    | lower => exact ⟨0, hlb⟩
    | upper =>
      rcases hub with hub | hub
      · exact ⟨6, hub⟩
      · exact ⟨1, hub⟩
  have hg : g.InRange fourBounded.numVars := ⟨by decide +kernel, by decide +kernel⟩
  have hp : SetUp hs 0 p := .watch (.watch (.watch (.new 4) _ _) _ _) _ _
  have hlocks : ∀ h, ∀ c ∈ r.activeIndices h, ∀ l ∈ hs.locks () h c, l.var < fourBounded.numVars ∧ h ∈ p.watchers.getD l.var [] := by
    rintro (_ | _ | h)
    · decide +kernel
    · decide +kernel
    · nofun
  have hroom : fourBounded.room = 14 := by decide +kernel
  have hfuel : fourBounded.room < 15 := by rw [hroom]; decide
  have hbelow : (1 / 1000000 : ℚ) < 1 := by norm_num
  obtain ⟨a, e, hreturns, hpasses, hrests⟩ := run_settles (w := ()) hd rfl hbelow hintegral hwhole rfl hg hp hlocks hfuel
  have hrun : (match p.run hs r g 15 (fourBounded, ()) with
      | .ok a s => decide (a.cutoff = false ∧ a.passes = 3 ∧ s.1.lb 1 = .fin 2)
      | .error _ _ => false) = true := by
    have hnew : new hs 4 0 = ⟨[0, 1], Array.replicate 4 [], 0⟩ := new_builtIn rfl 4 0
    simp only [p, hnew]
    decide +kernel
  have hresult : p.run hs r g 15 (fourBounded, ()) = .ok a (e, ()) := hreturns
  rw [hresult] at hrun
  obtain ⟨hcut, hthree, hlb⟩ := of_decide_eq_true hrun
  obtain ⟨hpending, hsecond⟩ := hrests hcut
  rw [hroom] at hpasses
  exact ⟨hroom, a, e, hreturns, hpasses, hthree, hlb, hpending, hsecond 14⟩

/-- **Crossing bounds** have no room, rather than less than none: propagating a variable between
1 and 0 takes one pass. -/
theorem run_passes_crossing :
    let d : Domains (Exact ℚ) := Domains.new #[.fin 1] #[.fin 0] #[true] (.fin (1 / 1000000))
    let hs : Handlers (Exact ℚ) Unit := {}
    ∃ a s, Returns ((new hs 1 0).run hs (Registry.new 2) {} 9) (d, ()) a s ∧
      ¬ (a.passes : ℚ) ≤ 1 + d.width (Finset.range d.numVars) := by
  intro d hs
  have hrun : (match (new hs 1 0).run hs (Registry.new 2) {} 9 (d, ()) with
      | .ok a _ => decide (¬ (a.passes : ℚ) ≤ 1 + d.width (Finset.range d.numVars))
      | .error _ _ => false) = true := by
    rw [new_builtIn rfl]
    decide +kernel
  unfold Returns
  cases hresult : (new hs 1 0).run hs (Registry.new 2) {} 9 (d, ()) with
  | ok a s =>
    rw [hresult] at hrun
    exact ⟨a, s, rfl, of_decide_eq_true hrun⟩
  | error _ _ =>
    rw [hresult] at hrun
    cases hrun

end Propagator

end BranchAndCut
