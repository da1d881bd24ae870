import BranchAndCut.Proofs.Constraint.Settling
import BranchAndCut.Proofs.Domain.Completion
import BranchAndCut.Proofs.Domain.Replay

/-! # What a call of propagation puts in force

A call follows the fixings that were found at the active node, and those that it finds itself.
For all other ones it trusts the node above. So where all was in force at the node above, all
is in force once propagation is done, apart from variables for which something was missing
there. -/

namespace BranchAndCut

open Domains Deduction

/-! ## Families that ask -/

section Asked

variable {K σ : Type} [Scalar K] {g : ImplicationGraph K} {reason : Reason} {S : VarId → Prop} {hs : Handlers K σ}
  {r : Registry}
  {I : Domains K → Prop}

/-- What feasible requests for variables of a set lead to, each of them with all that it implies. -/
inductive Deduction.Asked (g : ImplicationGraph K) (reason : Reason) (S : VarId → Prop) (d : Deduction K) : Deduction K → Prop
  | refl : Asked g reason S d d
  | tighten {e : Deduction K} (h : Asked g reason S d e) {v : VarId} (hv : S v) (kind : BoundKind) (value : K)
      (hok : (Deduction.tighten g reason e v kind value).1 ≠ .infeasible) :
      Asked g reason S d (Deduction.tighten g reason e v kind value).2

theorem kept_asked (d : Deduction K) : KeptByDeductions g reason S (Asked g reason S d) fun _ => True where
  feasible _ _ kind value hv h hok := h.tighten hv kind value hok
  infeasible _ _ _ _ _ _ _ := trivial
  weaken _ _ := trivial

/-- A family that changes domains by such requests, and reports a cutoff or leaves the domains
infeasible if one of them fails. -/
def CustomHandler.Asks (S : VarId → Prop) (handler : CustomHandler K σ) : Prop :=
  ∀ conss g reason (d : Deduction K) w, Ensures (handler.propagate conss g reason) (d, w)
    (fun verdict s => verdict ≠ .cutoff → s.1.infeasible = false → Asked g reason S d s.1) fun _ _ => True

/-- The families act on the variables of a set. -/
structure Handlers.Ask (hs : Handlers K σ) (r : Registry) (S : VarId → Prop) : Prop where
  custom : ∀ handler ∈ hs.custom, handler.Asks S
  locks : ∀ w h, ∀ c ∈ r.activeIndices h, ∀ l ∈ hs.locks w h c, S l.var

namespace Propagator

variable (hask : hs.Ask r S)

include hask

theorem propagate_asked (h : HandlerId) (d : Deduction K) (w : σ) :
    Ensures (hs.propagate h (r.activeIndices h) g reason) (d, w)
      (fun verdict s => verdict ≠ .cutoff → s.1.infeasible = false → Asked g reason S d s.1) fun _ _ => True := by
  have hlocks := hask.locks w h
  unfold Handlers.locks at hlocks
  unfold Handlers.propagate
  cases hw : hs.which h with
  | linear =>
    rw [hw] at hlocks
    exact .modifyGet fun hok _ =>
      ((kept_asked d).linear hs.linear (fun c hc cons hcons => LinearFamily.locks_vars hcons (hlocks c hc)) .refl).1 hok
  | sos1 =>
    rw [hw] at hlocks
    exact .modifyGet fun hok _ =>
      ((kept_asked d).sos1 hs.sos1 (fun c hc => Sos1Family.locks_vars (hlocks c hc)) .refl).1 hok
  | custom handler =>
    refine hask.custom handler ?_ _ g reason d w
    rcases h with _ | _ | h
    · cases hw
    · cases hw
    · unfold Handlers.which at hw
      dsimp only at hw
      split at hw
      · next hmem =>
        cases hw
        exact Array.mem_of_getElem? hmem
      · cases hw
  | unknown => exact .pure fun _ _ => .refl

variable (hagree : ∀ d e, Agree d e → I d → I e)
  (hasked : ∀ d reason b, I d → Asked g reason S { domains := d } b → I b.domains)

include hasked

/-- A family that cuts nothing off keeps what its requests keep. -/
theorem runFamily_asked (h : HandlerId) {d : Domains K} (hd : I d) (w : σ) :
    Ensures (runFamily hs g h (r.activeIndices h)) (d, w) (fun out s => out.1 = false → I s.1) fun _ _ => True := by
  have hpropagate : Ensures (hs.propagate h (r.activeIndices h) g (.propagation h)) ({ domains := d }, w)
      (fun verdict s => verdict ≠ .cutoff → s.1.infeasible = false → Asked g (.propagation h) S { domains := d } s.1)
      fun _ _ => True := propagate_asked hask h { domains := d } w
  unfold Ensures at hpropagate
  unfold Ensures runFamily
  dsimp only
  cases heq : hs.propagate h (r.activeIndices h) g (.propagation h) ({ domains := d }, w) with
  | ok verdict after =>
    rw [heq] at hpropagate
    dsimp only
    by_cases hexhausted : after.1.exhausted = true
    · rw [if_pos hexhausted]
      trivial
    · rw [if_neg hexhausted]
      intro hnone
      rw [Bool.or_eq_false_iff, beq_eq_false_iff_ne] at hnone
      exact hasked d _ after.1 hd (hpropagate hnone.1 hnone.2)
  | error e after => trivial

include hagree

theorem pass_asked (p : Propagator) (order : List HandlerId) (dirty : Array Bool) (out : Propagated) {d : Domains K}
    (hd : I d) (w : σ) :
    Ensures (p.pass hs r g dirty out order) (d, w) (fun a s => a.2.cutoff = false → I s.1) fun _ _ => True := by
  induction order generalizing d w dirty out with
  | nil => exact .pure fun _ => hd
  | cons h rest ih =>
    unfold pass
    split
    · exact ih _ _ hd w
    · dsimp only
      split
      · exact ih _ _ hd w
      · refine .bind_mono (runFamily_asked hask hasked h hd w) ?_
        rintro ⟨cutoff, reductions⟩ ⟨e, w'⟩ he
        dsimp only
        split
        · next hcut => exact .bind (.modify (.pure fun hnone => Bool.noConfusion (hcut.symm.trans hnone)))
        · next hnone => exact .bind (.modifyGet (ih _ _ (hagree e e.drainPending.2 rfl (he (Bool.not_eq_true _ ▸ hnone))) w'))

theorem passes_asked (p : Propagator) (dirty : Array Bool) (out : Propagated) (fuel : Nat) {d : Domains K} (hd : I d) (w : σ) :
    Ensures (p.passes hs r g dirty out fuel) (d, w) (fun a s => a.cutoff = false → I s.1) fun _ _ => True := by
  induction fuel generalizing d w dirty out with
  | zero => exact .throw trivial
  | succ fuel ih =>
    unfold passes
    split
    · exact .pure fun _ => hd
    · refine .bind_mono (pass_asked hask hagree hasked p p.order dirty _ hd w) ?_
      rintro ⟨dirty', out'⟩ ⟨e, w'⟩ he
      dsimp only
      split
      · exact .pure he
      · next hgoes =>
        rw [Bool.or_eq_true, not_or] at hgoes
        exact ih _ _ (he (Bool.not_eq_true _ ▸ hgoes.1)) w'

/-- **A call without a cutoff** keeps what feasible requests keep, from the closure on. -/
theorem run_asked (p : Propagator) (fuel : Nat) {d : Domains K} (w : σ)
    (hclose : (closeAll g { domains := d } (d.focusDelta.map BoundChange.var)).1 = true →
      I (closeAll g { domains := d } (d.focusDelta.map BoundChange.var)).2.domains) :
    Ensures (p.run hs r g fuel) (d, w) (fun a s => a.cutoff = false → I s.1) fun _ _ => True := by
  unfold run
  refine .bind (.modifyGet ?_)
  dsimp only
  split
  · exact .bind (.throw trivial)
  · refine .bind (.modify ?_)
    split
    · next hfeasible =>
      have hcleared : I (closeAll g { domains := d } (d.focusDelta.map BoundChange.var)).2.domains.clearPending :=
        hagree _ _ (agree_clearPending _).symm (hclose hfeasible)
      exact passes_asked hask hagree hasked p _ _ fuel hcleared w
    · exact .pure nofun

end Propagator

end Asked

/-! ## What is in force apart from some variables -/

section Exact

variable [Rooted ℚ] {σ : Type} {g : ImplicationGraph (Exact ℚ)} {t : ℚ} {n : Nat} {d e : Domains (Exact ℚ)}
  {hs : Handlers (Exact ℚ) σ} {r : Registry} {F : VarId → Prop}

namespace Domains

/-- All that fixed variables imply is in force, apart from some of them. -/
def ClosedBut (g : ImplicationGraph (Exact ℚ)) (F : VarId → Prop) (d : Domains (Exact ℚ)) : Prop :=
  ∀ v value, ¬ F v → binaryFixing? d v = some value → ∀ i ∈ g.implied v value, d.Upholds i

/-- A variable that was changed at the active node. -/
def AtFocus (d : Domains (Exact ℚ)) (v : VarId) : Prop := v ∈ d.focusDelta.map BoundChange.var

theorem covers_closedBut : Covers g (fun _ v => ¬ F v) Upholds d [] [] ↔ ClosedBut g F d :=
  ⟨fun h _ _ hv hfix => h.settled hv hfix, fun h v value hv hfix => .inr fun i hi => .inl (h v value hv hfix i hi)⟩

theorem Regular.push (h : Regular t d) (node : NodeId) : Regular t (d.push node) :=
  ⟨h.nested.push node, h.tol, h.below, h.apart, h.whole⟩

theorem Regular.agree (h : Regular t d) (hde : Agree d e) : Regular t e := by
  have hnested := h.nested.agree hde
  rw [hde.eq_with] at hnested ⊢
  exact ⟨hnested, h.tol, h.below, h.apart, h.whole⟩

/-- A change at a node is to be followed there, and leaves in force what is. -/
theorem ClosedBut.record (h : ClosedBut g (fun v => F v ∨ d.AtFocus v) d) (hd : Regular t d) (hne : d.frames ≠ [])
    {kind : BoundKind} {value new : Exact ℚ} (happlied : d.judge v kind value = (.applied, new)) (reason : Reason) :
    ClosedBut g (fun w => F w ∨ (d.record v kind new reason).AtFocus w) (d.record v kind new reason) := by
  intro w b hw hfix i hi
  obtain ⟨hF, hfocus⟩ := not_or.mp hw
  unfold AtFocus at hfocus
  rw [focusDelta_record hne, List.map_append, List.mem_append, not_or] at hfocus
  obtain ⟨hbefore, hnew⟩ := hfocus
  rw [binaryFixing_record fun heq => hnew (List.mem_singleton.mpr heq)] at hfix
  exact (h w b (not_or.mpr ⟨hF, hbefore⟩) hfix i hi).inward (record_tol ..) (hd.inward happlied reason i.var i.kind)

/-- A regular store where all that fixed variables imply is in force, apart from some of them. -/
structure Upheld (g : ImplicationGraph (Exact ℚ)) (F : VarId → Prop) (t : ℚ) (n : Nat) (d : Domains (Exact ℚ)) : Prop where
  regular : Regular t d
  numVars : d.numVars = n
  closed : ClosedBut g F d

/-- The store at a node, before propagation: what is still to be followed was changed there. -/
abbrev Fresh (g : ImplicationGraph (Exact ℚ)) (F : VarId → Prop) (t : ℚ) (n : Nat) (d : Domains (Exact ℚ)) : Prop :=
  Upheld g (fun v => F v ∨ d.AtFocus v) t n d

theorem Upheld.agree (h : Upheld g F t n d) (hde : Agree d e) : Upheld g F t n e := by
  have hregular := h.regular.agree hde
  rw [hde.eq_with] at hregular ⊢
  exact ⟨hregular, h.numVars, h.closed⟩

theorem Fresh.agree (h : Fresh g F t n d) (hde : Agree d e) : Fresh g F t n e := by
  have hsame := Upheld.agree h hde
  rw [hde.eq_with] at hsame ⊢
  exact hsame

theorem Upheld.fresh (h : Upheld g F t n d) : Fresh g F t n d :=
  ⟨h.regular, h.numVars, fun v value hv hfix => h.closed v value (not_or.mp hv).1 hfix⟩

theorem Upheld.push (h : Upheld g F t n d) (node : NodeId) : Upheld g F t n (d.push node) :=
  ⟨h.regular.push node, h.numVars, h.closed⟩

/-- **Entering a node** from one where all is in force. -/
theorem Upheld.enter (h : Upheld g F t n d) {delta : NodeId → List (BoundChange (Exact ℚ))} {node : NodeId}
    (hdelta : ∀ c ∈ delta node, c.var < n) : Fresh g F t n (Domains.enter delta (true, d) node).2 := by
  refine (replay_keeps (d := d.push node) (P := fun e => Fresh g F t n e ∧ e.frames ≠ []) (fun c hc e he => ?_)
    ⟨(h.push node).fresh, List.cons_ne_nil _ _⟩).1
  refine tighten_keeps (I := fun e => Fresh g F t n e ∧ e.frames ≠ []) he fun new happlied => ?_
  obtain ⟨⟨hregular, hsize, hbefore⟩, hne⟩ := he
  refine ⟨⟨hregular.record (hsize.symm ▸ hdelta c hc) happlied _, (record_numVars ..).trans hsize,
    hbefore.record hregular hne happlied _⟩, ?_⟩
  rw [record_frames]
  split
  · next hnil => exact absurd hnil hne
  · exact List.cons_ne_nil _ _

end Domains

namespace Propagator

/-- **A call at a fresh node** puts in force what the fixed variables imply, unless it cuts the
domain off. -/
theorem run_closes (hask : hs.Ask r (· < n)) (hg : g.InRange n) (hd : Fresh g F t n d) (p : Propagator) (fuel : Nat) (w : σ) :
    Ensures (p.run hs r g fuel) (d, w) (fun a s => a.cutoff = false → Upheld g F t n s.1) fun _ _ => True := by
  refine run_asked hask (I := Upheld g F t n) (fun e f hef he => he.agree hef) (fun e reason b he hb => ?_) p fuel w
    fun hfeasible => ?_
  · -- each request is followed by all that it implies
    induction hb with
    | refl => exact he
    | tighten _ hv kind value hok ih =>
      have hsettles := (followable_regular hg fun v => ¬ F v).tighten ⟨ih.regular, ih.numVars⟩ hv
        (covers_closedBut.mpr ih.closed) reason kind value
      exact ⟨hsettles.inv.1, hsettles.inv.2, covers_closedBut.mp (hsettles.covers hok)⟩
  · obtain ⟨hinv, -, hcovers⟩ := closeAll_covers (W := fun others _ v => ¬ F v ∧ v ∉ others)
      (fun others => followable_regular hg fun v => ¬ F v ∧ v ∉ others)
      (fun v others _ w hw h => ⟨h.1, by simp [hw, h.2]⟩) (d := { domains := d }) ⟨hd.regular, hd.numVars⟩
      (show Covers g (fun _ v => ¬ F v ∧ v ∉ d.focusDelta.map BoundChange.var) Upholds d [] [] from
        fun v value hv hfix => .inr fun i hi => .inl (hd.closed v value (not_or.mpr hv) hfix i hi))
    exact ⟨hinv.1, hinv.2, fun v value hv hfix => (hcovers hfeasible).settled ⟨hv, List.not_mem_nil⟩ hfix⟩

end Propagator

end Exact

end BranchAndCut
