import BranchAndCut.Constraint.Fixpoint
import BranchAndCut.Proofs.Domain.Additions
import BranchAndCut.Proofs.Program

/-! # Propagation changes domains by requests

Whatever the families deduce, they change domains only by asking for bounds. So what
every request keeps, a whole call of propagation keeps. Families of the user act on
domains through the same requests. -/

namespace BranchAndCut

open Domains

variable {K σ : Type} [Scalar K] {g : ImplicationGraph K} {reason : Reason} {S : VarId → Prop} {I I' : Deduction K → Prop}

/-! ## Runs one after another -/

theorem redundant_ne_infeasible : Tightening.redundant ≠ .infeasible := by decide

namespace Deduction

variable {α : Type} {d : Deduction K}

/-- A run after another one, unless that one was not feasible. -/
def andThen (feasible : α → Prop) [DecidablePred feasible] (first : Deduction K → α × Deduction K)
    (second : Deduction K → Bool × Deduction K) (d : Deduction K) : Bool × Deduction K :=
  if feasible (first d).1 then second (first d).2 else (false, (first d).2)

end Deduction

open Deduction in
theorem LinearFamily.propagateTerms_cons (row : Row K) (act : Activity K) (d : Deduction K) (v : VarId) (a : K)
    (rest : List (VarId × K)) : propagateTerms g reason row act d ((v, a) :: rest) =
      andThen (· ≠ .infeasible) (propagateRhs g reason row act · v a (termRange d v a).1)
        (andThen (· ≠ .infeasible) (propagateLhs g reason row act · v a (termRange d v a).2)
          (propagateTerms g reason row act · rest)) d := by
  rw [propagateTerms]
  unfold andThen
  rcases hrhs : propagateRhs g reason row act d v a (termRange d v a).1 with ⟨outcome, e⟩
  rcases hlhs : propagateLhs g reason row act e v a (termRange d v a).2 with ⟨outcome', e'⟩
  cases outcome <;> cases outcome' <;> simp [hrhs, hlhs]

open Deduction in
theorem LinearFamily.propagateAll_cons (f : LinearFamily K) {c : Nat} {cons : LinearConstraint K} (hcons : f.conss[c]? = some cons)
    (hopen : (cons.deleted || cons.modifiable) = false) (rest : List Nat) (d : Deduction K) :
    f.propagateAll g reason d (c :: rest) =
      andThen (· = true) (propagateRow g reason cons.row) (f.propagateAll g reason · rest) d := by
  rw [propagateAll, hcons]
  unfold andThen
  simp only [hopen, Bool.false_eq_true, if_false]
  rcases propagateRow g reason cons.row d with ⟨feasible, e⟩
  cases feasible <;> simp

open Deduction in
theorem LinearFamily.propagateAll_skip (f : LinearFamily K) {c : Nat}
    (hskip : ∀ cons, f.conss[c]? = some cons → (cons.deleted || cons.modifiable) = true) (rest : List Nat) (d : Deduction K) :
    f.propagateAll g reason d (c :: rest) = f.propagateAll g reason d rest := by
  rw [propagateAll]
  cases hcons : f.conss[c]? with
  | none => rfl
  | some cons => simp only [hskip cons hcons, if_true]

omit [Scalar K] in
theorem LinearFamily.open_or_skipped (f : LinearFamily K) (c : Nat) :
    (∃ cons, f.conss[c]? = some cons ∧ (cons.deleted || cons.modifiable) = false) ∨
      ∀ cons, f.conss[c]? = some cons → (cons.deleted || cons.modifiable) = true := by
  by_cases hskip : ∀ cons, f.conss[c]? = some cons → (cons.deleted || cons.modifiable) = true
  · exact .inr hskip
  · push Not at hskip
    obtain ⟨cons, hcons, hopen⟩ := hskip
    exact .inl ⟨cons, hcons, by simpa using hopen⟩

open Deduction in
theorem Sos1Family.zeroOthers_cons {keep v : VarId} (hne : v ≠ keep) (rest : List VarId) (d : Deduction K) :
    zeroOthers g reason keep d (v :: rest) =
      andThen (· ≠ .infeasible) (Deduction.tighten g reason · v .upper 0) (zeroOthers g reason keep · rest) d := by
  rw [zeroOthers, if_neg hne]
  unfold andThen
  rcases hfirst : Deduction.tighten g reason d v .upper 0 with ⟨outcome, e⟩
  cases outcome <;> simp [hfirst]

open Deduction in
theorem Sos1Family.propagateAll_cons (f : Sos1Family) (c : Nat) (rest : List Nat) (d : Deduction K) :
    f.propagateAll g reason d (c :: rest) =
      andThen (· = true) (propagateSet g reason · (f.members c)) (f.propagateAll g reason · rest) d := by
  rw [propagateAll]
  unfold andThen
  rcases hfirst : propagateSet g reason d (f.members c) with ⟨feasible, e⟩
  cases feasible <;> simp [hfirst]

/-- The verdict on a run. -/
def Deduction.judged (run : Deduction K → Bool × Deduction K) (d : Deduction K) : Verdict × Deduction K :=
  (if (run d).1 then d.verdict (run d).2 else .cutoff, (run d).2)

open Deduction in
theorem LinearFamily.propagate_judged (f : LinearFamily K) (conss : List Nat) (d : Deduction K) :
    f.propagate g reason d conss = judged (f.propagateAll g reason · conss) d := by
  unfold propagate judged
  rcases hall : f.propagateAll g reason d conss with ⟨feasible, after⟩
  cases feasible <;> simp [hall]

open Deduction in
theorem Sos1Family.propagate_judged (f : Sos1Family) (conss : List Nat) (d : Deduction K) :
    f.propagate g reason d conss = judged (f.propagateAll g reason · conss) d := by
  unfold propagate judged
  rcases hall : f.propagateAll g reason d conss with ⟨feasible, after⟩
  cases feasible <;> simp [hall]

/-! ## Runs of requests -/

/-- What feasible requests for variables of a set keep, with all that they imply, and what is
left of it after one that is not feasible. -/
structure KeptByDeductions (g : ImplicationGraph K) (reason : Reason) (S : VarId → Prop) (I I' : Deduction K → Prop) :
    Prop where
  feasible : ∀ d v kind value, S v → I d → (Deduction.tighten g reason d v kind value).1 ≠ .infeasible →
    I (Deduction.tighten g reason d v kind value).2
  infeasible : ∀ d v kind value, S v → I d → (Deduction.tighten g reason d v kind value).1 = .infeasible →
    I' (Deduction.tighten g reason d v kind value).2
  weaken : ∀ d, I d → I' d

/-- What is left after a run that was feasible, or was not. -/
def Leaves (I I' : Deduction K → Prop) (feasible : Prop) (d : Deduction K) : Prop := (feasible → I d) ∧ (¬ feasible → I' d)

omit [Scalar K] in
theorem Leaves.andThen {α : Type} {feasible : α → Prop} [DecidablePred feasible] {first : Deduction K → α × Deduction K}
    {second : Deduction K → Bool × Deduction K} {d : Deduction K} (hfirst : Leaves I I' (feasible (first d).1) (first d).2)
    (hsecond : ∀ e, I e → Leaves I I' ((second e).1 = true) (second e).2) :
    Leaves I I' ((Deduction.andThen feasible first second d).1 = true) (Deduction.andThen feasible first second d).2 := by
  unfold Deduction.andThen
  split
  · next hfeasible => exact hsecond _ (hfirst.1 hfeasible)
  · next hfailed => exact ⟨nofun, fun _ => hfirst.2 hfailed⟩

omit [Scalar K] in
theorem Leaves.judged {run : Deduction K → Bool × Deduction K} {d : Deduction K} (h : Leaves I I' ((run d).1 = true) (run d).2) :
    Leaves I I' ((Deduction.judged run d).1 ≠ .cutoff) (Deduction.judged run d).2 := by
  refine ⟨fun hok => h.1 ?_, fun hcut => h.2 fun hfeasible => hcut ?_⟩
  · by_contra hnot
    exact hok (if_neg hnot)
  · rw [Deduction.judged, if_pos hfeasible]
    exact d.verdict_ne_cutoff _

/-- What every applied request keeps, every run keeps, feasible or not. -/
theorem Deduction.KeptByRequests.deductions (hI : Deduction.KeptByRequests S I)
    (hg : ∀ v value, ∀ i ∈ g.implied v value, S i.var) (reason : Reason) : KeptByDeductions g reason S I I where
  feasible _ _ kind value hv hd _ := hI.tighten hg hv hd reason kind value
  infeasible _ _ kind value hv hd _ := hI.tighten hg hv hd reason kind value
  weaken _ hd := hd

namespace KeptByDeductions

variable (hI : KeptByDeductions g reason S I I') {d : Deduction K}

include hI

theorem request {v : VarId} (hv : S v) (hd : I d) (kind : BoundKind) (value : K) :
    Leaves I I' ((Deduction.tighten g reason d v kind value).1 ≠ .infeasible) (Deduction.tighten g reason d v kind value).2 :=
  ⟨hI.feasible d v kind value hv hd, fun h => hI.infeasible d v kind value hv hd (not_not.mp h)⟩

omit [Scalar K] hI in
theorem rest (hd : I d) : Leaves I I' (Tightening.redundant ≠ .infeasible) d :=
  ⟨fun _ => hd, fun h => absurd redundant_ne_infeasible h⟩

/-! ### Linear constraints -/

open LinearFamily

theorem tightenUpper {v : VarId} (hv : S v) (hd : I d) (bound : K) :
    Leaves I I' ((tightenUpper g reason d v bound).1 ≠ .infeasible) (tightenUpper g reason d v bound).2 := by
  unfold LinearFamily.tightenUpper
  split
  · exact rest hd
  · exact hI.request hv hd .upper bound

theorem tightenLower {v : VarId} (hv : S v) (hd : I d) (bound : K) :
    Leaves I I' ((tightenLower g reason d v bound).1 ≠ .infeasible) (tightenLower g reason d v bound).2 := by
  unfold LinearFamily.tightenLower
  split
  · exact rest hd
  · exact hI.request hv hd .lower bound

theorem propagateRhs {v : VarId} (hv : S v) (hd : I d) (row : Row K) (act : Activity K) (a lo : K) :
    Leaves I I' ((propagateRhs g reason row act d v a lo).1 ≠ .infeasible) (propagateRhs g reason row act d v a lo).2 := by
  unfold LinearFamily.propagateRhs
  split
  · split
    · dsimp only
      split
      · exact hI.tightenUpper hv hd _
      · exact hI.tightenLower hv hd _
    · exact rest hd
  · exact rest hd

theorem propagateLhs {v : VarId} (hv : S v) (hd : I d) (row : Row K) (act : Activity K) (a hi : K) :
    Leaves I I' ((propagateLhs g reason row act d v a hi).1 ≠ .infeasible) (propagateLhs g reason row act d v a hi).2 := by
  unfold LinearFamily.propagateLhs
  split
  · split
    · dsimp only
      split
      · exact hI.tightenLower hv hd _
      · exact hI.tightenUpper hv hd _
    · exact rest hd
  · exact rest hd

theorem propagateTerms (row : Row K) (act : Activity K) {terms : List (VarId × K)} (hterms : ∀ c ∈ terms, S c.1) (hd : I d) :
    Leaves I I' ((propagateTerms g reason row act d terms).1 = true) (propagateTerms g reason row act d terms).2 := by
  induction terms generalizing d with
  | nil => exact ⟨fun _ => hd, fun h => absurd rfl h⟩
  | cons term rest ih =>
    obtain ⟨v, a⟩ := term
    have hv : S v := hterms (v, a) (by simp)
    have hrest : ∀ c ∈ rest, S c.1 := fun c hc => hterms c (by simp [hc])
    rw [LinearFamily.propagateTerms_cons]
    refine (hI.propagateRhs hv hd row act a _).andThen fun e he => ?_
    exact (hI.propagateLhs hv he row act a _).andThen fun _ hlast => ih hrest hlast

theorem propagateRow {row : Row K} (hrow : ∀ c ∈ row.coefs, S c.1) (hd : I d) :
    Leaves I I' ((propagateRow g reason row d).1 = true) (propagateRow g reason row d).2 := by
  unfold LinearFamily.propagateRow
  dsimp only
  split
  · exact ⟨nofun, fun _ => hI.weaken d hd⟩
  · split
    · exact ⟨nofun, fun _ => hI.weaken d hd⟩
    · exact hI.propagateTerms row _ hrow hd

theorem linearAll (f : LinearFamily K) {conss : List Nat}
    (hconss : ∀ c ∈ conss, ∀ cons, f.conss[c]? = some cons → ∀ term ∈ cons.row.coefs, S term.1) (hd : I d) :
    Leaves I I' ((f.propagateAll g reason d conss).1 = true) (f.propagateAll g reason d conss).2 := by
  induction conss generalizing d with
  | nil => exact ⟨fun _ => hd, fun h => absurd rfl h⟩
  | cons c rest ih =>
    have hrest := fun c' (hc : c' ∈ rest) => hconss c' (by simp [hc])
    rcases f.open_or_skipped c with ⟨cons, hcons, hopen⟩ | hskip
    · rw [f.propagateAll_cons hcons hopen]
      exact (hI.propagateRow (hconss c (by simp) cons hcons) hd).andThen fun e he => ih hrest he
    · rw [f.propagateAll_skip hskip]
      exact ih hrest hd

theorem linear (f : LinearFamily K) {conss : List Nat}
    (hconss : ∀ c ∈ conss, ∀ cons, f.conss[c]? = some cons → ∀ term ∈ cons.row.coefs, S term.1) (hd : I d) :
    Leaves I I' ((f.propagate g reason d conss).1 ≠ .cutoff) (f.propagate g reason d conss).2 := by
  rw [f.propagate_judged]
  exact (hI.linearAll f hconss hd).judged

/-! ### Special ordered sets -/

theorem zeroOthers (keep : VarId) {vars : List VarId} (hvars : ∀ v ∈ vars, S v) (hd : I d) :
    Leaves I I' ((Sos1Family.zeroOthers g reason keep d vars).1 = true) (Sos1Family.zeroOthers g reason keep d vars).2 := by
  induction vars generalizing d with
  | nil => exact ⟨fun _ => hd, fun h => absurd rfl h⟩
  | cons v rest ih =>
    have hrest := fun w (hw : w ∈ rest) => hvars w (by simp [hw])
    by_cases hkeep : v = keep
    · rw [Sos1Family.zeroOthers, if_pos hkeep]
      exact ih hrest hd
    · rw [Sos1Family.zeroOthers_cons hkeep]
      exact (hI.request (hvars v (by simp)) hd .upper 0).andThen fun e he => ih hrest he

theorem propagateSet {vars : List VarId} (hvars : ∀ v ∈ vars, S v) (hd : I d) :
    Leaves I I' ((Sos1Family.propagateSet g reason d vars).1 = true) (Sos1Family.propagateSet g reason d vars).2 := by
  unfold Sos1Family.propagateSet
  split
  · exact ⟨fun _ => hd, fun h => absurd rfl h⟩
  · exact hI.zeroOthers _ hvars hd
  · exact ⟨nofun, fun _ => hI.weaken d hd⟩

theorem sos1All (f : Sos1Family) {conss : List Nat} (hconss : ∀ c ∈ conss, ∀ v ∈ f.members c, S v) (hd : I d) :
    Leaves I I' ((f.propagateAll g reason d conss).1 = true) (f.propagateAll g reason d conss).2 := by
  induction conss generalizing d with
  | nil => exact ⟨fun _ => hd, fun h => absurd rfl h⟩
  | cons c rest ih =>
    rw [f.propagateAll_cons]
    exact (hI.propagateSet (hconss c (by simp)) hd).andThen fun e he => ih (fun c' hc => hconss c' (by simp [hc])) he

theorem sos1 (f : Sos1Family) {conss : List Nat} (hconss : ∀ c ∈ conss, ∀ v ∈ f.members c, S v) (hd : I d) :
    Leaves I I' ((f.propagate g reason d conss).1 ≠ .cutoff) (f.propagate g reason d conss).2 := by
  rw [f.propagate_judged]
  exact (hI.sos1All f hconss hd).judged

end KeptByDeductions

/-! ## Built-in families -/

theorem LinearFamily.locks_vars {f : LinearFamily K} {c : Nat} {cons : LinearConstraint K} (hcons : f.conss[c]? = some cons)
    (hlocks : ∀ l ∈ f.locks c, S l.var) : ∀ term ∈ cons.row.coefs, S term.1 := by
  intro term hterm
  unfold locks at hlocks
  rw [hcons] at hlocks
  have hlock := hlocks _ (List.mem_map_of_mem hterm)
  revert hlock
  dsimp only
  split <;> exact id

theorem Sos1Family.locks_vars {f : Sos1Family} {c : Nat} (hlocks : ∀ l ∈ f.locks c, S l.var) : ∀ v ∈ f.members c, S v :=
  fun _ hv => hlocks _ (List.mem_map_of_mem hv)

namespace Handlers

variable {hs : Handlers K σ} {h : HandlerId} {conss : List Nat}

/-- What a built-in family deduces. -/
def deduce (hs : Handlers K σ) (g : ImplicationGraph K) (reason : Reason) (h : HandlerId) (conss : List Nat)
    (d : Deduction K) : Verdict × Deduction K :=
  match hs.which h with
  | .linear => hs.linear.propagate g reason d conss
  | .sos1 => hs.sos1.propagate g reason d conss
  | _ => (.nothing, d)

theorem propagate_deduce (hb : hs.custom = #[]) (d : Deduction K) (w : σ) :
    hs.propagate h conss g reason (d, w) = .ok (hs.deduce g reason h conss d).1 ((hs.deduce g reason h conss d).2, w) := by
  unfold propagate deduce
  cases hw : hs.which h with
  | custom handler => rcases h with _ | _ | h <;> simp [which, hb] at hw
  | _ => rfl

theorem deduce_leaves (hI : KeptByDeductions g reason S I I') {w : σ} (hlocks : ∀ c ∈ conss, ∀ l ∈ hs.locks w h c, S l.var)
    {d : Deduction K} (hd : I d) :
    Leaves I I' ((hs.deduce g reason h conss d).1 ≠ .cutoff) (hs.deduce g reason h conss d).2 := by
  unfold deduce
  unfold locks at hlocks
  cases hw : hs.which h with
  | linear =>
    rw [hw] at hlocks
    exact hI.linear hs.linear (fun c hc cons hcons => LinearFamily.locks_vars hcons (hlocks c hc)) hd
  | sos1 =>
    rw [hw] at hlocks
    exact hI.sos1 hs.sos1 (fun c hc => Sos1Family.locks_vars (hlocks c hc)) hd
  | custom => exact ⟨fun _ => hd, fun hcut => absurd nofun hcut⟩
  | unknown => exact ⟨fun _ => hd, fun hcut => absurd nofun hcut⟩

end Handlers

/-- What requests keep, a closure of the changes of a node keeps. -/
theorem Deduction.KeptByRequests.closeAll (hI : Deduction.KeptByRequests S I)
    (hg : ∀ v value, ∀ i ∈ g.implied v value, S i.var) {d : Deduction K} (hd : I d) (vars : List VarId) :
    I (Propagator.closeAll g d vars).2 := by
  induction vars generalizing d with
  | nil => exact hd
  | cons v rest ih =>
    have hclose := hI.closeImplications hg hd v
    unfold Propagator.closeAll
    split
    · next heq =>
      rw [heq] at hclose
      exact ih hclose
    · next heq =>
      rw [heq] at hclose
      exact hclose

/-! ## Stores reached by requests -/

namespace Domains.Moves

variable {d e f : Domains K}

theorem trans (h : d.Moves e) (h' : e.Moves f) : d.Moves f := Relation.ReflTransGen.trans h h'

theorem agree (h : d.Moves e) (hef : Agree e f) : d.Moves f := .tail h (.agree hef)

end Domains.Moves

theorem kept_moves (d : Domains K) : Deduction.KeptByRequests (fun _ => True) fun b : Deduction K => d.Moves b.domains where
  applied b v kind value reason new _ hjudge hb := by
    have hrequest := Move.request b.domains v kind value reason
    rw [tighten_of_applied hjudge] at hrequest
    exact hb.tail hrequest
  infeasible _ hb := hb
  exhausted _ hb := hb

omit [Scalar K] in
theorem Leaves.either {feasible : Prop} {d : Deduction K} (h : Leaves I I feasible d) : I d := by
  by_cases hf : feasible
  · exact h.1 hf
  · exact h.2 hf

/-! ## All families -/

/-- A family that changes domains by requests only. -/
def CustomHandler.Requests (handler : CustomHandler K σ) : Prop :=
  ∀ conss g reason (d : Deduction K) w, Ensures (handler.propagate conss g reason) (d, w)
    (fun _ s => d.domains.Moves s.1.domains) fun _ s => d.domains.Moves s.1.domains

namespace Propagator

theorem linear_moves (f : LinearFamily K) (conss : List Nat) (d : Deduction K) :
    d.domains.Moves (f.propagate g reason d conss).2.domains := by
  have hkept := (kept_moves d.domains).deductions (g := g) (fun _ _ _ _ => trivial) reason
  have hrun := hkept.linear f (fun c (_ : c ∈ conss) _ _ _ _ => trivial) (.refl : d.domains.Moves d.domains)
  exact hrun.either

theorem sos1_moves (f : Sos1Family) (conss : List Nat) (d : Deduction K) :
    d.domains.Moves (f.propagate g reason d conss).2.domains := by
  have hkept := (kept_moves d.domains).deductions (g := g) (fun _ _ _ _ => trivial) reason
  have hrun := hkept.sos1 f (fun c (_ : c ∈ conss) _ _ => trivial) (.refl : d.domains.Moves d.domains)
  exact hrun.either

variable {hs : Handlers K σ} (hrequests : ∀ handler ∈ hs.custom, handler.Requests)

include hrequests

theorem propagate_moves (h : HandlerId) (conss : List Nat) (d : Deduction K) (w : σ) :
    Ensures (hs.propagate h conss g reason) (d, w) (fun _ s => d.domains.Moves s.1.domains)
      fun _ s => d.domains.Moves s.1.domains := by
  unfold Handlers.propagate
  cases hw : hs.which h with
  | linear => exact .modifyGet (linear_moves ..)
  | sos1 => exact .modifyGet (sos1_moves ..)
  | custom handler =>
    refine hrequests handler ?_ conss g reason d w
    rcases h with _ | _ | h
    · cases hw
    · cases hw
    · unfold Handlers.which at hw
      dsimp only at hw
      split at hw
      · next hmem =>
        cases hw
        exact Array.mem_of_getElem? hmem
      · cases hw
  | unknown => exact .pure .refl

theorem runFamily_moves (h : HandlerId) (conss : List Nat) (d : Domains K) (w : σ) :
    Ensures (runFamily hs g h conss) (d, w) (fun _ s => d.Moves s.1) fun _ s => d.Moves s.1 := by
  have hmoves : Ensures (hs.propagate h conss g (.propagation h)) ({ domains := d }, w) (fun _ s => d.Moves s.1.domains)
      fun _ s => d.Moves s.1.domains := propagate_moves hrequests ..
  unfold Ensures at hmoves
  unfold Ensures runFamily
  dsimp only
  cases heq : hs.propagate h conss g (.propagation h) ({ domains := d }, w) with
  | ok verdict after =>
    rw [heq] at hmoves
    dsimp only
    by_cases hexhausted : after.1.exhausted = true
    · rw [if_pos hexhausted]
      exact hmoves
    · rw [if_neg hexhausted]
      exact hmoves
  | error e after =>
    rw [heq] at hmoves
    exact hmoves

theorem pass_moves (p : Propagator) (r : Registry) (order : List HandlerId) (dirty : Array Bool) (out : Propagated)
    (d : Domains K) (w : σ) :
    Ensures (p.pass hs r g dirty out order) (d, w) (fun _ s => d.Moves s.1) fun _ s => d.Moves s.1 := by
  induction order generalizing d w dirty out with
  | nil => exact .pure .refl
  | cons h rest ih =>
    unfold pass
    split
    · exact ih ..
    · dsimp only
      split
      · exact ih ..
      · refine .bind_mono (runFamily_moves hrequests h _ d w) ?_
        rintro ⟨cutoff, reductions⟩ ⟨e, w'⟩ hmoves
        dsimp only
        split
        · exact .bind (.modify (.pure (hmoves.agree rfl)))
        · have hdrained : d.Moves e.drainPending.2 := hmoves.agree rfl
          exact .bind (.modifyGet ((ih _ _ e.drainPending.2 w').mono (fun _ _ ht => hdrained.trans ht)
            fun _ _ ht => hdrained.trans ht))

theorem passes_moves (p : Propagator) (r : Registry) (dirty : Array Bool) (out : Propagated) (fuel : Nat)
    (d : Domains K) (w : σ) :
    Ensures (p.passes hs r g dirty out fuel) (d, w) (fun _ s => d.Moves s.1) fun _ s => d.Moves s.1 := by
  induction fuel generalizing d w dirty out with
  | zero => exact .throw .refl
  | succ fuel ih =>
    unfold passes
    split
    · exact .pure .refl
    · refine .bind_mono (pass_moves hrequests p r ..) ?_
      rintro ⟨dirty', out'⟩ ⟨e, w'⟩ hmoves
      dsimp only
      split
      · exact .pure hmoves
      · exact (ih _ _ e w').mono (fun _ _ ht => hmoves.trans ht) fun _ _ ht => hmoves.trans ht

/-- **Propagation changes domains by requests only,** whether it ends or fails. -/
theorem run_moves (p : Propagator) (r : Registry) (fuel : Nat) (d : Domains K) (w : σ) :
    Ensures (p.run hs r g fuel) (d, w) (fun _ s => d.Moves s.1) fun _ s => d.Moves s.1 := by
  have hclose : d.Moves (closeAll g { domains := d } (d.focusDelta.map BoundChange.var)).2.domains :=
    (kept_moves d).closeAll (fun _ _ _ _ => trivial) (d := { domains := d }) .refl _
  have hcleared := hclose.agree (f := (closeAll g { domains := d } (d.focusDelta.map BoundChange.var)).2.domains.clearPending) rfl
  unfold run
  refine .bind (.modifyGet ?_)
  dsimp only
  split
  · exact .bind (.throw hclose)
  · refine .bind (.modify ?_)
    split
    · exact (passes_moves hrequests p r ..).mono (fun _ _ ht => hcleared.trans ht) fun _ _ ht => hcleared.trans ht
    · exact .pure hcleared

end Propagator

end BranchAndCut
