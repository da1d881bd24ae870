import BranchAndCut.Domain.Deduction
import BranchAndCut.Proofs.Domain.Calls

/-! # What deductions add to a store

However a bound is deduced, it is requested of the store. What every applied request keeps,
a request with all that it implies keeps. An applied request adds one change, to the records
of the active node and to the pending notices, and one to the count of reductions, and it
touches no other variable. -/

namespace BranchAndCut

variable {K : Type} [Scalar K]

/-- What a fixing implies comes from an implication, or from a clique that the variable is in. -/
theorem ImplicationGraph.implied_cases {g : ImplicationGraph K} {v : VarId} {value : Bool} {i : Implication K}
    (hi : i ∈ g.implied v value) : (∃ e ∈ g.implications, e.1 = (v, value) ∧ e.2 = i) ∨
      value = true ∧ ∃ members ∈ g.cliques, v ∈ members ∧ ∃ w ∈ members, w ≠ v ∧ ⟨w, .upper, 0⟩ = i := by
  unfold implied at hi
  cases value with
  | false =>
    obtain ⟨⟨trigger, i'⟩, hmem, heq⟩ := List.mem_filterMap.mp hi
    exact .inl ⟨(trigger, i'), Array.mem_toList_iff.mp hmem, by simpa using heq⟩
  | true =>
    rcases List.mem_append.mp hi with hi | hi
    · obtain ⟨⟨trigger, i'⟩, hmem, heq⟩ := List.mem_filterMap.mp hi
      exact .inl ⟨(trigger, i'), Array.mem_toList_iff.mp hmem, by simpa using heq⟩
    · obtain ⟨members, hmembers, hi⟩ := List.mem_flatMap.mp hi
      obtain ⟨w, hw, heq⟩ := List.mem_map.mp hi
      obtain ⟨hclique, hcontains⟩ := List.mem_filter.mp hmembers
      obtain ⟨hmem, hne⟩ := List.mem_filter.mp hw
      exact .inr ⟨rfl, members, Array.mem_toList_iff.mp hclique, by simpa using hcontains, w, hmem, by simpa using hne, heq⟩

namespace Domains

variable {d e f : Domains K} {cs cs' : List (BoundChange K)} {v : VarId} {kind : BoundKind} {value new : K} {reason : Reason}

/-- What a request comes to. -/
theorem tighten_cases (d : Domains K) (v : VarId) (kind : BoundKind) (value : K) (reason : Reason) :
    (∃ new, d.judge v kind value = (.applied, new) ∧ d.tighten v kind value reason = (.applied, d.record v kind new reason)) ∨
      ((d.judge v kind value).1 = .redundant ∧ d.tighten v kind value reason = (.redundant, d)) ∨
      ((d.judge v kind value).1 = .infeasible ∧ d.tighten v kind value reason = (.infeasible, d)) := by
  unfold Domains.tighten
  rcases d.judge v kind value with ⟨outcome, new⟩
  cases outcome with
  | applied => exact .inl ⟨new, rfl, rfl⟩
  | redundant => exact .inr (.inl ⟨rfl, rfl⟩)
  | infeasible => exact .inr (.inr ⟨rfl, rfl⟩)

theorem tighten_of_applied {d : Domains K} (h : d.judge v kind value = (.applied, new)) (reason : Reason) :
    d.tighten v kind value reason = (.applied, d.record v kind new reason) := by
  unfold Domains.tighten
  rw [h]

/-- Puts changes on top of those of the active node. -/
def note (cs : List (BoundChange K)) : List (Frame K) → List (Frame K)
  | [] => []
  | f :: fs => { f with changes := cs ++ f.changes } :: fs

/-- A variable has the same bounds in both stores. -/
structure SameBounds (v : VarId) (d e : Domains K) : Prop where
  lb : e.lb v = d.lb v
  ub : e.ub v = d.ub v
  globalLb : e.globalLb v = d.globalLb v
  globalUb : e.globalUb v = d.globalUb v

/-- The second store has some changes on top of the first one, the newest first, and is the
same apart from the variables changed. -/
structure Extends (cs : List (BoundChange K)) (d e : Domains K) : Prop where
  frames : e.frames = note cs d.frames
  pending : e.pending = cs.map (fun c => (c.var, c.kind)) ++ d.pending
  others : ∀ v, (∀ c ∈ cs, c.var ≠ v) → SameBounds v d e
  numVars : e.numVars = d.numVars
  integral : e.integral = d.integral
  tol : e.tol = d.tol

theorem Extends.refl (d : Domains K) : Extends [] d d := by
  refine ⟨?_, rfl, fun v _ => ⟨rfl, rfl, rfl, rfl⟩, rfl, rfl, rfl⟩
  cases d.frames <;> rfl

theorem Extends.trans (h : Extends cs d e) (h' : Extends cs' e f) : Extends (cs' ++ cs) d f := by
  refine ⟨?_, ?_, fun v hv => ?_, h'.numVars.trans h.numVars, h'.integral.trans h.integral, h'.tol.trans h.tol⟩
  · rw [h'.frames, h.frames]
    cases d.frames with
    | nil => rfl
    | cons f fs => simp [note]
  · rw [h'.pending, h.pending]
    simp
  · obtain ⟨hlb, hub, hglb, hgub⟩ := h.others v fun c hc => hv c (by simp [hc])
    obtain ⟨hlb', hub', hglb', hgub'⟩ := h'.others v fun c hc => hv c (by simp [hc])
    exact ⟨hlb'.trans hlb, hub'.trans hub, hglb'.trans hglb, hgub'.trans hgub⟩

theorem record_pending (d : Domains K) (v : VarId) (kind : BoundKind) (new : K) (reason : Reason) :
    (d.record v kind new reason).pending = (v, kind) :: d.pending := by
  cases kind <;> cases hroot : d.atRoot <;> simp [Domains.record, hroot]

/-- A recorded bound is one change. -/
theorem extends_record (d : Domains K) (v : VarId) (kind : BoundKind) (new : K) (reason : Reason) :
    Extends [⟨v, kind, d.bound v kind, new, reason⟩] d (d.record v kind new reason) := by
  refine ⟨?_, record_pending d v kind new reason, fun w hw => ?_, record_numVars .., record_integral .., record_tol ..⟩
  · rw [record_frames]
    cases d.frames <;> rfl
  · have hwv : w ≠ v := (hw _ (List.mem_singleton_self _)).symm
    refine ⟨?_, ?_, ?_, ?_⟩
    · rw [lb_record, if_neg fun h => hwv h.2.1]
    · rw [ub_record, if_neg fun h => hwv h.2.1]
    · rw [globalLb_record, if_neg fun h => hwv h.2.2.1]
    · rw [globalUb_record, if_neg fun h => hwv h.2.2.1]

end Domains

namespace Deduction

variable {g : ImplicationGraph K} {reason : Reason} {S : VarId → Prop} {I : Deduction K → Prop} {a b c : Deduction K}

open Domains

/-- The deduction after a request that is applied. -/
def applied (d : Deduction K) (v : VarId) (kind : BoundKind) (new : K) (reason : Reason) : Deduction K :=
  { d with domains := d.domains.record v kind new reason, reductions := d.reductions + 1 }

/-- The stack with a variable that has become fixed. -/
def pushFixing (d : Domains K) (v : VarId) (stack : List (VarId × Bool)) : List (VarId × Bool) :=
  match binaryFixing? d v with
  | some value => (v, value) :: stack
  | none => stack

/-- What the first of some implied bounds comes to. -/
theorem applyImplied_cons (d : Deduction K) (stack : List (VarId × Bool)) (i : Implication K) (rest : List (Implication K)) :
    (∃ new, d.domains.judge i.var i.kind i.value = (.applied, new) ∧
      d.applyImplied stack (i :: rest) = (d.applied i.var i.kind new .implication).applyImplied
        (pushFixing (d.domains.record i.var i.kind new .implication) i.var stack) rest) ∨
    ((d.domains.judge i.var i.kind i.value).1 = .redundant ∧
      d.applyImplied stack (i :: rest) = d.applyImplied stack rest) ∨
    ((d.domains.judge i.var i.kind i.value).1 = .infeasible ∧
      d.applyImplied stack (i :: rest) = (false, { d with infeasible := true }, stack)) := by
  rw [applyImplied]
  rcases d.domains.tighten_cases i.var i.kind i.value .implication with ⟨new, hjudge, heq⟩ | ⟨hjudge, heq⟩ | ⟨hjudge, heq⟩
  · exact .inl ⟨new, hjudge, by rw [heq]; rfl⟩
  · exact .inr (.inl ⟨hjudge, by rw [heq]⟩)
  · exact .inr (.inr ⟨hjudge, by rw [heq]⟩)

/-- What a request with its closure comes to. -/
theorem tighten_cases (g : ImplicationGraph K) (reason : Reason) (d : Deduction K) (v : VarId) (kind : BoundKind) (value : K) :
    (∃ new, d.domains.judge v kind value = (.applied, new) ∧
      tighten g reason d v kind value =
        (if (closeImplications g (d.applied v kind new reason) v).1 then .applied else .infeasible,
          (closeImplications g (d.applied v kind new reason) v).2)) ∨
    ((d.domains.judge v kind value).1 = .redundant ∧ tighten g reason d v kind value = (.redundant, d)) ∨
    ((d.domains.judge v kind value).1 = .infeasible ∧
      tighten g reason d v kind value = (.infeasible, { d with infeasible := true })) := by
  unfold tighten
  rcases d.domains.tighten_cases v kind value reason with ⟨new, hjudge, heq⟩ | ⟨hjudge, heq⟩ | ⟨hjudge, heq⟩
  · refine .inl ⟨new, hjudge, ?_⟩
    rw [heq]
    dsimp only
    rw [← applied]
    rcases closeImplications g (d.applied v kind new reason) v with ⟨feasible, d'⟩
    cases feasible <;> rfl
  · exact .inr (.inl ⟨hjudge, by rw [heq]⟩)
  · exact .inr (.inr ⟨hjudge, by rw [heq]⟩)

omit [Scalar K] in
theorem verdict_ne_cutoff (a b : Deduction K) : a.verdict b ≠ .cutoff := by
  unfold verdict
  split <;> nofun

/-! ## Properties kept by requests -/

/-- A property of deductions that every applied request for a variable of a set keeps. -/
structure KeptByRequests (S : VarId → Prop) (I : Deduction K → Prop) : Prop where
  applied : ∀ d v kind value reason new, S v → d.domains.judge v kind value = (.applied, new) → I d →
    I (d.applied v kind new reason)
  infeasible : ∀ d, I d → I { d with infeasible := true }
  exhausted : ∀ d, I d → I { d with exhausted := true }

section Kept

variable (hI : KeptByRequests S I) (hg : ∀ v value, ∀ i ∈ g.implied v value, S i.var)

include hI

theorem KeptByRequests.applyImplied {d : Deduction K} {stack : List (VarId × Bool)} {is : List (Implication K)}
    (his : ∀ i ∈ is, S i.var) (hd : I d) : I (d.applyImplied stack is).2.1 := by
  induction is generalizing d stack with
  | nil => exact hd
  | cons i rest ih =>
    have hrest : ∀ j ∈ rest, S j.var := fun j hj => his j (by simp [hj])
    rcases applyImplied_cons d stack i rest with ⟨new, hjudge, heq⟩ | ⟨-, heq⟩ | ⟨-, heq⟩
    · rw [heq]
      exact ih hrest (hI.applied d i.var i.kind i.value .implication new (his i (by simp)) hjudge hd)
    · rw [heq]
      exact ih hrest hd
    · rw [heq]
      exact hI.infeasible d hd

include hg

theorem KeptByRequests.closeStack {d : Deduction K} {stack : List (VarId × Bool)} (hd : I d) (fuel : Nat) :
    I (d.closeStack g stack fuel).2 := by
  induction fuel generalizing d stack with
  | zero => exact hI.exhausted d hd
  | succ fuel ih =>
    cases stack with
    | nil => exact hd
    | cons e stack =>
      obtain ⟨v, value⟩ := e
      have hnext : I (d.applyImplied stack (g.implied v value)).2.1 := hI.applyImplied (hg v value) hd
      rw [Deduction.closeStack]
      split
      · next heq =>
        rw [heq] at hnext
        exact ih hnext
      · next heq =>
        rw [heq] at hnext
        exact hnext

theorem KeptByRequests.closeImplications {d : Deduction K} (hd : I d) (v : VarId) : I (closeImplications g d v).2 := by
  unfold Deduction.closeImplications
  split
  · exact hd
  · split
    · exact hd
    · exact hI.closeStack hg hd _

/-- **A request with all that it implies** keeps what applied requests keep. -/
theorem KeptByRequests.tighten {d : Deduction K} {v : VarId} (hv : S v) (hd : I d) (reason : Reason) (kind : BoundKind)
    (value : K) : I (tighten g reason d v kind value).2 := by
  rcases tighten_cases g reason d v kind value with ⟨new, hjudge, heq⟩ | ⟨-, heq⟩ | ⟨-, heq⟩
  · rw [heq]
    exact hI.closeImplications hg (hI.applied d v kind value reason new hv hjudge hd) v
  · rw [heq]
    exact hd
  · rw [heq]
    exact hI.infeasible d hd

theorem KeptByRequests.fix {d : Deduction K} {v : VarId} (hv : S v) (hd : I d) (reason : Reason) (value : K) :
    I (fix g reason d v value).2 := by
  have hlow := hI.tighten hg hv hd reason .lower value
  unfold Deduction.fix
  split
  · next heq =>
    rw [heq] at hlow
    exact hlow
  · next heq =>
    rw [heq] at hlow
    have hhigh := hI.tighten hg hv hlow reason .upper value
    split
    · next heq' =>
      rw [heq'] at hhigh
      exact hhigh
    · next heq' =>
      rw [heq'] at hhigh
      exact hhigh

end Kept

/-! ## Changes and reductions -/

/-- The second deduction has some changes on top of the first, and counts each of them. -/
def Adds (a b : Deduction K) : Prop :=
  ∃ cs, Extends cs a.domains b.domains ∧ b.reductions = a.reductions + cs.length

theorem Adds.refl (a : Deduction K) : Adds a a := ⟨[], .refl a.domains, rfl⟩

theorem Adds.trans (h : Adds a b) (h' : Adds b c) : Adds a c := by
  obtain ⟨cs, hcs, hcount⟩ := h
  obtain ⟨cs', hcs', hcount'⟩ := h'
  refine ⟨cs' ++ cs, hcs.trans hcs', ?_⟩
  rw [hcount', hcount, List.length_append]
  omega

/-- Each applied request is one change and one reduction. -/
theorem kept_adds (a : Deduction K) : KeptByRequests (fun _ => True) (Adds a) where
  applied d v kind _ reason new _ _ h := h.trans ⟨_, extends_record d.domains v kind new reason, rfl⟩
  infeasible _ h := h
  exhausted _ h := h

end Deduction

end BranchAndCut
