import BranchAndCut.Constraint.Sos1
import BranchAndCut.Proofs.Domain.Closure

/-! # Propagation of special ordered sets

A member whose lower bound is positive is nonzero at every point of the domain,
so all the others are zero at the points of the set. -/

namespace BranchAndCut

/-- At most one member of a set is nonzero at a point. -/
def Sos1Constraint.Holds (vars : List VarId) (p : Point) : Prop :=
  vars.Pairwise fun v w => p.coord v = 0 ∨ p.coord w = 0

namespace Sos1Family

variable [Rooted ℚ] {g : ImplicationGraph (Exact ℚ)} {P : Set Point} {p : Point}
  {d : Deduction (Exact ℚ)} {reason : Reason}

theorem zeroOthers_follows (hP : Deduction.Candidates g P d.domains) {keep : VarId}
    {vars : List VarId} (hzero : ∀ v ∈ vars, v ≠ keep → ∀ p ∈ P, p.coord v = 0) :
    Deduction.Follows P d (zeroOthers g reason keep d vars).2 ∧
      ((zeroOthers g reason keep d vars).1 = false → P = ∅) := by
  induction vars generalizing d with
  | nil => exact ⟨.refl d, nofun⟩
  | cons v rest ih =>
    have hrest : ∀ w ∈ rest, w ≠ keep → ∀ p ∈ P, p.coord w = 0 := fun w hw => hzero w (by simp [hw])
    unfold zeroOthers
    split
    · exact ih hP hrest
    · next hne =>
      have hvalue : ∀ p ∈ P, BoundKind.upper.Admits (0 : Exact ℚ) (p.coord v) := by
        intro p hp
        rw [hzero v (by simp) hne p hp, Exact.zero_def]
        exact le_refl (0 : ℚ)
      obtain ⟨hfollows, hempty⟩ := Deduction.tighten_follows hP reason hvalue
      cases ht : Deduction.tighten g reason d v .upper 0 with
      | mk outcome e =>
        rw [ht] at hfollows hempty
        cases outcome with
        | infeasible => exact ⟨hfollows, fun _ => hempty rfl⟩
        | _ =>
          obtain ⟨hfollows', hempty'⟩ := ih (hP.tightens hfollows.domains) hrest
          exact ⟨hfollows.trans hfollows', hempty'⟩

theorem nonzero_of_lb_pos (hp : d.domains.Encloses p) {v : VarId} (hv : (0 : Exact ℚ) < d.lb v) :
    p.coord v ≠ 0 := by
  have hpos := Exact.lt_of_lt_of_le' hv (hp.lower v)
  rw [Exact.zero_def, Exact.fin_lt] at hpos
  exact hpos.ne'

/-- **Propagating a set loses no point with at most one nonzero member.** -/
theorem propagateSet_follows (hP : Deduction.Candidates g P d.domains) {vars : List VarId}
    (hholds : ∀ p ∈ P, Sos1Constraint.Holds vars p) (reason : Reason) :
    Deduction.Follows P d (propagateSet g reason d vars).2 ∧
      ((propagateSet g reason d vars).1 = false → P = ∅) := by
  have hpos : ∀ v ∈ vars.filter (fun v => decide ((0 : Exact ℚ) < d.lb v)),
      v ∈ vars ∧ ∀ p ∈ P, p.coord v ≠ 0 := by
    intro v hv
    obtain ⟨hmem, hlb⟩ := List.mem_filter.mp hv
    exact ⟨hmem, fun p hp => nonzero_of_lb_pos (hP.encloses p hp) (by simpa using hlb)⟩
  unfold propagateSet
  cases hf : vars.filter fun v => decide ((0 : Exact ℚ) < d.lb v) with
  | nil => exact ⟨.refl d, nofun⟩
  | cons keep rest =>
    obtain ⟨hkeep, hkeepPos⟩ := hpos keep (by simp [hf])
    cases rest with
    | nil =>
      refine zeroOthers_follows hP fun v hv hne p hp => ?_
      have : Std.Symm fun v w => p.coord v = 0 ∨ p.coord w = 0 := ⟨fun _ _ => Or.symm⟩
      exact ((hholds p hp).forall hv hkeep hne).resolve_right (hkeepPos p hp)
    | cons other rest =>
      refine ⟨.refl d, fun _ => Set.eq_empty_iff_forall_notMem.mpr fun p hp => ?_⟩
      have hpair := (hholds p hp).filter fun v => decide ((0 : Exact ℚ) < d.lb v)
      rw [hf] at hpair
      rcases (List.pairwise_cons.mp hpair).1 other (by simp) with h | h
      · exact hkeepPos p hp h
      · exact (hpos other (by simp [hf])).2 p hp h

/-! ## The family -/

theorem propagateAll_follows {f : Sos1Family} (hP : Deduction.Candidates g P d.domains)
    (reason : Reason) {conss : List Nat}
    (hholds : ∀ c ∈ conss, ∀ p ∈ P, Sos1Constraint.Holds (f.members c) p) :
    Deduction.Follows P d (f.propagateAll g reason d conss).2 ∧
      ((f.propagateAll g reason d conss).1 = false → P = ∅) := by
  induction conss generalizing d with
  | nil => exact ⟨.refl d, nofun⟩
  | cons c rest ih =>
    obtain ⟨hfollows, hempty⟩ := propagateSet_follows hP (hholds c (by simp)) reason
    unfold propagateAll
    cases hr : propagateSet g reason d (f.members c) with
    | mk feasible e =>
      rw [hr] at hfollows hempty
      cases feasible with
      | false => exact ⟨hfollows, hempty⟩
      | true =>
        obtain ⟨hfollows', hempty'⟩ := ih (hP.tightens hfollows.domains)
          fun c hc => hholds c (by simp [hc])
        exact ⟨hfollows.trans hfollows', hempty'⟩

theorem propagate_follows {f : Sos1Family} (hP : Deduction.Candidates g P d.domains)
    (reason : Reason) {conss : List Nat}
    (hholds : ∀ c ∈ conss, ∀ p ∈ P, Sos1Constraint.Holds (f.members c) p) :
    Deduction.Follows P d (f.propagate g reason d conss).2 ∧
      ((f.propagate g reason d conss).1 = .cutoff → P = ∅) := by
  obtain ⟨hfollows, hempty⟩ := propagateAll_follows hP reason hholds
  unfold propagate
  cases hr : f.propagateAll g reason d conss with
  | mk feasible e =>
    rw [hr] at hfollows hempty
    cases feasible with
    | false => exact ⟨hfollows, fun _ => hempty rfl⟩
    | true => exact ⟨hfollows, fun h => (Deduction.verdict_ne_cutoff d e h).elim⟩

end Sos1Family

end BranchAndCut
