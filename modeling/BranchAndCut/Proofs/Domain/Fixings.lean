import Mathlib.Data.Finset.Card
import BranchAndCut.Proofs.Domain.Additions

/-! # Following fixings

A variable that becomes fixed goes on the stack and is followed: all that its fixing
implies is requested. Where what has been requested stays in force and a variable that is
fixed is not changed any more, each variable goes on the stack at most once, so that the
closure ends, also where implications run in circles, and nothing implied is left out. -/

namespace BranchAndCut

namespace ImplicationGraph

theorem implied_of_isEmpty {K : Type} [Scalar K] {g : ImplicationGraph K} (h : g.isEmpty = true) (v : VarId)
    (value : Bool) : g.implied v value = [] := by
  obtain ⟨himplications, hcliques⟩ := Bool.and_eq_true_iff.mp h
  have hnone : g.implications = #[] := by simpa using himplications
  have hno : g.cliques = #[] := by simpa using hcliques
  unfold implied
  rw [hnone, hno]
  cases value <;> rfl

/-- Bounds are implied on variables that exist only. -/
structure InRange {K : Type} (g : ImplicationGraph K) (n : Nat) : Prop where
  implications : ∀ e ∈ g.implications, e.2.var < n
  cliques : ∀ members ∈ g.cliques, ∀ w ∈ members, w < n

theorem InRange.implied {K : Type} [Scalar K] {g : ImplicationGraph K} {n : Nat} (h : g.InRange n) (v : VarId)
    (value : Bool) : ∀ i ∈ g.implied v value, i.var < n := by
  intro i hi
  rcases implied_cases hi with ⟨e, he, -, rfl⟩ | ⟨-, members, hclique, -, w, hw, -, rfl⟩
  · exact h.implications e he
  · exact h.cliques members hclique w hw

end ImplicationGraph

namespace Deduction

open Domains

/-! ## Following fixings -/

section Follow

variable {K : Type} [Scalar K] {g : ImplicationGraph K} {n : Nat} {J : Domains K → Prop} {W : Domains K → VarId → Prop}
  {U : Domains K → Implication K → Prop} {stack : List (VarId × Bool)} {is : List (Implication K)}

theorem binaryFixing_congr {v : VarId} {d e : Domains K} (h : SameBounds v d e) (hintegral : e.integral = d.integral) :
    binaryFixing? e v = binaryFixing? d v := by
  have hint : e.isIntegral v = d.isIntegral v := congrArg (fun integral => integral.getD v false) hintegral
  unfold binaryFixing?
  rw [h.lb, h.ub, h.globalLb, h.globalUb, hint]

theorem binaryFixing_record {v w : VarId} (hw : w ≠ v) (d : Domains K) (kind : BoundKind) (new : K) (reason : Reason) :
    binaryFixing? (d.record v kind new reason) w = binaryFixing? d w := by
  have hextends := extends_record d v kind new reason
  refine binaryFixing_congr (hextends.others w fun c hc => ?_) hextends.integral
  rw [List.mem_singleton.mp hc]
  exact hw.symm

/-- What following fixings relies on: `J` holds of the stores on the way and keeps what is
fixed from being changed, and `U` says of implied bounds that they are in force. -/
structure Followable (g : ImplicationGraph K) (n : Nat) (J : Domains K → Prop) (W : Domains K → VarId → Prop)
    (U : Domains K → Implication K → Prop) : Prop where
  numVars : ∀ d, J d → d.numVars = n
  graph : g.InRange n
  keeps : ∀ d v kind value new reason, J d → v < n → d.judge v kind value = (.applied, new) → J (d.record v kind new reason)
  fixed : ∀ d v kind value, J d → binaryFixing? d v ≠ none → (d.judge v kind value).1 ≠ .applied
  stays : ∀ d v kind value new reason i, J d → v < n → d.judge v kind value = (.applied, new) → U d i →
    U (d.record v kind new reason) i
  reached : ∀ d i new, J d → i.var < n → d.judge i.var i.kind i.value = (.applied, new) →
    U (d.record i.var i.kind new .implication) i
  redundant : ∀ d i, J d → (d.judge i.var i.kind i.value).1 = .redundant → U d i
  watched : ∀ d v w kind new reason, W (d.record v kind new reason) w → W d w ∨ w = v

/-- Of each fixed variable that is watched all that it implies is in force or still to be
requested, or it is on the stack. -/
def Covers (g : ImplicationGraph K) (W : Domains K → VarId → Prop) (U : Domains K → Implication K → Prop) (d : Domains K)
    (stack : List (VarId × Bool)) (is : List (Implication K)) : Prop :=
  ∀ v value, W d v → binaryFixing? d v = some value → (v, value) ∈ stack ∨ ∀ i ∈ g.implied v value, U d i ∨ i ∈ is

theorem Covers.settled {d : Domains K} (h : Covers g W U d [] []) {v : VarId} {value : Bool} (hv : W d v)
    (hfix : binaryFixing? d v = some value) : ∀ i ∈ g.implied v value, U d i := by
  intro i hi
  rcases h v value hv hfix with hmem | hsettled
  · exact absurd hmem List.not_mem_nil
  · exact (hsettled i hi).resolve_right List.not_mem_nil

/-- The variables that may still become fixed. -/
def unfixed (n : Nat) (d : Domains K) : Finset VarId := (Finset.range n).filter fun v => binaryFixing? d v = none

/-- A variable goes on the stack when it gets fixed, and then it is not counted as unfixed any
more. -/
theorem unfixed_record {d : Domains K} {v : VarId} (hv : v < n) (hnone : binaryFixing? d v = none) (kind : BoundKind)
    (new : K) (reason : Reason) (stack : List (VarId × Bool)) :
    (pushFixing (d.record v kind new reason) v stack).length + (unfixed n (d.record v kind new reason)).card =
      stack.length + (unfixed n d).card := by
  have hmem : v ∈ unfixed n d := by simp [unfixed, hv, hnone]
  have hother : ∀ w, w ≠ v → (w ∈ unfixed n (d.record v kind new reason) ↔ w ∈ unfixed n d) := fun w hw => by
    simp [unfixed, binaryFixing_record hw]
  unfold pushFixing
  cases hfix : binaryFixing? (d.record v kind new reason) v with
  | none =>
    have hsame : unfixed n (d.record v kind new reason) = unfixed n d := by
      ext w
      by_cases hw : w = v
      · subst hw
        simp [unfixed, hv, hnone, hfix]
      · exact hother w hw
    rw [hsame]
  | some value =>
    have herase : unfixed n (d.record v kind new reason) = (unfixed n d).erase v := by
      ext w
      by_cases hw : w = v
      · subst hw
        simp [unfixed, hfix]
      · rw [hother w hw, Finset.mem_erase]
        exact ⟨fun h => ⟨hw, h⟩, fun h => h.2⟩
    rw [herase, Finset.card_erase_of_mem hmem, List.length_cons]
    have hpos := Finset.card_pos.mpr ⟨v, hmem⟩
    omega

variable (hF : Followable g n J W U)

include hF

/-- An applied request leaves fixings covered, if its own variable goes on the stack. -/
theorem Followable.covers_push {d : Domains K} {v : VarId} {kind : BoundKind} {new : K} {reason : Reason}
    (hcovers : ∀ w b, w ≠ v → W d w → binaryFixing? d w = some b →
      (w, b) ∈ stack ∨ ∀ i ∈ g.implied w b, U (d.record v kind new reason) i ∨ i ∈ is) :
    Covers g W U (d.record v kind new reason) (pushFixing (d.record v kind new reason) v stack) is := by
  intro w b hw hfix
  unfold pushFixing
  by_cases hwv : w = v
  · subst hwv
    rw [hfix]
    exact .inl List.mem_cons_self
  · have hwatched : W d w := (hF.watched d v w kind new reason hw).resolve_right hwv
    rw [binaryFixing_record hwv] at hfix
    rcases hcovers w b hwv hwatched hfix with hmem | hsettled
    · left
      split
      · exact List.mem_cons_of_mem _ hmem
      · exact hmem
    · exact .inr hsettled

/-- **Requesting what is implied** settles it, and leaves on the stack what it fixes. -/
theorem Followable.applyImplied {d : Deduction K} (hd : J d.domains) (his : ∀ i ∈ is, i.var < n)
    (hcovers : Covers g W U d.domains stack is) :
    J (d.applyImplied stack is).2.1.domains ∧ (d.applyImplied stack is).2.1.exhausted = d.exhausted ∧
      ((d.applyImplied stack is).1 = true → Covers g W U (d.applyImplied stack is).2.1.domains (d.applyImplied stack is).2.2 [] ∧
        (d.applyImplied stack is).2.2.length + (unfixed n (d.applyImplied stack is).2.1.domains).card =
          stack.length + (unfixed n d.domains).card) ∧
      ((d.applyImplied stack is).1 = false → (d.applyImplied stack is).2.1.infeasible = true) := by
  induction is generalizing d stack with
  | nil => exact ⟨hd, rfl, fun _ => ⟨hcovers, rfl⟩, nofun⟩
  | cons i rest ih =>
    have hi : i.var < n := his i (by simp)
    have hrest : ∀ j ∈ rest, j.var < n := fun j hj => his j (by simp [hj])
    rcases applyImplied_cons d stack i rest with ⟨new, hjudge, heq⟩ | ⟨hjudge, heq⟩ | ⟨-, heq⟩
    · have hnone : binaryFixing? d.domains i.var = none := by
        by_contra hfixed
        exact hF.fixed _ _ i.kind i.value hd hfixed (congrArg Prod.fst hjudge)
      have hreached := hF.reached d.domains i new hd hi hjudge
      have hcovers' : Covers g W U (d.applied i.var i.kind new .implication).domains
          (pushFixing (d.domains.record i.var i.kind new .implication) i.var stack) rest := by
        refine hF.covers_push fun w b _ hwatched hfix => ?_
        rcases hcovers w b hwatched hfix with hmem | hsettled
        · exact .inl hmem
        · refine .inr fun j hj => ?_
          rcases hsettled j hj with hU | hmem
          · exact .inl (hF.stays _ _ _ _ _ _ j hd hi hjudge hU)
          · rcases List.mem_cons.mp hmem with rfl | hmem
            · exact .inl hreached
            · exact .inr hmem
      obtain ⟨hJ, hexhausted, hdone, hfailed⟩ := ih (hF.keeps _ _ _ _ _ _ hd hi hjudge) hrest hcovers'
      rw [heq]
      refine ⟨hJ, hexhausted, fun hok => ?_, hfailed⟩
      obtain ⟨hcovered, hcount⟩ := hdone hok
      exact ⟨hcovered, hcount.trans (unfixed_record hi hnone i.kind new .implication stack)⟩
    · have hcovers' : Covers g W U d.domains stack rest := by
        intro w b hwatched hfix
        rcases hcovers w b hwatched hfix with hmem | hsettled
        · exact .inl hmem
        · refine .inr fun j hj => ?_
          rcases hsettled j hj with hU | hmem
          · exact .inl hU
          · rcases List.mem_cons.mp hmem with rfl | hmem
            · exact .inl (hF.redundant _ _ hd hjudge)
            · exact .inr hmem
      rw [heq]
      exact ih hd hrest hcovers'
    · rw [heq]
      exact ⟨hd, rfl, nofun, fun _ => rfl⟩

/-- A closure that ends, with all that is implied in force unless it is infeasible. -/
structure Closes (g : ImplicationGraph K) (J : Domains K → Prop) (W : Domains K → VarId → Prop)
    (U : Domains K → Implication K → Prop) (d : Deduction K) (r : Bool × Deduction K) : Prop where
  inv : J r.2.domains
  ends : r.2.exhausted = d.exhausted
  covers : r.1 = true → Covers g W U r.2.domains [] []
  infeasible : r.1 = false → r.2.infeasible = true

/-- **Following the stack** ends: what is on it or may still go there gets less with each step. -/
theorem Followable.closeStack {d : Deduction K} (hd : J d.domains) (hcovers : Covers g W U d.domains stack []) {fuel : Nat}
    (hfuel : stack.length + (unfixed n d.domains).card < fuel) : Closes g J W U d (d.closeStack g stack fuel) := by
  induction fuel generalizing d stack with
  | zero => exact absurd hfuel (Nat.not_lt_zero _)
  | succ fuel ih =>
    cases stack with
    | nil => exact ⟨hd, rfl, fun _ => hcovers, fun h => absurd h Bool.false_ne_true.symm⟩
    | cons e stack =>
      obtain ⟨v, value⟩ := e
      have hcovers' : Covers g W U d.domains stack (g.implied v value) := by
        intro w b hwatched hfix
        rcases hcovers w b hwatched hfix with hmem | hsettled
        · rcases List.mem_cons.mp hmem with heq | hmem
          · obtain ⟨rfl, rfl⟩ := Prod.mk.inj heq
            exact .inr fun i hi => .inr hi
          · exact .inl hmem
        · exact .inr fun i hi => .inl ((hsettled i hi).resolve_right List.not_mem_nil)
      obtain ⟨hJ, hexhausted, hdone, hfailed⟩ := hF.applyImplied hd (hF.graph.implied v value) hcovers'
      rw [Deduction.closeStack]
      cases happly : d.applyImplied stack (g.implied v value) with
      | mk feasible rest =>
        obtain ⟨d', stack'⟩ := rest
        rw [happly] at hJ hexhausted hdone hfailed
        cases feasible with
        | true =>
          obtain ⟨hcovered, hcount⟩ := hdone rfl
          have hless : stack'.length + (unfixed n d'.domains).card < fuel := by
            rw [hcount]
            simp only [List.length_cons] at hfuel
            omega
          obtain ⟨hinv, hends, hcomplete, hinfeasible⟩ := ih hJ hcovered hless
          exact ⟨hinv, hends.trans hexhausted, hcomplete, hinfeasible⟩
        | false => exact ⟨hJ, hexhausted, fun h => absurd h Bool.false_ne_true, fun _ => hfailed rfl⟩

/-- **The closure of one variable** settles what it implies, if all other fixings are settled. -/
theorem Followable.closeImplications {d : Deduction K} (hd : J d.domains) {v : VarId}
    (hothers : ∀ w b, w ≠ v → W d.domains w → binaryFixing? d.domains w = some b → ∀ i ∈ g.implied w b, U d.domains i) :
    Closes g J W U d (closeImplications g d v) := by
  unfold Deduction.closeImplications
  split
  · next hempty =>
    refine ⟨hd, rfl, fun _ w b _ _ => .inr fun i hi => ?_, nofun⟩
    rw [ImplicationGraph.implied_of_isEmpty hempty] at hi
    cases hi
  · cases hfix : binaryFixing? d.domains v with
    | none =>
      refine ⟨hd, rfl, fun _ w b hwatched hw => ?_, nofun⟩
      have hne : w ≠ v := by
        intro heq
        rw [heq, hfix] at hw
        cases hw
      exact .inr fun i hi => .inl (hothers w b hne hwatched hw i hi)
    | some value =>
      refine hF.closeStack hd (fun w b hwatched hw => ?_) ?_
      · by_cases hne : w = v
        · subst hne
          rw [hfix] at hw
          obtain rfl := Option.some.inj hw
          exact .inl (List.mem_singleton_self _)
        · exact .inr fun i hi => .inl (hothers w b hne hwatched hw i hi)
      · have hcard : (unfixed n d.domains).card ≤ n := by
          simpa [unfixed] using Finset.card_filter_le (Finset.range n) fun v => binaryFixing? d.domains v = none
        have hsteps : closureSteps d.domains = 2 ^ 62 + n := by
          rw [closureSteps, hF.numVars _ hd]
          rfl
        rw [hsteps, List.length_singleton]
        omega

/-- A request that ends, and leaves fixings settled unless it is infeasible. -/
structure Settles (g : ImplicationGraph K) (J : Domains K → Prop) (W : Domains K → VarId → Prop)
    (U : Domains K → Implication K → Prop) (d : Deduction K) (r : Tightening × Deduction K) : Prop where
  inv : J r.2.domains
  ends : r.2.exhausted = d.exhausted
  covers : r.1 ≠ .infeasible → Covers g W U r.2.domains [] []
  infeasible : r.1 = .infeasible → r.2.infeasible = true

/-- **A request with its closure** settles fixings. -/
theorem Followable.tighten {d : Deduction K} (hd : J d.domains) {v : VarId} (hv : v < n)
    (hcovers : Covers g W U d.domains [] []) (reason : Reason) (kind : BoundKind) (value : K) :
    Settles g J W U d (tighten g reason d v kind value) := by
  rcases tighten_cases g reason d v kind value with ⟨new, hjudge, heq⟩ | ⟨-, heq⟩ | ⟨-, heq⟩
  · rw [heq]
    have hnext : J (d.applied v kind new reason).domains := hF.keeps _ _ _ _ _ _ hd hv hjudge
    obtain ⟨hinv, hends, hcomplete, hinfeasible⟩ := hF.closeImplications (v := v) hnext fun w b hw hwatched hfix i hi => by
      have hold : W d.domains w := (hF.watched _ _ _ _ _ _ hwatched).resolve_right hw
      have hfix' : binaryFixing? d.domains w = some b := (binaryFixing_record hw ..).symm.trans hfix
      exact hF.stays _ _ _ _ _ _ i hd hv hjudge (hcovers.settled hold hfix' i hi)
    refine ⟨hinv, hends, fun hok => hcomplete ?_, fun hfailed => hinfeasible ?_⟩
    · by_contra hfalse
      exact hok (if_neg hfalse)
    · by_contra htrue
      rw [Bool.not_eq_false] at htrue
      simp [htrue] at hfailed
  · rw [heq]
    exact ⟨hd, rfl, fun _ => hcovers, nofun⟩
  · rw [heq]
    exact ⟨hd, rfl, fun h => absurd rfl h, fun _ => rfl⟩

/-- So does fixing a variable. -/
theorem Followable.fix {d : Deduction K} (hd : J d.domains) {v : VarId} (hv : v < n)
    (hcovers : Covers g W U d.domains [] []) (reason : Reason) (value : K) :
    Settles g J W U d (fix g reason d v value) := by
  have hlow := hF.tighten hd hv hcovers reason .lower value
  unfold Deduction.fix
  split
  · next heq =>
    rw [heq] at hlow
    exact hlow
  · next low d' hfeasible heq =>
    rw [heq] at hlow
    have hhigh := hF.tighten hlow.inv hv (hlow.covers hfeasible) reason .upper value
    split
    · next heq' =>
      rw [heq'] at hhigh
      exact ⟨hhigh.inv, hhigh.ends.trans hlow.ends, fun h => absurd rfl h, hhigh.infeasible⟩
    · next hfeasible' heq' =>
      rw [heq'] at hhigh
      refine ⟨hhigh.inv, hhigh.ends.trans hlow.ends, fun _ => hhigh.covers hfeasible', fun h => ?_⟩
      split at h <;> cases h

end Follow

end Deduction

end BranchAndCut
