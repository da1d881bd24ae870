import BranchAndCut.Proofs.Branching.Partition
import BranchAndCut.Proofs.Order

/-! # Which variable is split

The variables to choose from are a set: they are sorted before anything is chosen, so that
the order in which they are listed has no influence. Of the fractional ones the one of the
greatest score is split, the least variable if there are several. Scores are compared, so
they have to be defined; those of the built-in rules are, also where numbers are rounded. -/

namespace BranchAndCut

namespace Brancher

variable {K σ : Type} [Scalar K] {b : Brancher K σ} {vars vars' : List VarId} {x : Array K} {v : VarId}
  {c : Candidate K} {cs : List (Candidate K)} {n : Nat}

/-! ## Variables in any order -/

/-- The value of a variable is farther than the tolerance from the integers below and above it. -/
def IsFractional (t : K) (x : Array K) (v : VarId) : Prop :=
  t < Scalar.frac (x.getD v 0) ∧ Scalar.frac (x.getD v 0) < 1 - t

theorem candidate?_eq_some_iff {t : K} :
    candidate? t x v = some c ↔ IsFractional t x v ∧ c = ⟨v, x.getD v 0, Scalar.frac (x.getD v 0)⟩ := by
  unfold candidate? IsFractional
  dsimp only
  split
  · next h =>
    rw [Bool.and_eq_true, decide_eq_true_iff, decide_eq_true_iff] at h
    rw [and_iff_right h, Option.some.injEq, eq_comm]
  · next h =>
    rw [Bool.and_eq_true, decide_eq_true_iff, decide_eq_true_iff] at h
    exact ⟨nofun, fun h' => (h h'.1).elim⟩

/-- The candidates are the fractional variables of the list. -/
theorem mem_candidates_iff : c ∈ b.candidates vars x ↔
    c.var ∈ vars ∧ IsFractional b.intTol x c.var ∧ c = ⟨c.var, x.getD c.var 0, Scalar.frac (x.getD c.var 0)⟩ := by
  unfold candidates
  rw [List.mem_mergeSort, List.mem_filterMap]
  constructor
  · rintro ⟨v, hv, hc⟩
    obtain rfl := candidate?_var hc
    exact ⟨hv, candidate?_eq_some_iff.mp hc⟩
  · rintro ⟨hv, hc⟩
    exact ⟨c.var, hv, candidate?_eq_some_iff.mpr hc⟩

theorem sorted_candidates (b : Brancher K σ) (vars : List VarId) (x : Array K) :
    (b.candidates vars x).Pairwise fun p q => p.var ≤ q.var := by
  refine (List.pairwise_mergeSort (fun p q r hpq hqr => ?_) (fun p q => ?_) _).imp of_decide_eq_true
  · exact decide_eq_true ((of_decide_eq_true hpq).trans (of_decide_eq_true hqr))
  · rw [Bool.or_eq_true, decide_eq_true_iff, decide_eq_true_iff]
    exact le_total p.var q.var

/-- **Candidates** do not depend on the order of the variables. -/
theorem candidates_perm (b : Brancher K σ) (h : vars.Perm vars') (x : Array K) :
    b.candidates vars x = b.candidates vars' x := by
  refine List.Perm.eq_of_pairwise (fun p q hp hq hpq hqp => ?_) (b.sorted_candidates vars x)
    (b.sorted_candidates vars' x) ?_
  · -- a candidate is determined by its variable
    rw [(mem_candidates_iff.mp hp).2.2, (mem_candidates_iff.mp hq).2.2, le_antisymm hpq hqp]
  · exact (List.mergeSort_perm _ _).trans ((h.filterMap _).trans (List.mergeSort_perm _ _).symm)

/-- **Splits at fractional values** do not depend on the order of the variables. -/
theorem select_perm (b : Brancher K σ) (nodeBound : K) (h : vars.Perm vars') (x : Array K) (d : Domains K) (n : Nat) :
    b.select nodeBound vars x d n = b.select nodeBound vars' x d n := by
  unfold select
  rw [b.candidates_perm h x]

theorem mergeSort_perm_eq (h : vars.Perm vars') :
    vars.mergeSort (fun v w => decide (v ≤ w)) = vars'.mergeSort fun v w => decide (v ≤ w) := by
  have hsorted : ∀ l : List VarId, (l.mergeSort fun v w => decide (v ≤ w)).Pairwise (· ≤ ·) := fun l => by
    refine (List.pairwise_mergeSort (fun u v w huv hvw => ?_) (fun v w => ?_) l).imp of_decide_eq_true
    · exact decide_eq_true ((of_decide_eq_true huv).trans (of_decide_eq_true hvw))
    · rw [Bool.or_eq_true, decide_eq_true_iff, decide_eq_true_iff]
      exact le_total v w
  refine List.Perm.eq_of_pairwise (fun v w _ _ => le_antisymm) (hsorted vars) (hsorted vars') ?_
  exact (List.mergeSort_perm _ _).trans (h.trans (List.mergeSort_perm _ _).symm)

/-- **Halving a domain** does not depend on the order of the variables. -/
theorem halve_perm (b : Brancher K σ) (nodeBound : K) (h : vars.Perm vars') (x : Option (Array K)) (d : Domains K) :
    b.halve nodeBound vars x d = b.halve nodeBound vars' x d := by
  unfold halve
  rw [mergeSort_perm_eq h]

/-! ## The greatest score -/

section Ordered

variable [Scalar.Ordered K]

/-- The entry has the greatest score, and the least variable of those that have it. -/
def Leads (l : List (Candidate K × K)) (best : Candidate K × K) : Prop :=
  best ∈ l ∧ ∀ e ∈ l, e.2 ≤ best.2 ∧ (e.1.var < best.1.var → e.2 < best.2)

/-- A scan that changes its mind for a greater score only. -/
theorem Leads.foldl {done rest : List (Candidate K × K)} {best : Candidate K × K} (h : Leads done best)
    (hsorted : (done ++ rest).Pairwise fun e e' => e.1.var ≤ e'.1.var)
    (hdefined : ∀ e ∈ done ++ rest, Scalar.isNaN e.2 = false) :
    Leads (done ++ rest) (rest.foldl (fun best next => if best.2 < next.2 then next else best) best) := by
  induction rest generalizing done best with
  | nil => rwa [List.append_nil]
  | cons next rest ih =>
    have happend : done ++ next :: rest = (done ++ [next]) ++ rest := by
      rw [List.append_assoc]
      rfl
    rw [happend] at hsorted hdefined ⊢
    have hnext := hdefined next (List.mem_append_left _ List.mem_concat_self)
    have hbest := hdefined best (List.mem_append_left _ (List.mem_append_left _ h.1))
    rw [List.foldl_cons]
    refine ih ?_ hsorted hdefined
    split
    · next hlt =>
      refine ⟨List.mem_concat_self, fun e he => ?_⟩
      rcases List.mem_append.mp he with he | he
      · have hless := Scalar.Ordered.lt_of_le_of_lt (h.2 e he).1 hlt
        exact ⟨Scalar.Ordered.le_of_lt hless, fun _ => hless⟩
      · rw [List.mem_singleton.mp he]
        exact ⟨Scalar.Ordered.le_refl hnext, fun hvar => (Nat.lt_irrefl _ hvar).elim⟩
    · next hnot =>
      refine ⟨List.mem_append_left _ h.1, fun e he => ?_⟩
      rcases List.mem_append.mp he with he | he
      · exact h.2 e he
      · have hvar : best.1.var ≤ next.1.var :=
          (List.pairwise_append.mp (List.pairwise_append.mp hsorted).1).2.2 best h.1 next (List.mem_singleton_self _)
        rw [List.mem_singleton.mp he]
        exact ⟨Scalar.Ordered.le_of_not_lt hnext hbest hnot, fun hless => absurd hless (Nat.not_lt.mpr hvar)⟩

/-- **The best candidate** leads, if scores are defined. -/
theorem leads_best? {l : List (Candidate K × K)} (hsorted : l.Pairwise fun e e' => e.1.var ≤ e'.1.var)
    (hdefined : ∀ e ∈ l, Scalar.isNaN e.2 = false) (hbest : best? l = some c) : ∃ score, Leads l (c, score) := by
  cases l with
  | nil => cases hbest
  | cons first rest =>
    have hfirst : Leads [first] first := by
      refine ⟨List.mem_singleton_self _, fun e he => ?_⟩
      rw [List.mem_singleton.mp he]
      exact ⟨Scalar.Ordered.le_refl (hdefined first List.mem_cons_self), fun hvar => (Nat.lt_irrefl _ hvar).elim⟩
    cases hbest
    exact ⟨_, hfirst.foldl hsorted hdefined⟩

/-! ## Scores -/

/-- The scores that the rule in use gives. -/
def scoresAt (b : Brancher K σ) (cs : List (Candidate K)) (n : Nat) (w : σ) : List K :=
  match b.custom with
  | none => cs.map (b.builtinScore n)
  | some rule => (rule.score cs b.pseudocosts w).1

variable [Scalar.PositiveMul K]

omit [Scalar.PositiveMul K] in
theorem defined_min {a a' : K} (h : Scalar.isNaN a = false) : Scalar.isNaN (Scalar.min a a') = false := by
  unfold Scalar.min
  rw [if_neg (by rw [h]; nofun)]
  split
  · next hlt => exact (Scalar.Ordered.defined_of_le (Scalar.Ordered.le_of_lt hlt)).1
  · exact h

/-- **The built-in scores are defined**, whatever was observed before. -/
theorem defined_builtinScore (b : Brancher K σ) (n : Nat) (h : Scalar.isNaN c.frac = false) :
    Scalar.isNaN (b.builtinScore n c) = false := by
  have hmillionth : Scalar.isNaN (1e-6 : K) = false :=
    (Scalar.Ordered.defined_of_le (Scalar.Ordered.le_of_lt Scalar.PositiveMul.zero_lt_millionth)).2
  have hpos : ∀ a : K, 0 < Scalar.max a 1e-6 := fun a =>
    Scalar.Ordered.lt_of_lt_of_le Scalar.PositiveMul.zero_lt_millionth (Scalar.Ordered.le_max_right hmillionth)
  unfold builtinScore
  split
  · exact Scalar.PositiveMul.defined_mul (hpos _) (hpos _)
  · exact defined_min h

/-- There is a defined score for each candidate, or the supplied rule is at fault. -/
theorem ensures_scores (b : Brancher K σ) (vars : List VarId) (x : Array K) (n : Nat) (w : σ) :
    Ensures (b.scores (b.candidates vars x) n) w
      (fun scores _ => scores = b.scoresAt (b.candidates vars x) n w ∧ scores.length = (b.candidates vars x).length ∧
        ∀ a ∈ scores, Scalar.isNaN a = false)
      fun e _ => ∃ rule ∈ b.custom, ∃ count,
        e = .plugin rule.name (.scoreCount count (b.candidates vars x).length) := by
  unfold scores scoresAt
  cases b.custom with
  | none =>
    refine .pure ⟨rfl, List.length_map _, fun a ha => ?_⟩
    obtain ⟨c, hc, rfl⟩ := List.mem_map.mp ha
    obtain ⟨-, ⟨hfrac, -⟩, heq⟩ := mem_candidates_iff.mp hc
    refine b.defined_builtinScore n ?_
    rw [heq]
    exact (Scalar.Ordered.defined_of_le (Scalar.Ordered.le_of_lt hfrac)).2
  | some rule =>
    refine .bind (.modifyGet ?_)
    split
    · exact .throw ⟨rule, rfl, _, rfl⟩
    · next hif =>
      rw [Bool.or_eq_true, not_or, decide_eq_true_iff, ne_eq, not_not, Bool.not_eq_true, List.any_eq_false] at hif
      exact .pure ⟨rfl, hif.1, fun a ha => Bool.eq_false_iff.mpr (hif.2 a ha)⟩

/-- **A split at a fractional value**: there is none exactly if no variable is fractional;
else the candidate that leads is split, or the supplied rule is at fault. -/
theorem ensures_select (b : Brancher K σ) (nodeBound : K) (vars : List VarId) (x : Array K) (d : Domains K) (n : Nat)
    (w : σ) : Ensures (b.select nodeBound vars x d n) w
      (fun choice _ => (choice = none ∧ ∀ v ∈ vars, ¬ IsFractional b.intTol x v) ∨
        (∃ v ∈ vars, IsFractional b.intTol x v) ∧ ∃ best,
          Leads ((b.candidates vars x).zip (b.scoresAt (b.candidates vars x) n w)) best ∧
            choice = some (b.dichotomy nodeBound best.1 d))
      fun e _ => ∃ rule ∈ b.custom, ∃ count,
        e = .plugin rule.name (.scoreCount count (b.candidates vars x).length) := by
  unfold select
  dsimp only
  split
  · next hempty =>
    refine .pure (.inl ⟨rfl, fun v hv hfrac => ?_⟩)
    rw [List.isEmpty_iff] at hempty
    have hmem : ⟨v, x.getD v 0, Scalar.frac (x.getD v 0)⟩ ∈ b.candidates vars x :=
      mem_candidates_iff.mpr ⟨hv, hfrac, rfl⟩
    rw [hempty] at hmem
    exact List.not_mem_nil hmem
  · next hne =>
    rw [List.isEmpty_iff] at hne
    refine .bind_mono (b.ensures_scores vars x n w) fun scores _ ⟨hscores, hlength, hdefined⟩ => .pure (.inr ?_)
    obtain ⟨c, hc⟩ := List.exists_mem_of_ne_nil _ hne
    obtain ⟨hv, hfrac, -⟩ := mem_candidates_iff.mp hc
    have hzip : (b.candidates vars x).zip scores ≠ [] := by
      rw [ne_eq, ← List.length_eq_zero_iff, List.length_zip, hlength, Nat.min_self, List.length_eq_zero_iff]
      exact hne
    obtain ⟨first, hfirst⟩ := Option.isSome_iff_exists.mp (best?_isSome hzip)
    have hsorted : ((b.candidates vars x).zip scores).Pairwise fun e e' => e.1.var ≤ e'.1.var := by
      have hfst : ((b.candidates vars x).zip scores).map Prod.fst = b.candidates vars x := List.map_fst_zip hlength.ge
      have hmap := b.sorted_candidates vars x
      rw [← hfst] at hmap
      exact (List.pairwise_map (f := Prod.fst) (R := fun p q : Candidate K => p.var ≤ q.var)).mp hmap
    obtain ⟨score, hleads⟩ := leads_best? hsorted (fun e he => hdefined _ (List.of_mem_zip he).2) hfirst
    rw [hfirst, ← hscores]
    exact ⟨⟨c.var, hv, hfrac⟩, _, hleads, rfl⟩

end Ordered

end Brancher

end BranchAndCut
