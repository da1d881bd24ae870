import BranchAndCut.Proofs.Constraint.Requests

/-! # Families that are at rest

A family only asks for bounds of variables of its constraints, and what it asks for depends
on their bounds only. So if a run of a family changes none of them, it changes nothing, and
neither does a run on any store in which they have the same bounds. -/

namespace BranchAndCut

open Domains

variable {K σ : Type} [Scalar K] {g : ImplicationGraph K} {reason : Reason} {S : VarId → Prop} {D E F : Domains K}
  {d e : Deduction K} {v : VarId}

namespace Domains

/-- The variables of a set have the same bounds in both stores. -/
structure Alike (S : VarId → Prop) (D E : Domains K) : Prop where
  tol : E.tol = D.tol
  lb : ∀ v, S v → E.lb v = D.lb v
  ub : ∀ v, S v → E.ub v = D.ub v
  integral : ∀ v, S v → E.isIntegral v = D.isIntegral v

theorem Alike.refl (S : VarId → Prop) (D : Domains K) : Alike S D D := ⟨rfl, fun _ _ => rfl, fun _ _ => rfl, fun _ _ => rfl⟩

theorem Alike.trans (h : Alike S D E) (h' : Alike S E F) : Alike S D F :=
  ⟨h'.tol.trans h.tol, fun v hv => (h'.lb v hv).trans (h.lb v hv), fun v hv => (h'.ub v hv).trans (h.ub v hv),
    fun v hv => (h'.integral v hv).trans (h.integral v hv)⟩

/-- Changes of other variables leave those of the set alike. -/
theorem Extends.alike {cs : List (BoundChange K)} (h : Extends cs D E) (hcs : ∀ c ∈ cs, ¬ S c.var) : Alike S D E := by
  have hothers := fun v (hv : S v) => h.others v fun c hc heq => hcs c hc (heq ▸ hv)
  refine ⟨h.tol, fun v hv => (hothers v hv).lb, fun v hv => (hothers v hv).ub, fun v _ => ?_⟩
  exact congrArg (fun integral => integral.getD v false) h.integral

theorem Alike.judge (h : Alike S D E) (hv : S v) (kind : BoundKind) (value : K) : E.judge v kind value = D.judge v kind value := by
  unfold Domains.judge
  rw [h.tol, h.lb v hv, h.ub v hv, h.integral v hv]

/-- No notice about a variable of the set is new. -/
def Quiet (S : VarId → Prop) (D E : Domains K) : Prop :=
  ∀ ps, E.pending = ps ++ D.pending → ∀ p ∈ ps, ¬ S p.1

end Domains

namespace Deduction

theorem Adds.quiet_left {a b c : Deduction K} (hbc : Adds b c) (h : Quiet S a.domains c.domains) :
    Quiet S a.domains b.domains := by
  obtain ⟨cs, hcs, -⟩ := hbc
  intro ps hps p hp
  refine h (cs.map (fun c => (c.var, c.kind)) ++ ps) ?_ p (by simp [hp])
  rw [hcs.pending, hps, List.append_assoc]

/-- A run that adds changes, and that has nothing to do, if it is not refused and changes no
variable of a set; nor has it then wherever these variables have the same bounds. -/
structure Still (S : VarId → Prop) {α : Type} (ok : α → Prop) (idle : α) (run : Deduction K → α × Deduction K) : Prop where
  adds : ∀ d, Adds d (run d).2
  still : ∀ d e, ok (run d).1 → Quiet S d.domains (run d).2.domains → Alike S d.domains e.domains → run e = (idle, e)

namespace Still

variable {α β : Type} {ok : α → Prop} {idle : α} {run run' : Deduction K → α × Deduction K}

theorem rest (S : VarId → Prop) (ok : α → Prop) (idle : α) : Still S ok idle fun d : Deduction K => (idle, d) :=
  ⟨fun d => .refl d, fun _ _ _ _ _ => rfl⟩

/-- A run that is rejected. -/
theorem rejected {bad : α} (hbad : ¬ ok bad) : Still S ok idle fun d : Deduction K => (bad, d) :=
  ⟨fun d => .refl d, fun _ _ hok _ _ => absurd hok hbad⟩

theorem congr (h : Still S ok idle run) (heq : ∀ d, run' d = run d) : Still S ok idle run' :=
  funext heq ▸ h

/-- A run that depends on what it reads of the variables of the set. -/
theorem reading {read : Deduction K → β} {run : β → Deduction K → α × Deduction K}
    (hread : ∀ d e : Deduction K, Alike S d.domains e.domains → read e = read d) (hrun : ∀ b, Still S ok idle (run b)) :
    Still S ok idle fun d => run (read d) d where
  adds d := (hrun (read d)).adds d
  still d e hok hquiet hde := by
    rw [hread d e hde]
    exact (hrun (read d)).still d e hok hquiet hde

/-- A run after another. Since the first is quiet as well, the second starts where the first did. -/
theorem andThen [DecidablePred ok] {second : Deduction K → Bool × Deduction K} (hfirst : Still S ok idle run) (hidle : ok idle)
    (hsecond : Still S (· = true) true second) : Still S (· = true) true (andThen ok run second) where
  adds d := by
    unfold Deduction.andThen
    split
    · exact (hfirst.adds d).trans (hsecond.adds _)
    · exact hfirst.adds d
  still d e hok hquiet hde := by
    have hfeasible : ok (run d).1 := by
      by_contra hnot
      rw [Deduction.andThen, if_neg hnot] at hok
      cases hok
    have hbefore : Quiet S d.domains (run d).2.domains := by
      rw [Deduction.andThen, if_pos hfeasible] at hquiet
      exact (hsecond.adds _).quiet_left hquiet
    have hd := hfirst.still d d hfeasible hbefore (.refl S d.domains)
    have he := hfirst.still d e hfeasible hbefore hde
    rw [Deduction.andThen, hd, if_pos hidle] at hok hquiet
    rw [Deduction.andThen, he, if_pos hidle]
    exact hsecond.still d e hok hquiet hde

/-- A run with the verdict on it. -/
theorem judged {run : Deduction K → Bool × Deduction K} (h : Still S (· = true) true run) :
    Still S (· ≠ .cutoff) .nothing (judged run) where
  adds := h.adds
  still d e hok hquiet hde := by
    have hfeasible : (run d).1 = true := by
      by_contra hnot
      exact hok (if_neg hnot)
    rw [Deduction.judged, h.still d e hfeasible hquiet hde]
    simp [verdict]

/-- **A request** for a variable of the set. -/
theorem request (hv : S v) (kind : BoundKind) (value : K) :
    Still S (· ≠ .infeasible) .redundant (tighten g reason · v kind value) where
  adds d := (kept_adds d).tighten (fun _ _ _ _ => trivial) trivial (.refl d) reason kind value
  still d e hok hquiet hde := by
    have hjudge := hde.judge hv kind value
    rcases tighten_cases g reason d v kind value with ⟨new, -, heq⟩ | ⟨hredundant, -⟩ | ⟨-, heq⟩
    · -- the notice of the change would be new
      exfalso
      have hclose : Adds (d.applied v kind new reason) (closeImplications g (d.applied v kind new reason) v).2 :=
        (kept_adds _).closeImplications (fun _ _ _ _ => trivial) (.refl _) v
      rw [heq] at hquiet
      exact hclose.quiet_left hquiet [(v, kind)] (record_pending d.domains v kind new reason) (v, kind) (by simp) hv
    · rcases tighten_cases g reason e v kind value with ⟨new, happlied, -⟩ | ⟨-, heq⟩ | ⟨hinfeasible, -⟩
      · rw [hjudge] at happlied
        rw [happlied] at hredundant
        cases hredundant
      · exact heq
      · rw [hjudge, hredundant] at hinfeasible
        cases hinfeasible
    · rw [heq] at hok
      exact absurd rfl hok

end Still

end Deduction

/-! ## Linear constraints -/

namespace LinearFamily

open Deduction

theorem tooSmall_alike (hv : S v) (h : Alike S d.domains e.domains) (bound gain : K) :
    tooSmall e v bound gain = tooSmall d v bound gain := by
  unfold tooSmall Deduction.isIntegral
  rw [h.integral v hv]

theorem tightenUpper_still (hv : S v) (bound : K) : Still S (· ≠ .infeasible) .redundant (tightenUpper g reason · v bound) := by
  have hread : ∀ d e : Deduction K, Alike S d.domains e.domains →
      tooSmall e v (e.ub v) (e.ub v - bound) = tooSmall d v (d.ub v) (d.ub v - bound) := fun d e hde => by
    have hub : e.ub v = d.ub v := hde.ub v hv
    rw [hub, tooSmall_alike hv hde]
  have hrun : ∀ negligible : Bool, Still S (· ≠ .infeasible) .redundant fun d : Deduction K =>
      if negligible then (.redundant, d) else tighten g reason d v .upper bound := fun negligible => by
    cases negligible with
    | true => exact .rest S _ _
    | false => exact .request hv .upper bound
  exact .reading hread hrun

theorem tightenLower_still (hv : S v) (bound : K) : Still S (· ≠ .infeasible) .redundant (tightenLower g reason · v bound) := by
  have hread : ∀ d e : Deduction K, Alike S d.domains e.domains →
      tooSmall e v (e.lb v) (bound - e.lb v) = tooSmall d v (d.lb v) (bound - d.lb v) := fun d e hde => by
    have hlb : e.lb v = d.lb v := hde.lb v hv
    rw [hlb, tooSmall_alike hv hde]
  have hrun : ∀ negligible : Bool, Still S (· ≠ .infeasible) .redundant fun d : Deduction K =>
      if negligible then (.redundant, d) else tighten g reason d v .lower bound := fun negligible => by
    cases negligible with
    | true => exact .rest S _ _
    | false => exact .request hv .lower bound
  exact .reading hread hrun

theorem propagateRhs_still (hv : S v) (row : Row K) (act : Activity K) (a lo : K) :
    Still S (· ≠ .infeasible) .redundant (propagateRhs g reason row act · v a lo) := by
  unfold propagateRhs
  by_cases hfinite : Scalar.isFinite row.rhs = true
  · cases hres : residual? act.min act.minInf lo with
    | none =>
      simp only [if_pos hfinite]
      exact .rest S _ _
    | some res =>
      by_cases hpos : 0 < a
      · simp only [if_pos hfinite, if_pos hpos]
        exact tightenUpper_still hv _
      · simp only [if_pos hfinite, if_neg hpos]
        exact tightenLower_still hv _
  · simp only [if_neg hfinite]
    exact .rest S _ _

theorem propagateLhs_still (hv : S v) (row : Row K) (act : Activity K) (a hi : K) :
    Still S (· ≠ .infeasible) .redundant (propagateLhs g reason row act · v a hi) := by
  unfold propagateLhs
  by_cases hfinite : Scalar.isFinite row.lhs = true
  · cases hres : residual? act.max act.maxInf hi with
    | none =>
      simp only [if_pos hfinite]
      exact .rest S _ _
    | some res =>
      by_cases hpos : 0 < a
      · simp only [if_pos hfinite, if_pos hpos]
        exact tightenLower_still hv _
      · simp only [if_pos hfinite, if_neg hpos]
        exact tightenUpper_still hv _
  · simp only [if_neg hfinite]
    exact .rest S _ _

theorem termRange_alike (hv : S v) (h : Alike S d.domains e.domains) (a : K) : termRange e v a = termRange d v a := by
  have hlb : e.lb v = d.lb v := h.lb v hv
  have hub : e.ub v = d.ub v := h.ub v hv
  unfold termRange
  rw [hlb, hub]

theorem propagateTerms_still (row : Row K) (act : Activity K) {terms : List (VarId × K)} (hterms : ∀ c ∈ terms, S c.1) :
    Still S (· = true) true (propagateTerms g reason row act · terms) := by
  induction terms with
  | nil => exact .rest S _ _
  | cons term rest ih =>
    obtain ⟨v, a⟩ := term
    have hv : S v := hterms (v, a) (by simp)
    have hrest := ih fun c hc => hterms c (by simp [hc])
    have hrun : ∀ range : K × K, Still S (· = true) true
        (andThen (· ≠ .infeasible) (propagateRhs g reason row act · v a range.1)
          (andThen (· ≠ .infeasible) (propagateLhs g reason row act · v a range.2)
            (propagateTerms g reason row act · rest))) := fun range =>
      (propagateRhs_still hv row act a range.1).andThen redundant_ne_infeasible
        ((propagateLhs_still hv row act a range.2).andThen redundant_ne_infeasible hrest)
    have hcons := Still.reading (fun d e hde => termRange_alike hv hde a) hrun
    exact hcons.congr fun d => propagateTerms_cons row act d v a rest

theorem activity_alike {row : Row K} (hrow : ∀ c ∈ row.coefs, S c.1) (h : Alike S d.domains e.domains) :
    activity row e = activity row d := by
  unfold activity
  refine List.foldl_ext _ _ _ fun act term hterm => ?_
  obtain ⟨v, a⟩ := term
  dsimp only
  rw [termRange_alike (hrow (v, a) hterm) h a]

theorem propagateRow_still {row : Row K} (hrow : ∀ c ∈ row.coefs, S c.1) :
    Still S (· = true) true (propagateRow g reason row) := by
  have hrun : ∀ act : Activity K, Still S (· = true) true fun d : Deduction K =>
      if act.minInf = 0 && decide (row.rhs + sideTol 1e-9 row.rhs < act.min) then (false, d)
      else if act.maxInf = 0 && decide (act.max < row.lhs - sideTol 1e-9 row.lhs) then (false, d)
      else propagateTerms g reason row act d row.coefs := fun act => by
    split
    · exact .rejected Bool.false_ne_true
    · split
      · exact .rejected Bool.false_ne_true
      · exact propagateTerms_still row act hrow
  have hread : ∀ d e : Deduction K, Alike S d.domains e.domains → activity row e = activity row d :=
    fun _ _ hde => activity_alike hrow hde
  have hreading := Still.reading hread hrun
  exact hreading

theorem propagateAll_still (f : LinearFamily K) {conss : List Nat}
    (hconss : ∀ c ∈ conss, ∀ cons, f.conss[c]? = some cons → ∀ term ∈ cons.row.coefs, S term.1) :
    Still S (· = true) true (f.propagateAll g reason · conss) := by
  induction conss with
  | nil => exact .rest S _ _
  | cons c rest ih =>
    have hrest := ih fun c' hc => hconss c' (by simp [hc])
    rcases f.open_or_skipped c with ⟨cons, hcons, hopen⟩ | hskip
    · have hrow : Still S (· = true) true (propagateRow g reason cons.row) := propagateRow_still (hconss c (by simp) cons hcons)
      exact (hrow.andThen rfl hrest).congr (f.propagateAll_cons hcons hopen rest)
    · exact hrest.congr (f.propagateAll_skip hskip rest)

end LinearFamily

/-! ## Special ordered sets -/

namespace Sos1Family

open Deduction

theorem zeroOthers_still (keep : VarId) {vars : List VarId} (hvars : ∀ v ∈ vars, S v) :
    Still S (· = true) true (zeroOthers g reason keep · vars) := by
  induction vars with
  | nil => exact .rest S _ _
  | cons v rest ih =>
    have hrest := ih fun w hw => hvars w (by simp [hw])
    by_cases hkeep : v = keep
    · refine hrest.congr fun d => ?_
      rw [zeroOthers, if_pos hkeep]
    · have hzero : Still S (· ≠ .infeasible) .redundant (tighten g reason · v .upper 0) := .request (hvars v (by simp)) .upper 0
      exact (hzero.andThen redundant_ne_infeasible hrest).congr (zeroOthers_cons hkeep rest)

theorem propagateSet_still {vars : List VarId} (hvars : ∀ v ∈ vars, S v) :
    Still S (· = true) true (propagateSet g reason · vars) where
  adds d := by
    unfold propagateSet
    split
    · exact .refl d
    · exact (zeroOthers_still _ hvars).adds d
    · exact .refl d
  still d e hok hquiet hde := by
    have hsame : vars.filter (fun v => decide (0 < e.lb v)) = vars.filter fun v => decide (0 < d.lb v) :=
      List.filter_congr fun v hv => by
        have hlb : e.lb v = d.lb v := hde.lb v (hvars v hv)
        rw [hlb]
    unfold propagateSet at *
    rw [hsame]
    split at hok
    · rfl
    · next keep hkeep =>
      rw [hkeep] at hquiet
      exact (zeroOthers_still keep hvars).still d e hok hquiet hde
    · cases hok

theorem propagateAll_still (f : Sos1Family) {conss : List Nat} (hconss : ∀ c ∈ conss, ∀ v ∈ f.members c, S v) :
    Still S (· = true) true (f.propagateAll g reason · conss) := by
  induction conss with
  | nil => exact .rest S _ _
  | cons c rest ih =>
    have hrest := ih fun c' hc => hconss c' (by simp [hc])
    have hset : Still S (· = true) true (propagateSet g reason · (f.members c)) := propagateSet_still (hconss c (by simp))
    exact (hset.andThen rfl hrest).congr (f.propagateAll_cons c rest)

end Sos1Family

/-! ## All families -/

namespace Handlers

open Deduction

variable {hs : Handlers K σ}

/-- Propagating constraints of a built-in family changes nothing, if it changes none of the
variables that they lock, nor does it then wherever these variables have the same bounds. -/
theorem deduce_still {w : σ} {h : HandlerId} {conss : List Nat} (hlocks : ∀ c ∈ conss, ∀ l ∈ hs.locks w h c, S l.var) :
    Still S (· ≠ .cutoff) .nothing (hs.deduce g reason h conss) := by
  unfold deduce
  unfold locks at hlocks
  cases hw : hs.which h with
  | linear =>
    rw [hw] at hlocks
    have hall : Still S (· = true) true (hs.linear.propagateAll g reason · conss) :=
      hs.linear.propagateAll_still fun c hc cons hcons => LinearFamily.locks_vars hcons (hlocks c hc)
    exact hall.judged.congr (hs.linear.propagate_judged conss)
  | sos1 =>
    rw [hw] at hlocks
    have hall : Still S (· = true) true (hs.sos1.propagateAll g reason · conss) :=
      hs.sos1.propagateAll_still fun c hc => Sos1Family.locks_vars (hlocks c hc)
    exact hall.judged.congr (hs.sos1.propagate_judged conss)
  | custom => exact .rest S _ _
  | unknown => exact .rest S _ _

end Handlers

end BranchAndCut
