import BranchAndCut.Proofs.Arrays
import BranchAndCut.Proofs.Constraint.Stillness

/-! # Propagation comes to rest

A family that is not marked dirty is at rest: it was when it last ran, or it changed none of
its variables then, and each later change of one of them marks it. So when no family is
dirty, all are at rest. And each pass but the last takes steps off any measure that the
changes of families take steps off. -/

namespace BranchAndCut

open Domains Deduction

variable {K σ : Type} [Scalar K] {g : ImplicationGraph K} {hs : Handlers K σ} {r : Registry} {w : σ} {h : HandlerId}
  {d e : Domains K} {dirty : Array Bool} {out : Propagated} {J : Domains K → Prop} {room : Domains K → Nat}

/-! ## Families at rest -/

namespace Handlers

/-- The variables that the active constraints of a family lock. -/
def Locked (hs : Handlers K σ) (w : σ) (r : Registry) (h : HandlerId) (v : VarId) : Prop :=
  ∃ c ∈ r.activeIndices h, ∃ l ∈ hs.locks w h c, l.var = v

/-- What a family deduces from its active constraints. -/
def step (hs : Handlers K σ) (g : ImplicationGraph K) (r : Registry) (h : HandlerId) (d : Domains K) : Verdict × Deduction K :=
  hs.deduce g (.propagation h) h (r.activeIndices h) { domains := d }

/-- A run of the family changes nothing. -/
def Rests (hs : Handlers K σ) (g : ImplicationGraph K) (r : Registry) (h : HandlerId) (d : Domains K) : Prop :=
  hs.step g r h d = (.nothing, { domains := d })

/-- Every family with active constraints is at rest. -/
def AllRest (hs : Handlers K σ) (g : ImplicationGraph K) (r : Registry) (d : Domains K) : Prop :=
  ∀ h < hs.count, r.activeIndices h ≠ [] → hs.Rests g r h d

theorem step_still (hs : Handlers K σ) (g : ImplicationGraph K) (w : σ) (r : Registry) (h : HandlerId) :
    Still (hs.Locked w r h) (· ≠ .cutoff) .nothing (hs.deduce g (.propagation h) h (r.activeIndices h)) :=
  deduce_still fun c hc l hl => ⟨c, hc, l, hl, rfl⟩

/-- A family that has run and changed none of its variables is at rest. -/
theorem rests_of_quiet (hok : (hs.step g r h d).1 ≠ .cutoff)
    (hquiet : Quiet (hs.Locked w r h) d (hs.step g r h d).2.domains) (hde : Alike (hs.Locked w r h) d e) : hs.Rests g r h e :=
  (hs.step_still g w r h).still { domains := d } { domains := e } hok hquiet hde

/-- Changes of other variables leave a family at rest. -/
theorem Rests.alike (hrests : hs.Rests g r h d) (hde : Alike (hs.Locked w r h) d e) : hs.Rests g r h e := by
  have heq : hs.step g r h d = (.nothing, { domains := d }) := hrests
  refine rests_of_quiet (d := d) (w := w) ?_ ?_ hde
  · rw [heq]
    exact Verdict.noConfusion
  · rw [heq]
    intro ps hps p hp
    rw [List.append_left_eq_self.mp hps.symm] at hp
    cases hp

end Handlers

namespace Propagator

variable {p : Propagator} {k : HandlerId}

theorem runFamily_returns (hb : hs.custom = #[]) (hends : (hs.step g r h d).2.exhausted = false) :
    Returns (runFamily hs g h (r.activeIndices h)) (d, w)
      ((hs.step g r h d).1 == .cutoff || (hs.step g r h d).2.infeasible, (hs.step g r h d).2.reductions)
      ((hs.step g r h d).2.domains, w) := by
  unfold Returns runFamily
  unfold Handlers.step at hends ⊢
  dsimp only
  rw [Handlers.propagate_deduce hb]
  dsimp only
  rw [hends]
  rfl

/-! ## Marks -/

/-- Marks some families. -/
def mark (dirty : Array Bool) (marked : List HandlerId) : Array Bool :=
  marked.foldl (fun dirty h => dirty.setIfInBounds h true) dirty

theorem mark_size (dirty : Array Bool) (marked : List HandlerId) : (mark dirty marked).size = dirty.size := by
  induction marked generalizing dirty with
  | nil => rfl
  | cons k rest ih => exact (ih _).trans (Array.size_setIfInBounds ..)

theorem mark_getD (dirty : Array Bool) (marked : List HandlerId) (h : HandlerId) :
    (mark dirty marked).getD h false = true ↔ dirty.getD h false = true ∨ h < dirty.size ∧ h ∈ marked := by
  induction marked generalizing dirty with
  | nil => simp [mark]
  | cons k rest ih =>
    have hcons : mark dirty (k :: rest) = mark (dirty.setIfInBounds k true) rest := rfl
    rw [hcons, ih, getD_setIfInBounds, Array.size_setIfInBounds, List.mem_cons]
    by_cases hk : h = k
    · subst hk
      by_cases hlt : h < dirty.size <;> simp [hlt]
    · simp [hk]

theorem clear_getD (dirty : Array Bool) (h k : HandlerId) :
    (dirty.setIfInBounds h false).getD k false = true ↔ k ≠ h ∧ dirty.getD k false = true := by
  rw [getD_setIfInBounds]
  by_cases hkh : k = h
  · subst hkh
    by_cases hlt : k < dirty.size <;> simp [hlt]
  · simp [hkh]

theorem lt_size_of_dirty {dirty : Array Bool} (h : dirty.getD k false = true) : k < dirty.size := by
  by_contra hge
  rw [getD_of_size_le _ _ (not_lt.mp hge)] at h
  cases h

/-- Families that are dirty after some that include this one have been passed over. -/
theorem unvisited_cons {dirty cleared : Array Bool} {rest : List HandlerId}
    (hcleared : ∀ k, cleared.getD k false = true → k ≠ h ∧ dirty.getD k false = true)
    (hk : k ∉ rest ∧ cleared.getD k false = true) : k ∉ h :: rest ∧ dirty.getD k false = true := by
  obtain ⟨hkh, hdirty⟩ := hcleared k hk.2
  exact ⟨by simp [hkh, hk.1], hdirty⟩

theorem ne_of_clean {dirty : Array Bool} (hclean : dirty.getD h false = false) (k : HandlerId) (hk : dirty.getD k false = true) :
    k ≠ h ∧ dirty.getD k false = true := by
  refine ⟨fun heq => ?_, hk⟩
  rw [heq, hclean] at hk
  cases hk

theorem markDirty_cons (p : Propagator) (dirty : Array Bool) (c : VarId × BoundKind) (rest : List (VarId × BoundKind)) :
    p.markDirty dirty (c :: rest) = p.markDirty (mark dirty (p.watchers.getD c.1 [])) rest := rfl

theorem markDirty_size (p : Propagator) (dirty : Array Bool) (changed : List (VarId × BoundKind)) :
    (p.markDirty dirty changed).size = dirty.size := by
  induction changed generalizing dirty with
  | nil => rfl
  | cons c rest ih => rw [markDirty_cons, ih, mark_size]

/-- **A family is dirty** if it was or watches a variable that has changed. -/
theorem markDirty_getD (p : Propagator) (dirty : Array Bool) (changed : List (VarId × BoundKind)) (h : HandlerId) :
    (p.markDirty dirty changed).getD h false = true ↔
      dirty.getD h false = true ∨ h < dirty.size ∧ ∃ c ∈ changed, h ∈ p.watchers.getD c.1 [] := by
  induction changed generalizing dirty with
  | nil => simp [markDirty]
  | cons c rest ih =>
    rw [markDirty_cons, ih, mark_getD, mark_size]
    simp only [List.mem_cons, exists_eq_or_imp]
    tauto

theorem any_dirty {dirty : Array Bool} : dirty.any id = true ↔ ∃ h, dirty.getD h false = true := by
  rw [Array.any_eq_true]
  constructor
  · rintro ⟨h, hlt, hdirty⟩
    exact ⟨h, by simpa [hlt] using hdirty⟩
  · rintro ⟨h, hdirty⟩
    by_cases hlt : h < dirty.size
    · exact ⟨h, hlt, by simpa [hlt] using hdirty⟩
    · simp [hlt] at hdirty

/-! ## One pass -/

/-- Families that are not dirty are at rest, and no change is pending. -/
structure Resting (hs : Handlers K σ) (g : ImplicationGraph K) (r : Registry) (dirty : Array Bool) (d : Domains K) :
    Prop where
  size : dirty.size = hs.count
  pending : d.pending = []
  rests : ∀ h < hs.count, r.activeIndices h ≠ [] → dirty.getD h false = false → hs.Rests g r h d

/-- What families do to stores with `J`: a run ends, it takes a step off the measure for each
reduction, and it keeps `J` unless it is cut off. -/
structure Descends (hs : Handlers K σ) (g : ImplicationGraph K) (r : Registry) (J : Domains K → Prop)
    (room : Domains K → Nat) : Prop where
  ends : ∀ h d, J d → (hs.step g r h d).2.exhausted = false
  pays : ∀ h d, J d → (hs.step g r h d).2.reductions + room (hs.step g r h d).2.domains ≤ room d
  keeps : ∀ h d, J d → (hs.step g r h d).1 ≠ .cutoff → J (hs.step g r h d).2.domains.drainPending.2
  drained : ∀ d : Domains K, room d.drainPending.2 = room d

/-- **A family runs** and is marked again only if it has changed one of its variables; it marks
others only if it has changed anything. -/
theorem Resting.run (hwatched : ∀ h v, hs.Locked w r h v → h ∈ p.watchers.getD v [])
    (hrest : Resting hs g r dirty d) (hok : (hs.step g r h d).1 ≠ .cutoff) :
    Resting hs g r (p.markDirty (dirty.setIfInBounds h false) (hs.step g r h d).2.domains.drainPending.1)
        (hs.step g r h d).2.domains.drainPending.2 ∧
      ∀ k, (p.markDirty (dirty.setIfInBounds h false) (hs.step g r h d).2.domains.drainPending.1).getD k false = true →
        0 < (hs.step g r h d).2.reductions ∨ k ≠ h ∧ dirty.getD k false = true := by
  have hadds : Adds { domains := d } (hs.step g r h d).2 := (hs.step_still g w r h).adds { domains := d }
  obtain ⟨cs, hcs, hcount⟩ := hadds
  have hpending : (hs.step g r h d).2.domains.pending = cs.map fun c => (c.var, c.kind) := by
    rw [hcs.pending, hrest.pending, List.append_nil]
  have hmarks := fun k => p.markDirty_getD (dirty.setIfInBounds h false) (hs.step g r h d).2.domains.drainPending.1 k
  simp only [clear_getD, Array.size_setIfInBounds, drainPending, hpending, List.mem_reverse, List.mem_map] at hmarks ⊢
  refine ⟨⟨?_, rfl, fun k hk hactive hclean => ?_⟩, fun k hk => ?_⟩
  · rw [markDirty_size, Array.size_setIfInBounds, hrest.size]
  · have hnot := (hmarks k).not.mp (by rw [hclean]; exact Bool.false_ne_true)
    obtain ⟨hold, hnew⟩ := not_or.mp hnot
    have hothers : ∀ c ∈ cs, ¬ hs.Locked w r k c.var := fun c hc hlocked =>
      hnew ⟨hrest.size ▸ hk, (c.var, c.kind), ⟨c, hc, rfl⟩, hwatched k c.var hlocked⟩
    have halike : Alike (hs.Locked w r k) d { (hs.step g r h d).2.domains with pending := [] } :=
      (hcs.alike hothers).trans ⟨rfl, fun _ _ => rfl, fun _ _ => rfl, fun _ _ => rfl⟩
    by_cases hkh : k = h
    · subst hkh
      refine Handlers.rests_of_quiet hok (fun ps hps c hc => ?_) halike
      rw [hpending, hrest.pending, List.append_nil] at hps
      obtain ⟨c', hc', rfl⟩ := List.mem_map.mp (hps ▸ hc)
      exact hothers c' hc'
    · have hbefore : dirty.getD k false = false := by
        by_contra hdirty
        exact hold ⟨hkh, by simpa using hdirty⟩
      exact (hrest.rests k hk hactive hbefore).alike halike
  · rcases (hmarks k).mp hk with hold | ⟨-, _, ⟨c, hc, -⟩, -⟩
    · exact .inr hold
    · left
      rw [hcount]
      exact Nat.lt_add_left _ (List.length_pos_of_mem hc)

/-- What a pass over some families comes to. -/
structure Passed (hs : Handlers K σ) (g : ImplicationGraph K) (r : Registry) (J : Domains K → Prop) (room : Domains K → Nat)
    (order : List HandlerId) (dirty : Array Bool) (out : Propagated) (d : Domains K) (a : Array Bool × Propagated)
    (e : Domains K) : Prop where
  passes : a.2.passes = out.passes
  more : out.reductions ≤ a.2.reductions
  pays : a.2.reductions + room e ≤ out.reductions + room d
  inv : a.2.cutoff = false → J e
  rests : a.2.cutoff = false → Resting hs g r a.1 e
  marks : a.2.cutoff = false → ∀ h, a.1.getD h false = true → out.reductions < a.2.reductions ∨ h ∉ order ∧ dirty.getD h false = true

/-- A pass that goes over a family without a change. -/
theorem Passed.skip {rest : List HandlerId} {cleared : Array Bool} {a : Array Bool × Propagated}
    (hpassed : Passed hs g r J room rest cleared out d a e)
    (hcleared : ∀ k, cleared.getD k false = true → k ≠ h ∧ dirty.getD k false = true) :
    Passed hs g r J room (h :: rest) dirty out d a e :=
  { hpassed with marks := fun hcut k hk => (hpassed.marks hcut k hk).imp_right (unvisited_cons hcleared) }

/-- A pass that goes on after a family has run. -/
theorem Passed.after {rest : List HandlerId} {marked : Array Bool} {mid : Domains K} {cutoff : Bool} {n : Nat}
    {a : Array Bool × Propagated}
    (hpassed : Passed hs g r J room rest marked { out with reductions := out.reductions + n, cutoff := cutoff } mid a e)
    (hpays : n + room mid ≤ room d)
    (hmarked : ∀ k, marked.getD k false = true → 0 < n ∨ k ≠ h ∧ dirty.getD k false = true) :
    Passed hs g r J room (h :: rest) dirty out d a e := by
  obtain ⟨hpasses, hmore, hpays', hinv, hrests, hmarks⟩ := hpassed
  dsimp only at hpasses hmore hpays' hmarks
  refine ⟨hpasses, by omega, by omega, hinv, hrests, fun hcut k hk => ?_⟩
  rcases hmarks hcut k hk with hless | ⟨hnot, hdirty⟩
  · exact .inl (by omega)
  · rcases hmarked k hdirty with hpos | ⟨hkh, hbefore⟩
    · exact .inl (by omega)
    · exact .inr ⟨by simp [hkh, hnot], hbefore⟩

/-- Clearing the mark of a family without active constraints. -/
theorem Resting.clear (hrest : Resting hs g r dirty d) (hidle : r.activeIndices h = []) :
    Resting hs g r (dirty.setIfInBounds h false) d := by
  refine ⟨(Array.size_setIfInBounds ..).trans hrest.size, hrest.pending, fun k hk hactive hclean => ?_⟩
  have hkh : k ≠ h := fun heq => hactive (heq ▸ hidle)
  rw [getD_setIfInBounds, if_neg fun hboth => hkh hboth.1] at hclean
  exact hrest.rests k hk hactive hclean

variable (hb : hs.custom = #[]) (hwatched : ∀ h v, hs.Locked w r h v → h ∈ p.watchers.getD v [])
  (hdescends : Descends hs g r J room)

include hb hwatched hdescends

/-- **A pass** leaves families dirty only if it has changed anything. -/
theorem pass_rests (order : List HandlerId) (hJ : J d) (hrest : Resting hs g r dirty d) (hout : out.cutoff = false) :
    Ensures (p.pass hs r g dirty out order) (d, w)
      (fun a s => s.2 = w ∧ Passed hs g r J room order dirty out d a s.1) fun _ _ => False := by
  induction order generalizing d dirty out with
  | nil => exact .pure ⟨rfl, rfl, le_refl _, le_refl _, fun _ => hJ, fun _ => hrest, fun _ h hdirty => .inr ⟨List.not_mem_nil, hdirty⟩⟩
  | cons h rest ih =>
    unfold pass
    split
    · next hclean =>
      have hclean' : dirty.getD h false = false := by simpa using hclean
      exact (ih hJ hrest hout).mono (fun a s hafter => ⟨hafter.1, hafter.2.skip (ne_of_clean hclean')⟩) fun _ _ => id
    · dsimp only
      split
      · next hidle =>
        exact (ih hJ (hrest.clear (List.isEmpty_iff.mp hidle)) hout).mono
          (fun a s hafter => ⟨hafter.1, hafter.2.skip fun k => (clear_getD dirty h k).mp⟩) fun _ _ => id
      · have hpays := hdescends.pays h d hJ
        have hdrained := hdescends.drained (hs.step g r h d).2.domains
        refine .bind (.of_returns (runFamily_returns hb (hdescends.ends h d hJ)) ?_)
        dsimp only
        split
        · next hcutoff =>
          have hnever : ((hs.step g r h d).1 == .cutoff || (hs.step g r h d).2.infeasible) ≠ false := by
            rw [hcutoff]
            exact Bool.noConfusion
          have hroom : out.reductions + (hs.step g r h d).2.reductions + room (hs.step g r h d).2.domains.clearPending ≤
              out.reductions + room d := by
            have hcleared : room (hs.step g r h d).2.domains.clearPending = room (hs.step g r h d).2.domains := hdrained
            omega
          exact .bind (.modify (.pure ⟨rfl, rfl, Nat.le_add_right .., hroom, fun h => absurd h hnever,
            fun h => absurd h hnever, fun h => absurd h hnever⟩))
        · next hgo =>
          simp only [Bool.or_eq_true, beq_iff_eq, not_or, Bool.not_eq_true] at hgo
          obtain ⟨hrest', hmarked⟩ := hrest.run hwatched hgo.1
          refine .bind (.modifyGet ((ih (hdescends.keeps h d hJ hgo.1) hrest' (by simp [hgo])).mono
            (fun a s hafter => ⟨hafter.1, hafter.2.after ?_ hmarked⟩) fun _ _ => id))
          rw [hdrained]
          exact hpays

/-! ## Passes -/

omit hb hwatched hdescends in
/-- After a pass over all families those that are dirty have been marked. -/
theorem Passed.clean {a : Array Bool × Propagated} (h : Passed hs g r J room p.order dirty out d a e)
    (horder : ∀ h < hs.count, h ∈ p.order) (hcut : a.2.cutoff = false) (hsame : a.2.reductions ≤ out.reductions) :
    ∀ h, a.1.getD h false = false := by
  intro k
  by_contra hdirty
  rw [Bool.not_eq_false] at hdirty
  rcases h.marks hcut k hdirty with hless | ⟨hnot, -⟩
  · omega
  · exact hnot (horder k ((h.rests hcut).size ▸ lt_size_of_dirty hdirty))

/-- **Passes end** when all families are at rest, with no more passes than there is room for. -/
theorem passes_rests (hmax : p.maxPasses = 0) (horder : ∀ h < hs.count, h ∈ p.order) (hJ : J d)
    (hrest : Resting hs g r dirty d) (hout : out.cutoff = false) {fuel : Nat} (hfuel : room d < fuel) :
    Ensures (p.passes hs r g dirty out fuel) (d, w)
      (fun a s => s.2 = w ∧ a.passes ≤ out.passes + (1 + room d) ∧
        (a.cutoff = false → J s.1 ∧ s.1.pending = [] ∧ hs.AllRest g r s.1))
      fun _ _ => False := by
  induction fuel generalizing d dirty out with
  | zero => exact absurd hfuel (Nat.not_lt_zero _)
  | succ fuel ih =>
    unfold passes
    rw [hmax]
    split
    · next hlimit => exact absurd hlimit.1 (Nat.lt_irrefl 0)
    · refine .bind_mono (pass_rests hb hwatched hdescends p.order hJ hrest hout) ?_
      rintro ⟨dirty', out'⟩ ⟨e, _⟩ ⟨rfl, hpassed⟩
      have hpasses : out'.passes = out.passes + 1 := hpassed.passes
      have hpays : out'.reductions + room e ≤ out.reductions + room d := hpassed.pays
      dsimp only
      split
      · next hdone =>
        refine .pure ⟨rfl, by omega, fun hcut => ⟨hpassed.inv hcut, (hpassed.rests hcut).pending, fun h hh hactive => ?_⟩⟩
        rw [hcut, Bool.false_or, Bool.not_eq_true', ← Bool.not_eq_true] at hdone
        have hclean : dirty'.getD h false = false := by
          by_contra hdirty
          exact hdone (any_dirty.mpr ⟨h, by simpa using hdirty⟩)
        exact (hpassed.rests hcut).rests h hh hactive hclean
      · next hgo =>
        simp only [Bool.or_eq_true, not_or, Bool.not_eq_true, Bool.not_eq_false'] at hgo
        obtain ⟨hcut, hany⟩ := hgo
        -- some family was marked, so that something has changed
        have hless : out.reductions < out'.reductions := by
          by_contra hsame
          obtain ⟨h, hdirty⟩ := any_dirty.mp hany
          have hclean := hpassed.clean horder hcut (not_lt.mp hsame) h
          rw [hdirty] at hclean
          cases hclean
        have hroom : room e < fuel := by omega
        refine (ih (hpassed.inv hcut) (hpassed.rests hcut) hcut hroom).mono (fun a s hafter => ⟨hafter.1, ?_, hafter.2.2⟩) fun _ _ => id
        have hcount : a.passes ≤ out'.passes + (1 + room e) := hafter.2.1
        omega

/-! ## Families that are all at rest -/

omit hwatched hdescends in
theorem pass_at_rest (hall : hs.AllRest g r d) (hpending : d.pending = []) (hsize : dirty.size = hs.count)
    (hout : out.cutoff = false) (order : List HandlerId) :
    Ensures (p.pass hs r g dirty out order) (d, w)
      (fun a s => s = (d, w) ∧ a.2 = out ∧ ∀ h, a.1.getD h false = true → h ∉ order ∧ dirty.getD h false = true)
      fun _ _ => False := by
  induction order generalizing dirty with
  | nil => exact .pure ⟨rfl, rfl, fun h hdirty => ⟨List.not_mem_nil, hdirty⟩⟩
  | cons h rest ih =>
    unfold pass
    split
    · next hclean =>
      have hclean' : dirty.getD h false = false := by simpa using hclean
      exact (ih hsize).mono (fun a s hafter =>
        ⟨hafter.1, hafter.2.1, fun k hk => unvisited_cons (ne_of_clean hclean') (hafter.2.2 k hk)⟩) fun _ _ => id
    · next hdirty =>
      have hcleared : Ensures (p.pass hs r g (dirty.setIfInBounds h false) out rest) (d, w)
          (fun a s => s = (d, w) ∧ a.2 = out ∧ ∀ k, a.1.getD k false = true → k ∉ h :: rest ∧ dirty.getD k false = true)
          fun _ _ => False :=
        (ih ((Array.size_setIfInBounds ..).trans hsize)).mono (fun a s hafter =>
          ⟨hafter.1, hafter.2.1, fun k hk => unvisited_cons (fun k => (clear_getD dirty h k).mp) (hafter.2.2 k hk)⟩) fun _ _ => id
      dsimp only
      split
      · exact hcleared
      · next hactive =>
        have hh : h < hs.count := hsize ▸ lt_size_of_dirty (by simpa using hdirty)
        have hrests : hs.step g r h d = (.nothing, { domains := d }) := hall h hh fun hnil => hactive (by rw [hnil]; rfl)
        have hreturns : Returns (runFamily hs g h (r.activeIndices h)) (d, w) (false, 0) (d, w) := by
          have hrun := runFamily_returns (w := w) hb (g := g) (r := r) (h := h) (d := d) (by rw [hrests])
          rw [hrests] at hrun
          exact hrun
        refine .bind (.of_returns hreturns ?_)
        have hsame : d.drainPending = ([], d) := by
          unfold drainPending
          rw [hpending]
          exact Prod.ext rfl (by rw [← hpending])
        have hout' : { out with reductions := out.reductions + 0, cutoff := false } = out := by rw [← hout]; rfl
        dsimp only
        rw [hout']
        refine .bind (.modifyGet ?_)
        rw [hsame]
        exact hcleared

omit hwatched hdescends in
/-- **Passes over families at rest** are one, and it changes nothing. -/
theorem passes_at_rest (hall : hs.AllRest g r d) (hpending : d.pending = []) (hsize : dirty.size = hs.count)
    (hout : out.cutoff = false) (hmax : p.maxPasses = 0) (horder : ∀ h < hs.count, h ∈ p.order) (fuel : Nat) :
    Returns (p.passes hs r g dirty out (fuel + 1)) (d, w) { out with passes := out.passes + 1 } (d, w) := by
  have hout' : { out with passes := out.passes + 1 }.cutoff = false := hout
  obtain ⟨⟨dirty', out'⟩, s, hreturns, rfl, heq, hmarks⟩ :=
    (pass_at_rest (p := p) (w := w) hb hall hpending hsize hout' p.order).exists_returns
  obtain rfl : out' = { out with passes := out.passes + 1 } := heq
  have hclean : dirty'.any id = false := by
    by_contra hany
    obtain ⟨h, hdirty⟩ := any_dirty.mp (by simpa using hany)
    obtain ⟨hnot, hbefore⟩ := hmarks h hdirty
    exact hnot (horder h (hsize ▸ lt_size_of_dirty hbefore))
  unfold passes
  rw [hmax, if_neg fun hlimit => absurd hlimit.1 (Nat.lt_irrefl 0)]
  refine hreturns.andThen ?_
  dsimp only
  rw [hclean, Bool.not_false, Bool.or_true, if_pos rfl]
  rfl

end Propagator

end BranchAndCut
