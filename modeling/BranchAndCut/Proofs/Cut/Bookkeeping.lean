import BranchAndCut.Proofs.Exact
import BranchAndCut.Proofs.Cut.Lookup

/-! # The books of a pool

Cuts are offered, rounds counted, inactive cuts separated, activated and deleted, in any
order. After any calls the counter is the number of active cuts, a number names the cut that
was first answered with it, and no two cuts that are not deleted are alike. Being alike is
symmetric over exact numbers but not transitive; what keeps the pool free of likes is that a
cut enters only if it is unlike all that are not deleted, and that none comes back from
deletion. -/

namespace BranchAndCut

/-! ## Likeness -/

section Likeness

variable {F : Type} [Field F] [LinearOrder F] [FloorRing F]

theorem Exact.mul_comm' [Rooted F] (a b : Exact F) : a * b = b * a := by
  change Exact.mul a b = Exact.mul b a
  cases a <;> cases b <;> first | rfl | exact congrArg Exact.fin (mul_comm _ _)

theorem Exact.abs_sub_comm' [IsStrictOrderedRing F] [Rooted F] (a b : Exact F) :
    Scalar.abs (a - b) = Scalar.abs (b - a) := by
  cases a <;> cases b <;> first | rfl | skip
  rw [Exact.fin_sub, Exact.fin_sub, Exact.abs_fin, Exact.abs_fin, abs_sub_comm]

theorem Exact.beq_comm' [Rooted F] (a b : Exact F) : (a == b) = (b == a) := by
  change decide _ = decide _
  rw [decide_eq_decide]
  exact ⟨fun ⟨ha, heq⟩ => ⟨heq ▸ ha, heq.symm⟩, fun ⟨hb, heq⟩ => ⟨heq ▸ hb, heq.symm⟩⟩

namespace CutPool

variable [IsStrictOrderedRing F] [Rooted F]

theorem sameSide_comm (normA normB a b : Exact F) : sameSide normA normB a b = sameSide normB normA b a := by
  unfold sameSide
  rw [Bool.or_comm, Exact.beq_comm', Exact.abs_sub_comm']

/-- **Likeness of rows is symmetric.** -/
theorem parallel_comm (a b : Row (Exact F)) : parallel a b = parallel b a := by
  unfold parallel
  by_cases hvars : a.coefs.map Prod.fst = b.coefs.map Prod.fst
  · have hdot : a.coefs.zipWith (fun p q => p.2 * q.2) b.coefs = b.coefs.zipWith (fun p q => p.2 * q.2) a.coefs := by
      rw [List.zipWith_comm]
      congr 1
      funext p q
      exact Exact.mul_comm' _ _
    rw [if_neg (not_not.mpr hvars), if_neg (not_not.mpr hvars.symm)]
    dsimp only
    rw [Bool.or_comm, Bool.and_comm, hdot, Exact.mul_comm' a.norm, sameSide_comm a.norm, sameSide_comm a.norm]
  · rw [if_pos hvars, if_pos (Ne.symm hvars)]

end CutPool

end Likeness

namespace CutPool

/-! ## Calls -/

/-- What a pool is asked. -/
inductive Call (K : Type) where
  | add (cut : Cut K)
  | updateActivity (duals : List (Nat × K))
  | separateInactive (x : Array K) (minEfficacy : K)
  | activate (id : Nat)
  | delete (id : Nat)

section Calls

variable {K : Type} [Scalar K]

/-- The pool after a call. -/
def Call.run (p : CutPool K) : Call K → CutPool K
  | .add cut => (p.add cut).2.2
  | .updateActivity duals => (p.updateActivity duals).2
  | .separateInactive x minEfficacy => (p.separateInactive x minEfficacy).2
  | .activate id => (p.activate id).2
  | .delete id => p.delete id

/-- A pool after some calls. -/
def after (settings : PoolSettings K) (calls : List (Call K)) : CutPool K := calls.foldl Call.run (new settings)

/-- The cut that a call offered, if it was answered with the number. -/
def Call.named (p : CutPool K) (id : Nat) : Call K → Option (Cut K)
  | .add cut => if (p.add cut).1 = id then some cut else none
  | _ => none

/-- The cut of the first call that was answered with a number. -/
def firstNamed (p : CutPool K) (id : Nat) : List (Call K) → Option (Cut K)
  | [] => none
  | call :: calls => (call.named p id).or (firstNamed (call.run p) id calls)

variable {p q : CutPool K} {call : Call K} {id x : Nat} {c : PooledCut K} {cut : Cut K}

omit [Scalar K] in
theorem Adds.wf {answer : Nat × Bool × CutPool K} (h : p.Adds answer) : answer.2.2.Wf := by
  obtain ⟨id, isActive, q⟩ := answer
  cases isActive with
  | true => exact Revives.wf h
  | false => exact Revives.wf h.1

theorem Wf.run (h : p.Wf) (call : Call K) : (call.run p).Wf := by
  cases call with
  | add cut => exact (h.add cut).wf
  | updateActivity duals => exact (h.updateActivity duals).1
  | separateInactive x minEfficacy => exact (h.separateInactive x minEfficacy).1.wf
  | activate id => exact (h.activate id).wf
  | delete id => exact h.delete id

/-! ## What a call does -/

/-- A call turns the cuts under some numbers, answering a number that is known if it answers
one at all, or it stores a cut, unlike all that are not deleted, under a new number. -/
inductive Step (p : CutPool K) (call : Call K) (q : CutPool K) : Prop
  | turns (ids : List Nat) (target : CutStatus) (h : Turns p q ids target)
      (hdelete : target = .deleted → ∀ x ∈ ids, call = .delete x)
      (hnamed : ∀ x cut, call.named p x = some cut → ∃ c, p.get? x = some c ∧ c.status ≠ .deleted)
  | stores (cut : Cut K) (hnamed : ∀ x, call.named p x = if x = p.nextId then some cut else none)
      (hunlike : ∀ x c, p.get? x = some c → c.status ≠ .deleted → parallel cut.row c.cut.row = false)
      (hread : ∀ x, q.get? x = if x = p.nextId then some (p.stored cut) else p.get? x)
      (hnext : q.nextId = p.nextId + 1)

/-- **Every call is a step.** -/
theorem Wf.step (h : p.Wf) (call : Call K) : Step p call (call.run p) := by
  cases call with
  | add cut =>
    have hadding := h.adding cut
    have hnamed : ∀ x, Call.named p x (.add cut) = if (p.add cut).1 = x then some cut else none := fun _ => rfl
    show Step p (.add cut) (p.add cut).2.2
    generalize p.add cut = answer at hadding hnamed
    -- the answer names the cut it found
    have hknown : ∀ {c : PooledCut K}, p.get? c.id = some c → c.status ≠ .deleted → answer.1 = c.id → ∀ x cut',
        Call.named p x (.add cut) = some cut' → ∃ c, p.get? x = some c ∧ c.status ≠ .deleted := by
      intro c hc hs hid x cut' hx
      rw [hnamed, hid] at hx
      split at hx
      · next heq => exact ⟨c, heq ▸ hc, hs⟩
      · cases hx
    cases hadding with
    | repeated c hc hs hlike =>
      have hturns := Turns.of_get? (p := p) (q := { p with duplicates := p.duplicates + 1 }) rfl (fun _ => rfl) .active
      exact .turns _ _ hturns nofun (hknown hc (by rw [hs]; nofun) rfl)
    | broughtBack c hc hs hlike =>
      exact .turns _ _ (h.activate_turns c.id) nofun (hknown hc (by rw [hs]; nofun) rfl)
    | new q hunlike hread hnext hcount =>
      refine .stores cut (fun x => (hnamed x).trans ?_) hunlike hread hnext
      simp only [eq_comm]
  | updateActivity duals => exact .turns _ _ (h.updateActivity_turns duals).1 nofun nofun
  | separateInactive x minEfficacy => exact .turns _ _ (h.separateInactive_turns x minEfficacy).1 nofun nofun
  | activate id => exact .turns _ _ (h.activate_turns id) nofun nofun
  | delete id =>
    exact .turns _ _ (h.delete_turns id) (fun _ x hx => by rw [(mem_doomed.mp hx).1]) nofun

namespace Step

omit [Scalar K] in
/-- What is turned keeps its cut, and stays deleted if it is. -/
theorem turns_back {ids : List Nat} {target : CutStatus} (h : Turns p q ids target) (hx : q.get? x = some c) :
    ∃ d, p.get? x = some d ∧ d.cut = c.cut ∧ (d.status = .deleted → c.status = .deleted) := by
  cases hget : p.get? x with
  | none =>
    rw [h.absent x hget] at hx
    cases hx
  | some d =>
    refine ⟨d, rfl, ?_⟩
    by_cases hmem : x ∈ ids
    · obtain ⟨d', c', hd', hlive, -, hc', hcut, -⟩ := h.turned x hmem
      obtain rfl : d' = d := Option.some.inj (hd'.symm.trans hget)
      obtain rfl : c' = c := Option.some.inj (hc'.symm.trans hx)
      exact ⟨hcut.symm, fun hdeleted => (hlive hdeleted).elim⟩
    · rcases h.other x hmem d hget with ⟨c', hc', hcut, hs⟩ | ⟨-, hnone⟩
      · obtain rfl : c' = c := Option.some.inj (hc'.symm.trans hx)
        exact ⟨hcut.symm, hs.trans⟩
      · rw [hx] at hnone
        cases hnone

/-- **A cut in the pool** was in it before, or is the one just stored. -/
theorem back (h : Step p call q) (hx : q.get? x = some c) :
    (∃ d, p.get? x = some d ∧ d.cut = c.cut ∧ (d.status = .deleted → c.status = .deleted)) ∨
      x = p.nextId ∧ call.named p x = some c.cut ∧
        ∀ y d, p.get? y = some d → d.status ≠ .deleted → parallel c.cut.row d.cut.row = false := by
  cases h with
  | turns ids target h hdelete hnamed => exact .inl (turns_back h hx)
  | stores cut hnamed hunlike hread hnext =>
    rw [hread] at hx
    split at hx
    · next heq =>
      cases hx
      exact .inr ⟨heq, (hnamed x).trans (if_pos heq), hunlike⟩
    · exact .inl ⟨c, hx, rfl, fun hs => hs⟩

/-- **A cut that is not deleted** stays, unless the call deletes it. -/
theorem kept (h : Step p call q) (hp : p.Wf) (hx : p.get? x = some c) (hs : c.status ≠ .deleted)
    (hcall : call ≠ .delete x) : ∃ d, q.get? x = some d ∧ d.cut = c.cut ∧ d.status ≠ .deleted := by
  cases h with
  | turns ids target h hdelete hnamed =>
    by_cases hmem : x ∈ ids
    · obtain ⟨c', d, hc', -, -, hd, hcut, htarget⟩ := h.turned x hmem
      obtain rfl : c' = c := Option.some.inj (hc'.symm.trans hx)
      exact ⟨d, hd, hcut, fun hdeleted => hcall (hdelete (htarget.symm.trans hdeleted) x hmem)⟩
    · rcases h.other x hmem c hx with ⟨d, hd, hcut, hstatus⟩ | ⟨hdeleted, -⟩
      · exact ⟨d, hd, hcut, hstatus ▸ hs⟩
      · exact (hs hdeleted).elim
  | stores cut hnamed hunlike hread hnext =>
    exact ⟨c, (hread x).trans ((if_neg (Nat.ne_of_lt (hp.lt_of_get? hx))).trans hx), rfl, hs⟩

theorem nextId_le (h : Step p call q) : p.nextId ≤ q.nextId := by
  cases h with
  | turns ids target h hdelete hnamed => exact h.nextId.ge
  | stores cut hnamed hunlike hread hnext => exact hnext.ge.trans' (Nat.le_succ _)

/-- **A number that is answered** is that of a cut in the pool, with the cut offered if the
number is new. -/
theorem named (h : Step p call q) (hp : p.Wf) (hx : call.named p x = some cut) :
    ∃ c, q.get? x = some c ∧ c.status ≠ .deleted ∧ (p.nextId ≤ x → c.cut = cut) := by
  cases h with
  | turns ids target h hdelete hnamed =>
    obtain ⟨c, hc, hs⟩ := hnamed x cut hx
    have hcall : call ≠ .delete x := by
      rintro rfl
      cases hx
    obtain ⟨d, hd, -, hlive⟩ := (Step.turns ids target h hdelete hnamed).kept hp hc hs hcall
    exact ⟨d, hd, hlive, fun hle => absurd (hp.lt_of_get? hc) (Nat.not_lt.mpr hle)⟩
  | stores cut' hnamed hunlike hread hnext =>
    rw [hnamed] at hx
    split at hx
    · next heq =>
      obtain rfl : cut' = cut := Option.some.inj hx
      exact ⟨p.stored cut', (hread x).trans (if_pos heq), nofun, fun _ => rfl⟩
    · cases hx

/-- A number that is not given out yet is passed over exactly if the call is not answered
with it. -/
theorem named_eq_none_iff (h : Step p call q) (hp : p.Wf) (hnew : p.nextId ≤ x) :
    call.named p x = none ↔ q.nextId ≤ x := by
  cases h with
  | turns ids target h hdelete hnamed =>
    refine iff_of_true (Option.eq_none_iff_forall_ne_some.mpr fun cut hx => ?_) (h.nextId ▸ hnew)
    obtain ⟨c, hc, -⟩ := hnamed x cut hx
    exact Nat.not_lt.mpr hnew (hp.lt_of_get? hc)
  | stores cut hnamed hunlike hread hnext =>
    rw [hnamed, hnext]
    split
    · next heq => exact iff_of_false nofun (by omega)
    · next hne => exact iff_of_true rfl (by omega)

end Step

/-! ## What calls keep -/

section Runs

variable {calls : List (Call K)}

/-- A number was given out, and its cut is deleted or gone. -/
def Buried (p : CutPool K) (x : Nat) : Prop := x < p.nextId ∧ ∀ c, p.get? x = some c → c.status = .deleted

/-- **What is deleted stays deleted.** -/
theorem Wf.buried (h : p.Wf) (hx : p.Buried x) (calls : List (Call K)) : (calls.foldl Call.run p).Buried x := by
  induction calls generalizing p with
  | nil => exact hx
  | cons call calls ih =>
    have hstep := h.step call
    refine ih (h.run call) ⟨hx.1.trans_le hstep.nextId_le, fun c hc => ?_⟩
    rcases hstep.back hc with ⟨d, hd, -, hs⟩ | ⟨heq, -⟩
    · exact hs (hx.2 d hd)
    · exact absurd heq (Nat.ne_of_lt hx.1)

/-- A cut stays until it is deleted. -/
theorem Wf.kept (h : p.Wf) (hx : p.get? x = some c) (hs : c.status ≠ .deleted) (hcalls : .delete x ∉ calls) :
    ∃ d, (calls.foldl Call.run p).get? x = some d ∧ d.cut = c.cut ∧ d.status ≠ .deleted := by
  induction calls generalizing p c with
  | nil => exact ⟨c, hx, rfl, hs⟩
  | cons call calls ih =>
    rw [List.mem_cons, not_or] at hcalls
    obtain ⟨d, hd, hcut, hlive⟩ := (h.step call).kept h hx hs (Ne.symm hcalls.1)
    rw [← hcut]
    exact ih (h.run call) hd hlive hcalls.2

/-- **A number names the cut first answered with it**, if it was given out on the way. -/
theorem Wf.firstNamed_of_get? (h : p.Wf) (hx : (calls.foldl Call.run p).get? x = some c) :
    (∃ d, p.get? x = some d ∧ d.cut = c.cut) ∨ p.nextId ≤ x ∧ firstNamed p x calls = some c.cut := by
  induction calls generalizing p with
  | nil => exact .inl ⟨c, hx, rfl⟩
  | cons call calls ih =>
    have hstep := h.step call
    rcases ih (h.run call) hx with ⟨d, hd, hcut⟩ | ⟨hle, hfirst⟩
    · rw [← hcut]
      rcases hstep.back hd with ⟨e, he, hsame, -⟩ | ⟨heq, hnamed, -⟩
      · exact .inl ⟨e, he, hsame⟩
      · refine .inr ⟨heq.ge, ?_⟩
        rw [firstNamed, hnamed, Option.some_or]
    · have hfresh := hstep.nextId_le.trans hle
      refine .inr ⟨hfresh, ?_⟩
      rw [firstNamed, (hstep.named_eq_none_iff h hfresh).mpr hle, Option.none_or, hfirst]

/-- A number that was answered is in the pool until it is deleted. -/
theorem Wf.get?_of_firstNamed (h : p.Wf) (hx : firstNamed p x calls = some cut) (hnew : p.nextId ≤ x)
    (hcalls : .delete x ∉ calls) :
    ∃ c, (calls.foldl Call.run p).get? x = some c ∧ c.cut = cut ∧ c.status ≠ .deleted := by
  induction calls generalizing p with
  | nil => cases hx
  | cons call calls ih =>
    have hstep := h.step call
    rw [firstNamed] at hx
    have hrest := fun hmem => hcalls (List.mem_cons_of_mem call hmem)
    cases hnamed : call.named p x with
    | none =>
      rw [hnamed, Option.none_or] at hx
      exact ih (h.run call) hx ((hstep.named_eq_none_iff h hnew).mp hnamed) hrest
    | some cut' =>
      rw [hnamed, Option.some_or] at hx
      cases hx
      obtain ⟨c, hc, hs, hcut⟩ := hstep.named h hnamed
      rw [← hcut hnew]
      exact (h.run call).kept hc hs hrest

end Runs

/-! ## The counter -/

omit [Scalar K] in
theorem IsActive.length_pos (h : p.IsActive x) (hp : p.Wf) : 0 < p.activeCuts.length := by
  have hpos := List.length_pos_of_mem (hp.mem_active.mpr h)
  rwa [List.length_map] at hpos

/-- What counting a round takes from the active cuts. -/
theorem Wf.updateActivity_length (h : p.Wf) (duals : List (Nat × K)) :
    p.activeCuts.length = (p.updateActivity duals).2.activeCuts.length + (p.updateActivity duals).1.length := by
  obtain ⟨hturns, hnodup, -⟩ := h.updateActivity_turns duals
  exact hturns.length_active_of_ne nofun h (h.updateActivity duals).1 hnodup fun x =>
    ⟨fun hx => ⟨hx, hturns.isActive_of_mem hx⟩, And.left⟩

/-- The counter is the number of active cuts. -/
def Counted (p : CutPool K) : Prop := p.numActive = p.activeCuts.length

omit [Scalar K] in
theorem Counted.activate (h : p.Counted) (hp : p.Wf) (id : Nat) : (p.activate id).2.Counted := by
  have hids : (if (p.activate id).1 then [id] else []).Nodup := by
    split
    · exact List.nodup_singleton id
    · exact List.nodup_nil
  unfold Counted
  rw [(p.activate_numbers id).2, (hp.activate_turns id).length_active hp (hp.activate id).wf hids, h]
  split <;> rfl

omit [Scalar K] in
theorem Counted.foldl_activate (h : p.Counted) (hp : p.Wf) (ids : List Nat) :
    Counted (ids.foldl (fun p id => (p.activate id).2) p) := by
  induction ids generalizing p with
  | nil => exact h
  | cons id ids ih => exact ih (h.activate hp id) (hp.activate id).wf

omit [Scalar K] in
theorem Counted.delete (h : p.Counted) (hp : p.Wf) (id : Nat) : (p.delete id).Counted := by
  have hturns := hp.delete_turns id
  unfold Counted
  by_cases hactive : p.IsActive id
  · have hlength := hturns.length_active_of_ne nofun hp (hp.delete id) (List.nodup_singleton id) fun x => by
      obtain ⟨c, hc, hs⟩ := hactive
      rw [List.mem_singleton, mem_doomed]
      exact ⟨fun hx => ⟨⟨hx, c, hc, by rw [hs]; nofun⟩, c, hx ▸ hc, hs⟩, fun hx => hx.1.1⟩
    rw [IsActive.delete_numActive hactive, h, hlength, List.length_singleton, Nat.add_sub_cancel]
  · have hlength := hturns.length_active_of_ne nofun hp (hp.delete id) List.nodup_nil fun x =>
      iff_of_false List.not_mem_nil fun ⟨hx, hx'⟩ => hactive ((mem_doomed.mp hx).1 ▸ hx')
    rw [delete_numActive hactive, h, hlength, List.length_nil, Nat.add_zero]

/-- **Every call keeps the counter right.** -/
theorem Counted.run (h : p.Counted) (hp : p.Wf) (call : Call K) : (call.run p).Counted := by
  cases call with
  | add cut =>
    have hadding := hp.adding cut
    have hwf := (hp.add cut).wf
    show (p.add cut).2.2.Counted
    generalize p.add cut = answer at hadding hwf
    cases hadding with
    | repeated c hc hs hlike => exact h
    | broughtBack c hc hs hlike => exact h.activate hp c.id
    | new q hunlike hread hnext hcount =>
      have hfresh : ¬ p.IsActive p.nextId := fun ⟨c, hc, _⟩ => Nat.lt_irrefl _ (hp.lt_of_get? hc)
      have hlength := hp.length_active hwf (List.nodup_singleton p.nextId) (fun x => ?_) fun x hx =>
        List.mem_singleton.mp hx ▸ hfresh
      · show q.numActive = q.activeCuts.length
        rw [hcount, h, hlength, List.length_singleton]
      · unfold IsActive
        rw [hread, List.mem_singleton]
        split
        · next heq => exact iff_of_true ⟨_, rfl, rfl⟩ (.inr heq)
        · next hne => rw [or_iff_left hne]
  | updateActivity duals =>
    have hlength := hp.updateActivity_length duals
    obtain ⟨-, -, hcount⟩ := hp.updateActivity_turns duals
    show (p.updateActivity duals).2.numActive = (p.updateActivity duals).2.activeCuts.length
    rw [hcount, h, hlength, Nat.add_sub_cancel]
  | separateInactive x minEfficacy => exact h.foldl_activate hp _
  | activate id => exact h.activate hp id
  | delete id => exact h.delete hp id

end Calls

/-! ## No two alike -/

variable {F : Type} [Field F] [LinearOrder F] [FloorRing F] [IsStrictOrderedRing F] [Rooted F]
  {p : CutPool (Exact F)}

/-- No two cuts that are not deleted are alike. -/
def Unlike (p : CutPool (Exact F)) : Prop := ∀ x c y d, p.get? x = some c → p.get? y = some d → x ≠ y →
  c.status ≠ .deleted → d.status ≠ .deleted → parallel c.cut.row d.cut.row = false

/-- **Every call keeps the cuts unlike.** -/
theorem Unlike.run (h : p.Unlike) (hp : p.Wf) (call : Call (Exact F)) : (call.run p).Unlike := by
  intro x c y d hc hd hne hlive hlive'
  have hstep := hp.step call
  rcases hstep.back hc with ⟨c', hc', hcut, hs⟩ | ⟨rfl, -, hunlike⟩ <;>
    rcases hstep.back hd with ⟨d', hd', hcut', hs'⟩ | ⟨rfl, -, hunlike'⟩
  · rw [← hcut, ← hcut']
    exact h x c' y d' hc' hd' hne (mt hs hlive) (mt hs' hlive')
  · rw [← hcut, parallel_comm]
    exact hunlike' x c' hc' (mt hs hlive)
  · rw [← hcut']
    exact hunlike y d' hd' (mt hs' hlive')
  · exact (hne rfl).elim

/-- What holds of a pool between two calls. -/
structure Books (p : CutPool (Exact F)) : Prop where
  wf : p.Wf
  counted : p.Counted
  unlike : p.Unlike

theorem Books.run (h : p.Books) (call : Call (Exact F)) : (call.run p).Books :=
  ⟨h.wf.run call, h.counted.run h.wf call, h.unlike.run h.wf call⟩

theorem Books.foldl (h : p.Books) (calls : List (Call (Exact F))) : (calls.foldl Call.run p).Books := by
  induction calls generalizing p with
  | nil => exact h
  | cons call calls ih => exact ih (h.run call)

omit [IsStrictOrderedRing F] in
theorem books_new (settings : PoolSettings (Exact F)) : (new settings).Books where
  wf := wf_new settings
  counted := rfl
  unlike x c y d hc := by cases hc

/-- **A pool keeps its books.** After any calls the counter is the number of active cuts and
covers what the next call takes from it; numbers are distinct; a number names the cut first
answered with it, which stays until it is deleted; no two cuts that are not deleted are alike;
what is deleted is never active again; a cut is answered as known only if it is active, and
as new only if it was not in the pool or inactive; and the numbers answered when a round is
counted or inactive cuts are separated are those of the cuts whose status changes. -/
theorem after_consistent (settings : PoolSettings (Exact F)) (calls : List (Call (Exact F))) :
    let p := after settings calls
    (p.numActive = p.activeCuts.length ∧ (∀ id, p.IsActive id → 1 ≤ p.numActive) ∧
      ∀ duals, (p.updateActivity duals).1.length ≤ p.numActive) ∧
    (p.cuts.toList.map PooledCut.id).Nodup ∧
    (∀ id c, p.get? id = some c → firstNamed (new settings) id calls = some c.cut) ∧
    (∀ id cut, firstNamed (new settings) id calls = some cut → .delete id ∉ calls →
      ∃ c, p.get? id = some c ∧ c.cut = cut ∧ c.status ≠ .deleted) ∧
    (∀ c ∈ p.cuts, ∀ d ∈ p.cuts, c.id ≠ d.id → c.status ≠ .deleted → d.status ≠ .deleted →
      parallel c.cut.row d.cut.row = false) ∧
    (∀ id c, p.get? id = some c → c.status = .deleted → ∀ later, ¬ (after settings (calls ++ later)).IsActive id) ∧
    (∀ cut, (p.add cut).2.2.IsActive (p.add cut).1 ∧ if (p.add cut).2.1 then p.IsActive (p.add cut).1 else
      p.get? (p.add cut).1 = none ∨ ∃ c, p.get? (p.add cut).1 = some c ∧ c.status = .inactive) ∧
    (∀ duals, (p.updateActivity duals).1.Nodup ∧ ∀ id, id ∈ (p.updateActivity duals).1 ↔
      ∃ c c', p.get? id = some c ∧ (p.updateActivity duals).2.get? id = some c' ∧ c'.status ≠ c.status) ∧
    (∀ x minEfficacy, (p.separateInactive x minEfficacy).1.Nodup ∧ ∀ id, id ∈ (p.separateInactive x minEfficacy).1 ↔
      ∃ c c', p.get? id = some c ∧ (p.separateInactive x minEfficacy).2.get? id = some c' ∧ c'.status ≠ c.status) := by
  intro p
  obtain ⟨hwf, hcounted, hunlike⟩ : p.Books := (books_new settings).foldl calls
  refine ⟨⟨hcounted, fun id hid => ?_, fun duals => ?_⟩, hwf.nodup, fun id c hc => ?_, fun id cut hfirst hcalls => ?_,
    fun c hc d hd hne => ?_, fun id c hc hs later => ?_, hwf.add_answer, fun duals => ?_, fun x minEfficacy => ?_⟩
  · rw [hcounted]
    exact hid.length_pos hwf
  · rw [hcounted, hwf.updateActivity_length duals]
    exact Nat.le_add_left ..
  · rcases (wf_new settings).firstNamed_of_get? hc with ⟨d, hd, -⟩ | ⟨-, hfirst⟩
    · cases hd
    · exact hfirst
  · exact (wf_new settings).get?_of_firstNamed hfirst (Nat.zero_le _) hcalls
  · exact hunlike _ c _ d (hwf.get?_eq hc) (hwf.get?_eq hd) hne
  · have hburied : p.Buried id := ⟨hwf.lt_of_get? hc, fun d hd => Option.some.inj (hc.symm.trans hd) ▸ hs⟩
    rintro ⟨d, hd, hactive⟩
    unfold after at hd
    rw [List.foldl_append] at hd
    rw [(hwf.buried hburied later).2 d hd] at hactive
    cases hactive
  · obtain ⟨hturns, hnodup, -⟩ := hwf.updateActivity_turns duals
    exact ⟨hnodup, fun id => hturns.mem_iff⟩
  · obtain ⟨hturns, hnodup⟩ := hwf.separateInactive_turns x minEfficacy
    exact ⟨hnodup, fun id => hturns.mem_iff⟩

/-- The row `x ≤ 1`, scaled. -/
def scaled (a : Exact ℚ) : Cut (Exact ℚ) where
  name := "scaled"
  row := { coefs := [(0, a)], lhs := Scalar.negInf, rhs := a }
  isLocal := false
  source := ""

/-- A row in two scales: the second is known, until the first is deleted. -/
def rescaled : List (Call (Exact ℚ)) :=
  [.add (scaled 1), .add (scaled 2), .delete 0, .add (scaled 2), .add (scaled 1)]

theorem after_consistent_rescaled :
    (after .default rescaled).cuts.toList.map (fun c => (c.id, c.status)) = [(0, .deleted), (1, .active)] ∧
      (after .default rescaled).duplicates = 2 ∧
      (after .default rescaled).numActive = (after .default rescaled).activeCuts.length ∧
      ∀ later, ¬ (after .default (rescaled ++ later)).IsActive 0 := by
  obtain ⟨hcount, -, -, -, -, hdeleted, -⟩ := after_consistent (F := ℚ) .default rescaled
  refine ⟨by decide +kernel, by decide +kernel, hcount.1, ?_⟩
  obtain ⟨c, hc, hs⟩ : ∃ c ∈ (after .default rescaled).get? 0, c.status = .deleted := by decide +kernel
  exact hdeleted 0 c hc hs

end CutPool

end BranchAndCut
