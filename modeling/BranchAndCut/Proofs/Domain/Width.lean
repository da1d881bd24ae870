import BranchAndCut.Proofs.Domain.Passage

/-! # Domains that get narrower along the path

The width of a store is the sum of the widths of some integral variables. No request makes
it greater, and a branching of one of them that leaves values on both sides takes one off.
So on a path of branchings the width and the number of nodes together do not grow. -/

namespace BranchAndCut.Domains

variable [Rooted ℚ] {t : Exact ℚ} {Z : VarId → Prop} {L : Finset VarId} {W : ℚ} {S D d : Domains (Exact ℚ)} {v : VarId}

/-- How far the bounds of a variable are apart. -/
def widthAt (d : Domains (Exact ℚ)) (v : VarId) : ℚ := (d.ub v).toField - (d.lb v).toField

def width (L : Finset VarId) (d : Domains (Exact ℚ)) : ℚ := ∑ v ∈ L, d.widthAt v

/-- The bounds of a variable are numbers that a tightening by one stands out from. -/
def Small (d : Domains (Exact ℚ)) (v : VarId) : Prop :=
  ∃ a b : ℚ, d.lb v = .fin a ∧ d.ub v = .fin b ∧ |a| < 10 ^ 8 ∧ |b| < 10 ^ 8

/-- There is room for as many branchings as the width tells, and no more. -/
structure Roomy (L : Finset VarId) (W : ℚ) (d : Domains (Exact ℚ)) : Prop where
  integral : ∀ v ∈ L, d.isIntegral v = true
  small : ∀ v ∈ L, d.Small v
  room : d.width L + d.frames.length ≤ W + 1

theorem Roomy.collapses (h : Collapses S D) (hS : Roomy L W S) : Roomy L W D := by
  have hsame : ∀ v ∈ L, D.lb v = S.lb v ∧ D.ub v = S.ub v := fun v hv => h.same (hS.integral v hv)
  refine ⟨fun v hv => (h.isIntegral v).trans (hS.integral v hv), fun v hv => ?_, ?_⟩
  · obtain ⟨a, b, hlb, hub, hsmall⟩ := hS.small v hv
    exact ⟨a, b, (hsame v hv).1.trans hlb, (hsame v hv).2.trans hub, hsmall⟩
  · have hwidth : D.width L = S.width L := Finset.sum_congr rfl fun v hv => by
      unfold widthAt
      rw [(hsame v hv).1, (hsame v hv).2]
    have hframes : D.frames.length = S.frames.length := by
      simpa [shape] using congrArg (fun x => x.nodes.length) h.shape
    rw [hwidth, hframes]
    exact hS.room

theorem Roomy.bounds (h : Roomy L W d) (hd : Sound t Z d) (hv : v ∈ L) :
    ∃ a b : ℤ, d.lb v = .fin a ∧ d.ub v = .fin b ∧ a ≤ b := by
  have hwhole := hd.rounded.whole v (hd.integral v (h.integral v hv))
  obtain ⟨a, b, ha, hb, -⟩ := h.small v hv
  have hlower := hwhole.wholeLower.2
  have hupper := hwhole.wholeUpper.1
  have hle := hwhole.between
  rw [ha] at hlower hle
  rw [hb] at hupper hle
  obtain ⟨y, rfl⟩ := Exact.exists_int_of_whole hlower
  obtain ⟨z, rfl⟩ := Exact.exists_int_of_whole hupper
  exact ⟨y, z, ha, hb, Int.cast_le.mp ((Exact.fin_le _ _).mp hle)⟩

/-- **The path** is no longer than the room. -/
theorem Roomy.length_le (h : Roomy L W d) (hd : Sound t Z d) : (d.frames.length : ℚ) ≤ W + 1 := by
  have hwidth : 0 ≤ d.width L := Finset.sum_nonneg fun v hv => by
    obtain ⟨a, b, ha, hb, hle⟩ := h.bounds hd hv
    unfold widthAt
    rw [ha, hb]
    exact sub_nonneg.mpr (Int.cast_le.mpr hle)
  exact (le_add_of_nonneg_left hwidth).trans h.room

/-- A value between the bounds of a variable. -/
theorem Small.between (h : d.Small v) {x : Exact ℚ} (hlb : d.lb v ≤ x) (hub : x ≤ d.ub v) :
    ∃ a b c : ℚ, d.lb v = .fin a ∧ d.ub v = .fin b ∧ x = .fin c ∧ a ≤ c ∧ c ≤ b ∧ |a| < 10 ^ 8 ∧ |b| < 10 ^ 8 ∧
      |c| < 10 ^ 8 := by
  obtain ⟨a, b, ha, hb, hsmalla, hsmallb⟩ := h
  rw [ha] at hlb
  rw [hb] at hub
  cases x with
  | fin c =>
    rw [Exact.fin_le] at hlb hub
    rw [abs_lt] at hsmalla hsmallb
    refine ⟨a, b, c, ha, hb, rfl, hlb, hub, abs_lt.mpr hsmalla, abs_lt.mpr hsmallb, abs_lt.mpr ?_⟩
    constructor <;> linarith
  | _ => first | exact hlb.elim | exact hub.elim

/-- What a recorded bound does to the width of its variable. -/
theorem Roomy.record_at (h : Roomy L W d) (hd : Sound t Z d) (hv : v ∈ L) (kind : BoundKind) {new : Exact ℚ}
    (hnew : d.Spans v new) (reason : Reason) : (d.record v kind new reason).Small v ∧
      (d.record v kind new reason).widthAt v = match kind with
        | .lower => (d.ub v).toField - new.toField
        | .upper => new.toField - (d.lb v).toField := by
  have hZ := hd.integral v (h.integral v hv)
  obtain ⟨-, -, hlower, hupper⟩ := hd.rounded.held v hZ
  obtain ⟨hlb, hub⟩ := hd.between hZ hnew
  obtain ⟨a, b, c, ha, hb, rfl, -, -, hsmalla, hsmallb, hsmallc⟩ := (h.small v hv).between hlb hub
  unfold widthAt Small
  rw [lb_record, ub_record]
  cases kind with
  | lower =>
    rw [if_pos ⟨rfl, rfl, hlower⟩, if_neg (fun hk => nomatch hk.1)]
    exact ⟨⟨c, b, rfl, hb, hsmallc, hsmallb⟩, rfl⟩
  | upper =>
    rw [if_neg (fun hk => nomatch hk.1), if_pos ⟨rfl, rfl, hupper⟩]
    exact ⟨⟨a, c, ha, rfl, hsmalla, hsmallc⟩, rfl⟩

/-- **A recorded bound** takes off the width what it takes off its variable. -/
theorem Roomy.record_width (h : Roomy L W d) (hd : Sound t Z d) (kind : BoundKind) {new : Exact ℚ} (gain : ℚ)
    (hnew : d.Spans v new) (reason : Reason) (hv : v ∈ L → match kind with
      | .lower => (d.lb v).toField + gain ≤ new.toField
      | .upper => new.toField + gain ≤ (d.ub v).toField) (hgain : v ∉ L → gain = 0) :
    (d.record v kind new reason).width L ≤ d.width L - gain ∧ ∀ w ∈ L, (d.record v kind new reason).Small w := by
  have hother : ∀ w, w ≠ v → (d.record v kind new reason).lb w = d.lb w ∧ (d.record v kind new reason).ub w = d.ub w :=
    fun w hw => record_other hw kind new reason
  have hsame : ∀ w, w ≠ v → (d.record v kind new reason).widthAt w = d.widthAt w := fun w hw => by
    unfold widthAt
    rw [(hother w hw).1, (hother w hw).2]
  refine ⟨?_, fun w hw => ?_⟩
  · by_cases hmem : v ∈ L
    · obtain ⟨-, hwidth⟩ := h.record_at hd hmem kind hnew reason
      unfold width
      rw [← Finset.add_sum_erase L _ hmem, ← Finset.add_sum_erase L (d.widthAt ·) hmem,
        Finset.sum_congr rfl fun w hw => hsame w (Finset.ne_of_mem_erase hw), hwidth]
      have hgain := hv hmem
      unfold widthAt
      cases kind <;> simp only [] at hgain ⊢ <;> linarith
    · rw [hgain hmem, sub_zero]
      refine le_of_eq (Finset.sum_congr rfl fun w hw => hsame w fun heq => hmem (heq ▸ hw))
  · by_cases hwv : w = v
    · subst hwv
      exact (h.record_at hd hw kind hnew reason).1
    · obtain ⟨a, b, ha, hb, hsmall⟩ := h.small w hw
      exact ⟨a, b, (hother w hwv).1.trans ha, (hother w hwv).2.trans hb, hsmall⟩

variable (hpos : 0 < t) (hhalf : t < 0.5)

include hpos hhalf

/-- **A request** leaves the room there is. -/
theorem Roomy.record (h : Roomy L W d) (hd : Sound t Z d) {kind : BoundKind} {value new : Exact ℚ}
    (happlied : d.judge v kind value = (.applied, new)) (reason : Reason) : Roomy L W (d.record v kind new reason) := by
  have hspans := hd.judge_spans hpos hhalf happlied
  obtain ⟨hwidth, hsmall⟩ := h.record_width hd kind 0 hspans reason (fun hv => by
    obtain ⟨hlb, hub⟩ := hd.between (hd.integral v (h.integral v hv)) hspans
    obtain ⟨a, b, c, ha, hb, rfl, hac, hcb, -⟩ := (h.small v hv).between hlb hub
    cases kind <;> simpa [ha, hb]) fun _ => rfl
  refine ⟨fun w hw => ?_, hsmall, ?_⟩
  · simpa [isIntegral] using h.integral w hw
  · have hroom := h.room
    have hframes : (d.record v kind new reason).frames.length = d.frames.length := by
      simpa using congrArg List.length (d.record_nodes v kind new reason)
    rw [hframes]
    linarith

omit hpos hhalf in
theorem Roomy.push (h : Roomy L W d) (node : NodeId) : Roomy L (W + 1) (d.push node) := by
  refine ⟨h.integral, h.small, ?_⟩
  have hroom := h.room
  have hwidth : (d.push node).width L = d.width L := rfl
  rw [hwidth]
  simp only [Domains.push, List.length_cons, Nat.cast_add, Nat.cast_one]
  linarith

/-- A change of a bound of a variable to a whole number that leaves values on both sides. -/
structure Cuts (d : Domains (Exact ℚ)) (L : Finset VarId) (c : BoundChange (Exact ℚ)) : Prop where
  mem : c.var ∈ L
  whole : ∃ z : ℤ, c.new = .fin (z : ℚ)
  between : match c.kind with
    | .lower => d.lb c.var + 1 ≤ c.new ∧ c.new ≤ d.ub c.var
    | .upper => d.lb c.var ≤ c.new ∧ c.new + 1 ≤ d.ub c.var

omit hpos hhalf in
/-- Where other variables have collapsed, it leaves values on both sides as well. -/
theorem Cuts.collapses (h : Collapses S D) (hS : Roomy L W S) {c : BoundChange (Exact ℚ)} (hc : S.Cuts L c) :
    D.Cuts L c := by
  obtain ⟨hlb, hub⟩ := h.same (hS.integral c.var hc.mem)
  exact ⟨hc.mem, hc.whole, by rw [hlb, hub]; exact hc.between⟩

omit hpos hhalf in
theorem boundEps_small {a : ℚ} (h : |a| < 10 ^ 8) : ∃ ε : ℚ, ε < 1 ∧ boundEps (Exact.fin a) = .fin ε := by
  exact ⟨slack a, slack_lt_one (h.trans (by norm_num)), boundEps_slack a⟩

/-- A change that leaves values on both sides is applied as it is. -/
theorem Cuts.applied (h : d.Roomy L W) (hd : Sound t Z d) {c : BoundChange (Exact ℚ)} (hc : d.Cuts L c) :
    d.Spans c.var c.new ∧ d.judge c.var c.kind c.new = (.applied, c.new) ∧ match c.kind with
      | .lower => (d.lb c.var).toField + 1 ≤ c.new.toField
      | .upper => c.new.toField + 1 ≤ (d.ub c.var).toField := by
  obtain ⟨a, b, hlb, hub, hsmalla, hsmallb⟩ := h.small c.var hc.mem
  obtain ⟨z, hz⟩ := hc.whole
  obtain ⟨v, kind, old, new, reason⟩ := c
  obtain ⟨-, -, hbetween⟩ := hc
  dsimp only at hlb hub hz hbetween ⊢
  subst hz
  rw [hlb, hub, Exact.one_def] at hbetween
  obtain ⟨ε, rfl, hε, -⟩ := Exact.exists_fin_of_tolerance hpos hhalf
  have hrounded := fun kind => hd.rounded_eq hpos hhalf (v := v) kind fun _ => Exact.whole_intCast z
  cases kind with
  | lower =>
    obtain ⟨hlow, hhigh⟩ : a + 1 ≤ z ∧ z ≤ b := hbetween
    obtain ⟨η, hη, heps⟩ := boundEps_small hsmalla
    refine ⟨⟨.inl ?_, fun _ => Exact.whole_intCast z⟩, ?_, ?_⟩
    · rw [hlb, hub, Exact.fin_le, Exact.fin_le]
      constructor <;> linarith
    · refine judge_lower_applied.mpr ⟨rfl, ?_, ?_, ?_⟩
      · rw [hrounded, hlb, heps, Exact.fin_add, Exact.fin_le]
        linarith
      · rw [hrounded, hub, hd.rounded.tol, Exact.fin_add, Exact.fin_lt]
        linarith
      · rw [hrounded, hub]
        exact Exact.min_eq_left' hhigh
    · rw [hlb]
      exact hlow
  | upper =>
    obtain ⟨hlow, hhigh⟩ : a ≤ z ∧ (z : ℚ) + 1 ≤ b := hbetween
    obtain ⟨η, hη, heps⟩ := boundEps_small hsmallb
    refine ⟨⟨.inl ?_, fun _ => Exact.whole_intCast z⟩, ?_, ?_⟩
    · rw [hlb, hub, Exact.fin_le, Exact.fin_le]
      constructor <;> linarith
    · refine judge_upper_applied.mpr ⟨rfl, ?_, ?_, ?_⟩
      · rw [hrounded, hub, heps, Exact.fin_sub, Exact.fin_le]
        linarith
      · rw [hrounded, hlb, hd.rounded.tol, Exact.fin_sub, Exact.fin_lt]
        linarith
      · rw [hrounded, hlb]
        exact Exact.max_eq_left' hlow
    · rw [hub]
      exact hhigh

/-- **A branching** takes one off the width for the node that it adds. -/
theorem Roomy.branch (h : Roomy L W d) (hd : Sound t Z d) {c : BoundChange (Exact ℚ)} (hc : d.Cuts L c) (node : NodeId) :
    (d.push node).Calm [c] ∧ Roomy L W ((d.push node).replay [c]).2 := by
  have hcuts : (d.push node).Cuts L c := ⟨hc.mem, hc.whole, hc.between⟩
  have hpush := h.push node
  have hsound := hd.push node
  obtain ⟨hspans, happlied, hgain⟩ := hcuts.applied hpos hhalf hpush hsound
  have hreplay : ((d.push node).replay [c]).2 = (d.push node).record c.var c.kind c.new c.reason := by
    rw [hsound.replay_cons hpos hhalf hspans, replay_nil]
    unfold Domains.tighten
    rw [happlied]
  obtain ⟨hwidth, hsmall⟩ := hpush.record_width hsound c.kind 1 hspans c.reason (fun _ => hgain) fun hnot => absurd hc.mem hnot
  refine ⟨⟨hspans, trivial⟩, ?_⟩
  rw [hreplay]
  refine ⟨fun w hw => ?_, hsmall, ?_⟩
  · simpa [isIntegral] using hpush.integral w hw
  · have hroom := hpush.room
    have hframes : ((d.push node).record c.var c.kind c.new c.reason).frames.length = (d.push node).frames.length := by
      simpa using congrArg List.length ((d.push node).record_nodes c.var c.kind c.new c.reason)
    rw [hframes]
    linarith

end BranchAndCut.Domains
