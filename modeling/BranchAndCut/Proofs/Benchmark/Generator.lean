import BranchAndCut.Benchmark.Family
import BranchAndCut.Proofs.Exact

/-! # What the generator draws

A step multiplies the state and adds one, modulo `2 ^ 64`. So do several steps at once, with
another factor and another increment, and those of `2 ^ 63` steps are one and `2 ^ 63`. The
numbers drawn half a period apart are therefore as far apart as can be, and every choice among
two or more is followed by another one before long. -/

namespace BranchAndCut.Benchmark

namespace Generator

open scoped UInt64.CommRing

/-! ## Many steps at once -/

/-- The factor and the increment of `2 ^ e` steps. -/
def jump : Nat → UInt64 × UInt64
  | 0 => (6364136223846793005, 1)
  | e + 1 => ((jump e).1 * (jump e).1, ((jump e).1 + 1) * (jump e).2)

theorem iterate_next (e : Nat) (g : Generator) : next^[2 ^ e] g = ⟨g.state * (jump e).1 + (jump e).2⟩ := by
  induction e generalizing g with
  | zero => rfl
  | succ e ih =>
    rw [pow_succ, mul_two, Function.iterate_add_apply, ih, ih]
    simp only [jump]
    congr 1
    ring

/-- Half of the period. -/
@[irreducible] def halfPeriod : Nat := 2 ^ 63

/-- Half a period adds half of the modulus. -/
theorem iterate_half (g : Generator) : next^[halfPeriod] g = ⟨g.state + 9223372036854775808⟩ := by
  have hjump : jump 63 = (1, 9223372036854775808) := by decide +kernel
  unfold halfPeriod
  rw [iterate_next, hjump, mul_one]

theorem bits_eq (g : Generator) : g.bits = g.state.toNat / 2 ^ 33 := by
  unfold bits
  rw [UInt64.toNat_shiftRight, Nat.shiftRight_eq_div_pow]
  rfl

theorem bits_lt (g : Generator) : g.bits < 2 ^ 31 := by
  have hstate := g.state.toNat_lt
  rw [bits_eq]
  omega

theorem bits_half (g : Generator) : (next^[halfPeriod] g).bits = (g.bits + 2 ^ 30) % 2 ^ 31 := by
  have hadd : (g.state + 9223372036854775808).toNat = (g.state.toNat + 2 ^ 63) % 2 ^ 64 := UInt64.toNat_add ..
  rw [iterate_half, bits_eq, bits_eq, hadd]
  omega

/-! ## Choices -/

/-- The number that is drawn next out of `span` ones. -/
def pick (g : Generator) (span : Nat) : Nat := g.next.bits * span / 2 ^ 31

theorem pick_lt (g : Generator) {span : Nat} (h : 0 < span) : g.pick span < span := by
  have hbits := g.next.bits_lt
  unfold pick
  rw [Nat.div_lt_iff_lt_mul (by positivity), mul_comm]
  exact Nat.mul_lt_mul_of_pos_left hbits h

/-- Half a period later another number is drawn, if there is another one. -/
theorem pick_half_ne (g : Generator) {span : Nat} (h : 2 ≤ span) : (next^[halfPeriod] g).pick span ≠ g.pick span := by
  have hnext : ∀ n, (next^[n] g).next = next^[n] g.next := fun n => Function.Commute.self_iterate next n g
  have hbits := g.next.bits_lt
  unfold pick
  rw [hnext, bits_half]
  generalize g.next.bits = b at hbits
  -- the two products differ by half of the span at least
  rcases Nat.lt_or_ge b (2 ^ 30) with hlt | hge
  · have hmod : (b + 2 ^ 30) % 2 ^ 31 = b + 2 ^ 30 := by omega
    rw [hmod, add_mul]
    omega
  · have hmod : (b + 2 ^ 30) % 2 ^ 31 = b - 2 ^ 30 := by omega
    obtain ⟨c, rfl⟩ := Nat.exists_eq_add_of_le hge
    rw [hmod, Nat.add_sub_cancel_left, add_mul]
    omega

/-- **Every choice is followed by another one** after half a period at most. -/
theorem exists_pick_ne (g : Generator) {span : Nat} (h : 2 ≤ span) (i : Nat) :
    ∃ k ≤ halfPeriod, (next^[k] g).pick span ≠ i := by
  by_cases hfirst : g.pick span = i
  · refine ⟨halfPeriod, le_rfl, ?_⟩
    rw [← hfirst]
    exact g.pick_half_ne h
  · exact ⟨0, Nat.zero_le _, hfirst⟩

variable [Rooted ℚ]

/-- The integer part of an exact number of a range. -/
theorem toUInt64_fin {q : ℚ} {n : Nat} (hfloor : ⌊q⌋ = n) (hn : n < 2 ^ 64) :
    (Scalar.toUInt64 (Exact.fin q)).toNat = n := by
  show (UInt64.ofNat (min ⌊q⌋.toNat (2 ^ 64 - 1))).toNat = n
  rw [hfloor, Int.toNat_natCast, UInt64.toNat_ofNat', min_eq_left (by omega), Nat.mod_eq_of_lt hn]

/-- Over exact numbers a range is drawn from evenly, up to a remainder. -/
theorem range_eq (g : Generator) (lo hi : UInt32) (hle : lo ≤ hi) (hspan : hi.toNat - lo.toNat + 1 < 2 ^ 32) :
    (g.range (Exact ℚ) lo hi).1.toNat = lo.toNat + g.pick (hi.toNat - lo.toNat + 1) ∧
      (g.range (Exact ℚ) lo hi).2 = g.next := by
  refine ⟨?_, rfl⟩
  have hdiff : (hi - lo).toNat = hi.toNat - lo.toNat := UInt32.toNat_sub_of_le hi lo hle
  have hsize : (hi - lo + 1).toNat = hi.toNat - lo.toNat + 1 := by
    rw [UInt32.toNat_add, hdiff]
    exact Nat.mod_eq_of_lt hspan
  have hpick : g.pick (hi.toNat - lo.toNat + 1) < hi.toNat - lo.toNat + 1 := g.pick_lt (Nat.succ_pos _)
  have hhi := hi.toNat_lt
  have hle' : lo.toNat ≤ hi.toNat := hle
  have hquot : Exact.fin ((g.next.bits : ℚ) / ((Nat.pow 2 31 : ℕ) : ℚ) * ((hi - lo + 1).toNat : ℚ)) =
      (g.unit (K := Exact ℚ)).1 * Scalar.ofNat (hi - lo + 1).toNat := by
    show _ = Exact.fin _ / Exact.fin _ * Exact.fin _
    rw [Exact.fin_div (by norm_num), Exact.fin_mul]
  have hdrawn : (Scalar.toUInt64 ((g.unit (K := Exact ℚ)).1 * Scalar.ofNat (hi - lo + 1).toNat)).toNat =
      g.pick (hi.toNat - lo.toNat + 1) := by
    rw [← hquot]
    refine toUInt64_fin ?_ (by omega)
    rw [div_mul_eq_mul_div, hsize, ← Nat.cast_mul, Rat.floor_natCast_div_natCast]
    rfl
  show (lo + UInt32.ofNat (Nat.min (Scalar.toUInt64 ((g.unit (K := Exact ℚ)).1 *
    Scalar.ofNat (hi - lo + 1).toNat)).toNat (hi - lo).toNat)).toNat = _
  have hmin : Nat.min (g.pick (hi.toNat - lo.toNat + 1)) (hi.toNat - lo.toNat) = g.pick (hi.toNat - lo.toNat + 1) :=
    Nat.min_eq_left (Nat.lt_succ_iff.mp hpick)
  rw [hdrawn, hdiff, hmin, UInt32.toNat_add, UInt32.toNat_ofNat', Nat.mod_eq_of_lt (by omega : g.pick _ < 2 ^ 32),
    Nat.mod_eq_of_lt (by omega)]

end Generator

/-! ## Rows of a covering model -/

variable [Rooted ℚ] {σ : Type} {n fuel : Nat} {l : List VarId}

/-- The row of some sets. -/
def covers (l : List VarId) : List (VarId × Exact ℚ) := l.map fun v => (v, 1)

/-- The number drawn among the sets of a model is the set itself. -/
theorem range_sets (hn : 1 ≤ n) (hn' : n < 2 ^ 32) (g : Generator) :
    (List.range n).toArray.getD (g.range (Exact ℚ) 0 (UInt32.ofNat (List.range n).toArray.size - 1)).1.toNat 0 =
      g.pick n := by
  have hget : ∀ i < n, (List.range n).toArray.getD i 0 = i := fun i hi => by simp [hi]
  have hsize : (List.range n).toArray.size = n := by simp
  have hofNat : (UInt32.ofNat n).toNat = n := UInt32.toNat_ofNat_of_lt' hn'
  have hlast : (UInt32.ofNat n - 1).toNat = n - 1 := by
    rw [UInt32.toNat_sub_of_le _ _ (by rw [UInt32.le_iff_toNat_le, hofNat]; exact hn), hofNat]
    rfl
  have hspan : (UInt32.ofNat n - 1).toNat - (0 : UInt32).toNat + 1 = n := by
    rw [hlast]
    exact Nat.sub_add_cancel hn
  obtain ⟨hdrawn, -⟩ := g.range_eq 0 (UInt32.ofNat n - 1) (UInt32.le_iff_toNat_le.mpr (Nat.zero_le _))
    (by rw [hspan]; exact hn')
  rw [hspan, UInt32.toNat_zero, Nat.zero_add] at hdrawn
  rw [hsize, hdrawn, hget _ (g.pick_lt hn)]

/-- One draw, for a row that is not complete yet. -/
theorem complete_step (hn : 1 ≤ n) (hn' : n < 2 ^ 32) {wanted : Nat} (hl : l.length < wanted) (g : Generator) :
    (complete (σ := σ) (List.range n).toArray wanted (covers l) (fuel + 1)) g =
      if g.pick n ∈ l then complete (List.range n).toArray wanted (covers l) fuel g.next
      else complete (List.range n).toArray wanted (covers (l ++ [g.pick n])) fuel g.next := by
  have hnew : ((covers l).all fun (t, _) => t != g.pick n) = true ↔ g.pick n ∉ l := by
    unfold covers
    rw [List.all_map, List.all_eq_true]
    simp only [Function.comp_apply, bne_iff_ne]
    exact ⟨fun h hmem => h _ hmem rfl, fun h v hv heq => h (heq ▸ hv)⟩
  have hadd : covers (l ++ [g.pick n]) = covers l ++ [(g.pick n, 1)] := by
    unfold covers
    rw [List.map_append]
    rfl
  have hshort : ¬ wanted ≤ (covers l).length := by
    rw [covers, List.length_map]
    exact Nat.not_le.mpr hl
  have hrun : ∀ (f : UInt32 → BuildM (Exact ℚ) σ (List (VarId × Exact ℚ))) (h : Generator → UInt32 × Generator),
      (modifyGet h >>= f : BuildM (Exact ℚ) σ _) g = f (h g).1 (h g).2 := fun _ _ => rfl
  rw [complete, if_neg hshort, hrun, range_sets hn hn', hadd]
  by_cases hmem : g.pick n ∈ l
  · rw [if_pos hmem, if_neg fun h => hnew.mp h hmem]
    rfl
  · rw [if_neg hmem, if_pos (hnew.mpr hmem)]
    rfl

/-- Draws of sets that a row has already leave it as it is. -/
theorem complete_skip (hn : 1 ≤ n) (hn' : n < 2 ^ 32) {wanted : Nat} (hl : l.length < wanted) (k : Nat) (g : Generator)
    (hold : ∀ i < k, (Generator.next^[i] g).pick n ∈ l) :
    (complete (σ := σ) (List.range n).toArray wanted (covers l) (k + fuel)) g =
      complete (List.range n).toArray wanted (covers l) fuel (Generator.next^[k] g) := by
  induction k generalizing g with
  | zero => rw [Nat.zero_add, Function.iterate_zero_apply]
  | succ k ih =>
    have hfirst := hold 0 (Nat.succ_pos k)
    rw [Function.iterate_zero_apply] at hfirst
    rw [Nat.succ_add, complete_step hn hn' hl, if_pos hfirst,
      ih g.next fun i hi => Function.iterate_succ_apply Generator.next i g ▸ hold (i + 1) (Nat.succ_lt_succ hi),
      Function.iterate_succ_apply]

/-- **A row gets another set** within half a period and one draw, the first one at once. -/
theorem complete_adds (hn : 1 ≤ n) (hn' : n < 2 ^ 32) (hl : l.length < min n 2) (g : Generator) :
    ∃ k v, k ≤ Generator.halfPeriod ∧ (l = [] → k = 0) ∧ v < n ∧ v ∉ l ∧ ∀ fuel,
      (complete (σ := σ) (List.range n).toArray (min n 2) (covers l) (k + (fuel + 1))) g =
        complete (List.range n).toArray (min n 2) (covers (l ++ [v])) fuel (Generator.next^[k + 1] g) := by
  have hexists : ∃ k, k ≤ Generator.halfPeriod ∧ (Generator.next^[k] g).pick n ∉ l := by
    match l, hl with
    | [], _ => exact ⟨0, Nat.zero_le _, nofun⟩
    | [s], hl =>
      obtain ⟨k, hk, hne⟩ := g.exists_pick_ne (show 2 ≤ n from by simp at hl; omega) s
      exact ⟨k, hk, fun h => hne (List.mem_singleton.mp h)⟩
    | _ :: _ :: _, hl => simp at hl
  classical
  obtain ⟨hle, hnew⟩ := Nat.find_spec hexists
  have hold : ∀ i < Nat.find hexists, (Generator.next^[i] g).pick n ∈ l := fun i hi =>
    by_contra fun h => Nat.find_min hexists hi ⟨(Nat.le_of_lt hi).trans hle, h⟩
  refine ⟨Nat.find hexists, _, hle, fun hnil => ?_, Generator.pick_lt _ hn, hnew, fun fuel => ?_⟩
  · subst hnil
    exact (Nat.find_eq_zero hexists).mpr ⟨Nat.zero_le _, nofun⟩
  · rw [complete_skip hn hn' hl _ g hold, complete_step hn hn' hl, if_neg hnew, Function.iterate_succ_apply']

theorem complete_done {sets : Array VarId} {wanted : Nat} (hl : wanted ≤ l.length) (g : Generator) :
    (complete (σ := σ) sets wanted (covers l) (fuel + 1)) g = pure (covers l, g) := by
  rw [complete, if_pos (by rwa [covers, List.length_map])]
  rfl

/-- A row that lacks one set at most. -/
theorem complete_last (hn : 1 ≤ n) (hn' : n < 2 ^ 32) (hlt : ∀ v ∈ l, v < n) (hnodup : l.Nodup)
    (hl : min n 2 ≤ l.length + 1) (hfuel : Generator.halfPeriod + 2 ≤ fuel) (g : Generator) :
    ∃ l' g', l'.Nodup ∧ (∀ v ∈ l', v < n) ∧ min n 2 ≤ l'.length ∧
      (complete (σ := σ) (List.range n).toArray (min n 2) (covers l) fuel) g = pure (covers l', g') := by
  by_cases hdone : min n 2 ≤ l.length
  · obtain ⟨f, rfl⟩ : ∃ f, fuel = f + 1 := ⟨fuel - 1, by omega⟩
    exact ⟨l, g, hnodup, hlt, hdone, complete_done hdone g⟩
  obtain ⟨k, v, hk, -, hv, hnew, hstep⟩ := complete_adds (σ := σ) hn hn' (Nat.not_le.mp hdone) g
  obtain ⟨f, rfl⟩ : ∃ f, fuel = k + (f + 1 + 1) := ⟨fuel - k - 2, by omega⟩
  have hlength : (l ++ [v]).length = l.length + 1 := by rw [List.length_append, List.length_singleton]
  refine ⟨l ++ [v], _, ?_, fun w hw => ?_, hlength ▸ hl, (hstep (f + 1)).trans (complete_done (hlength ▸ hl) _)⟩
  · exact List.nodup_append.mpr ⟨hnodup, List.nodup_singleton v, fun a ha b hb heq =>
      hnew ((List.mem_singleton.mp hb) ▸ heq ▸ ha)⟩
  · rcases List.mem_append.mp hw with hw | hw
    · exact hlt w hw
    · exact List.mem_singleton.mp hw ▸ hv

/-- **Rows are completed**, whatever the state of the generator is: with two sets, or with the
only one there is. -/
theorem complete_returns (hn : 1 ≤ n) (hn' : n < 2 ^ 32) (hlt : ∀ v ∈ l, v < n) (hnodup : l.Nodup)
    (hfuel : Generator.halfPeriod + 3 ≤ fuel) (g : Generator) :
    ∃ l' g', l'.Nodup ∧ (∀ v ∈ l', v < n) ∧ min n 2 ≤ l'.length ∧
      (complete (σ := σ) (List.range n).toArray (min n 2) (covers l) fuel) g = pure (covers l', g') := by
  by_cases hl : min n 2 ≤ l.length + 1
  · exact complete_last hn hn' hlt hnodup hl (by omega) g
  · obtain rfl : l = [] := List.length_eq_zero_iff.mp (by omega)
    obtain ⟨k, v, -, hk, hv, -, hstep⟩ := complete_adds (σ := σ) hn hn' (show [].length < min n 2 by omega) g
    obtain ⟨f, rfl⟩ : ∃ f, fuel = 0 + (f + 1) := ⟨fuel - 1, by omega⟩
    rw [hk rfl] at hstep
    rw [hstep f]
    exact complete_last hn hn' (List.forall_mem_singleton.mpr hv) (List.nodup_singleton v)
      ((Nat.min_le_right n 2).trans (Nat.le_refl 2)) (by omega) _

end BranchAndCut.Benchmark
