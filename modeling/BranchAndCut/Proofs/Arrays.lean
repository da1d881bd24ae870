import Mathlib
import BranchAndCut.Arrays

/-! # Arrays read with a default

The solver reads arrays past their end as a default value and writes there
without effect. These are the laws of reading after writing, and those of arrays
whose entries are found by places that are recorded for them. -/

namespace BranchAndCut

variable {α β : Type} (a : Array α) (i k : Nat)

theorem getD_setIfInBounds (x z : α) :
    (a.setIfInBounds i x).getD k z = if k = i ∧ i < a.size then x else a.getD k z := by
  by_cases hk : k = i
  · subst hk
    by_cases h : k < a.size <;> simp [h]
  · simp [hk, Ne.symm hk]

theorem getD_modify (f : α → α) (z : α) :
    (a.modify i f).getD k z = if k = i ∧ i < a.size then f (a.getD k z) else a.getD k z := by
  by_cases hk : k = i
  · subst hk
    by_cases h : k < a.size <;> simp [h, Array.getElem_modify]
  · simp [Array.getElem?_modify, hk, Ne.symm hk]

theorem getD_push (x z : α) : (a.push x).getD k z = if k = a.size then x else a.getD k z := by
  by_cases h : k = a.size
  · simp [h]
  · simp [h, Array.getElem?_push]

theorem getD_mapIdx (f : Nat → α → β) (y : α) (z : β) :
    (a.mapIdx f).getD k z = if k < a.size then f k (a.getD k y) else z := by
  by_cases h : k < a.size <;> simp [h]

theorem getD_map (f : α → β) (y : α) (z : β) :
    (a.map f).getD k z = if k < a.size then f (a.getD k y) else z := by
  by_cases h : k < a.size <;> simp [h]

theorem getD_zipWith {γ : Type} (b : Array β) (f : α → β → γ) (x : α) (y : β) (z : γ)
    (hsize : a.size = b.size) :
    (a.zipWith f b).getD k z = if k < a.size then f (a.getD k x) (b.getD k y) else z := by
  by_cases h : k < a.size
  · have hb : k < b.size := hsize ▸ h
    simp [h, hb]
  · simp [h, hsize ▸ h]

theorem getD_append (b : Array α) (z : α) :
    (a ++ b).getD k z = if k < a.size then a.getD k z else b.getD (k - a.size) z := by
  by_cases h : k < a.size
  · simp [h, Array.getElem?_append]
  · simp [h, Array.getElem?_append]

theorem getD_replicate (n k : Nat) (z : α) : (Array.replicate n z).getD k z = z := by
  by_cases h : k < n <;> simp [h]

theorem getD_of_size_le {z : α} (h : a.size ≤ k) : a.getD k z = z := by
  simp [Nat.not_lt.mpr h]

/-! ## Taking out an entry -/

section SwapRemove

variable {xs : Array α} {pos : Nat}

theorem getElem?_swapRemove (hpos : pos < xs.size) (i : Nat) :
    (swapRemove xs pos)[i]? =
      if i + 1 < xs.size then (if i = pos then xs[xs.size - 1]? else xs[i]?) else none := by
  unfold swapRemove
  cases hlast : xs.back? with
  | none => simp [Array.back?_eq_none_iff.mp hlast] at hpos
  | some last =>
    rw [Array.back?_eq_getElem?] at hlast
    dsimp only
    rw [Array.getElem?_pop, Array.size_setIfInBounds, Array.getElem?_setIfInBounds, hlast]
    by_cases hi : i + 1 < xs.size
    · have hlt : i < xs.size - 1 := by omega
      rw [if_pos hi, if_pos hlt]
      by_cases hip : i = pos
      · rw [if_pos hip.symm, if_pos hip, if_pos hpos]
      · rw [if_neg fun h => hip h.symm, if_neg hip]
    · rw [if_neg hi, if_neg (by omega)]

/-- What is left are the entries at other positions. -/
theorem exists_getElem?_swapRemove (hpos : pos < xs.size) {x : α} :
    (∃ i : Nat, (swapRemove xs pos)[i]? = some x) ↔ ∃ i : Nat, i ≠ pos ∧ xs[i]? = some x := by
  constructor
  · rintro ⟨i, hi⟩
    rw [getElem?_swapRemove hpos] at hi
    split at hi
    · split at hi
      · exact ⟨xs.size - 1, by omega, hi⟩
      · next hne => exact ⟨i, hne, hi⟩
    · cases hi
  · rintro ⟨i, hne, hi⟩
    have hlt := (Array.getElem?_eq_some_iff.mp hi).1
    by_cases hlast : i + 1 = xs.size
    · refine ⟨pos, ?_⟩
      rw [getElem?_swapRemove hpos, if_pos (by omega), if_pos rfl, ← hlast]
      exact hi
    · refine ⟨i, ?_⟩
      rw [getElem?_swapRemove hpos, if_pos (by omega), if_neg hne]
      exact hi

theorem map_swapRemove (f : α → β) (xs : Array α) (pos : Nat) :
    (swapRemove xs pos).map f = swapRemove (xs.map f) pos := by
  unfold swapRemove
  cases hlast : xs.back? with
  | none => simp [Array.back?_eq_none_iff.mp hlast]
  | some last =>
    have hlast' : (xs.map f).back? = some (f last) := by simp [hlast]
    rw [hlast']
    simp

end SwapRemove

/-! ## Places -/

section Located

variable {xs : Array α} {P : α → Prop} {place place' : α → Option Nat} {id : α}

/-- The entries of `xs` are the members of `P` for which a place is recorded, each
standing there. -/
def Located (xs : Array α) (P : α → Prop) (place : α → Option Nat) : Prop :=
  ∀ p x, xs[p]? = some x ↔ P x ∧ place x = some p

theorem Located.congr (hx : Located xs P place) (hsame : ∀ x, P x → place' x = place x) :
    Located xs P place' := fun p x =>
  (hx p x).trans ⟨fun h => ⟨h.1, (hsame x h.1).trans h.2⟩, fun h => ⟨h.1, (hsame x h.1).symm.trans h.2⟩⟩

variable [DecidableEq α]

theorem Located.push (hx : Located xs P place) (hid : P id) (hnone : place id = none) :
    Located (xs.push id) P fun x => if x = id then some xs.size else place x := by
  intro p x
  dsimp only
  rw [Array.getElem?_push]
  have hold := hx p x
  by_cases heq : x = id
  · subst heq
    have hnever : xs[p]? ≠ some x := fun h => by
      rw [hnone] at hold
      exact absurd (hold.mp h).2 nofun
    by_cases hp : p = xs.size
    · simp [hp, hid]
    · have hne : ¬ xs.size = p := fun h => hp h.symm
      simp [hp, hnever, hne]
  · have hne : ¬ id = x := fun h => heq h.symm
    rw [if_neg heq, ← hold]
    by_cases hp : p = xs.size
    · rw [if_pos hp, hp, Array.getElem?_eq_none (Nat.le_refl _)]
      simp [hne]
    · rw [if_neg hp]

/-- The last entry moves to the place of the one that is taken out. -/
theorem Located.swapRemove (hx : Located xs P place) {pos : Nat} (hpos : xs[pos]? = some id) :
    Located (BranchAndCut.swapRemove xs pos) P fun x => if x = id then none
      else if xs[xs.size - 1]? = some x then some pos else place x := by
  obtain ⟨hlt, -⟩ := Array.getElem?_eq_some_iff.mp hpos
  have hunique : ∀ {p q x}, xs[p]? = some x → xs[q]? = some x → p = q := fun hp hq =>
    Option.some.inj (((hx _ _).mp hp).2.symm.trans ((hx _ _).mp hq).2)
  intro p x
  dsimp only
  rw [getElem?_swapRemove hlt]
  constructor
  · intro h
    by_cases hp : p + 1 < xs.size
    · rw [if_pos hp] at h
      by_cases hmoved : p = pos
      · rw [if_pos hmoved] at h
        have hne : x ≠ id := by
          rintro rfl
          have := hunique h hpos
          omega
        exact ⟨((hx _ _).mp h).1, by rw [if_neg hne, if_pos h, hmoved]⟩
      · rw [if_neg hmoved] at h
        have hne : x ≠ id := by
          rintro rfl
          exact hmoved (hunique h hpos)
        have hlast : xs[xs.size - 1]? ≠ some x := fun hl => by
          have := hunique h hl
          omega
        exact ⟨((hx _ _).mp h).1, by rw [if_neg hne, if_neg hlast, ((hx _ _).mp h).2]⟩
    · rw [if_neg hp] at h
      cases h
  · rintro ⟨hP, h⟩
    by_cases hne : x = id
    · rw [if_pos hne] at h
      cases h
    · rw [if_neg hne] at h
      by_cases hlast : xs[xs.size - 1]? = some x
      · rw [if_pos hlast] at h
        obtain rfl := Option.some.inj h
        have hp : pos + 1 < xs.size := by
          have : pos ≠ xs.size - 1 := by
            intro heq
            rw [← heq, hpos] at hlast
            exact hne (Option.some.inj hlast).symm
          omega
        rw [if_pos hp, if_pos rfl, hlast]
      · rw [if_neg hlast] at h
        have hold := (hx p x).mpr ⟨hP, h⟩
        obtain ⟨hpx, -⟩ := Array.getElem?_eq_some_iff.mp hold
        have hp : p + 1 < xs.size := by
          have : p ≠ xs.size - 1 := fun heq => hlast (heq ▸ hold)
          omega
        have hmoved : p ≠ pos := by
          rintro rfl
          rw [hpos] at hold
          exact hne (Option.some.inj hold).symm
        rw [if_pos hp, if_neg hmoved, hold]

end Located

/-! ## Loops -/

/-- What holds at the start of a counted loop and is passed on by each round
holds at the end. -/
theorem fold_induction {n : Nat} {f : (i : Nat) → i < n → α → α} {x : α}
    (P : Nat → α → Prop) (hinit : P 0 x) (hstep : ∀ i (h : i < n) y, P i y → P (i + 1) (f i h y)) :
    P n (n.fold f x) := by
  induction n with
  | zero => simpa using hinit
  | succ n ih =>
    rw [Nat.fold_succ]
    exact hstep n (Nat.lt_succ_self n) _ (ih fun i h x => hstep i (Nat.lt_succ_of_lt h) x)

/-- The same for two loops side by side. -/
theorem fold_induction₂ {n : Nat} {f g : (i : Nat) → i < n → α → α} {x y : α}
    (P : Nat → α → α → Prop) (hinit : P 0 x y)
    (hstep : ∀ i (h : i < n) u v, P i u v → P (i + 1) (f i h u) (g i h v)) :
    P n (n.fold f x) (n.fold g y) := by
  induction n with
  | zero => simpa using hinit
  | succ n ih =>
    rw [Nat.fold_succ, Nat.fold_succ]
    exact hstep n (Nat.lt_succ_self n) _ _ (ih fun i h => hstep i (Nat.lt_succ_of_lt h))

/-- What holds at the start of a fold over the numbers up to a bound and is passed on
holds at the end. -/
theorem foldl_range_induction {n : Nat} {f : α → Nat → α} {x : α} (P : Nat → α → Prop)
    (hinit : P 0 x) (hstep : ∀ i < n, ∀ y, P i y → P (i + 1) (f y i)) :
    P n ((List.range n).foldl f x) := by
  induction n with
  | zero => exact hinit
  | succ n ih =>
    rw [List.range_succ, List.foldl_append]
    exact hstep n (Nat.lt_succ_self n) _ (ih fun i h => hstep i (Nat.lt_succ_of_lt h))

end BranchAndCut
