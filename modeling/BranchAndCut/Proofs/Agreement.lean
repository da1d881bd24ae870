import BranchAndCut.Proofs.Program
import BranchAndCut.Solve.Rounds

/-! # Two runs of a program

A program that starts from two states gives the same answer, or fails in the same way, and
leaves states that differ no more than those it started from. Both runs are taken apart one
step at a time, side by side. -/

namespace BranchAndCut

/-- Two programs end with the same result or the same error, in states that `R` relates. -/
def Agrees {ε σ α : Type} (R : σ → σ → Prop) (m : EStateM ε σ α) (s : σ) (m' : EStateM ε σ α) (t : σ) : Prop :=
  match m s, m' t with
  | .ok a u, .ok b v => a = b ∧ R u v
  | .error e u, .error f v => e = f ∧ R u v
  | _, _ => False

/-- A program for which related states make no difference. -/
def Respects {ε σ α : Type} (R : σ → σ → Prop) (m : EStateM ε σ α) : Prop := ∀ s t, R s t → Agrees R m s m t

namespace Agrees

variable {ε σ α β : Type} {R : σ → σ → Prop} {s t : σ}

theorem pure (a : α) (h : R s t) : Agrees R (Pure.pure a : EStateM ε σ α) s (Pure.pure a) t := ⟨rfl, h⟩

theorem throw (e : ε) (h : R s t) : Agrees R (throw e : EStateM ε σ α) s (throw e) t := ⟨rfl, h⟩

theorem set {u v : σ} (h : R u v) : Agrees R (MonadStateOf.set u : EStateM ε σ PUnit) s (MonadStateOf.set v) t :=
  ⟨rfl, h⟩

/-- What is read are the states that the rest starts from. -/
theorem get_bind {f f' : σ → EStateM ε σ α} (h : Agrees R (f s) s (f' t) t) :
    Agrees R (MonadState.get >>= f) s (MonadState.get >>= f') t := h

theorem bind {m m' : EStateM ε σ β} {f f' : β → EStateM ε σ α} (h : Agrees R m s m' t)
    (hf : ∀ b u v, R u v → Agrees R (f b) u (f' b) v) : Agrees R (m >>= f) s (m' >>= f') t := by
  change match EStateM.bind m f s, EStateM.bind m' f' t with
    | .ok a u, .ok b v => a = b ∧ R u v
    | .error e u, .error f v => e = f ∧ R u v
    | _, _ => False
  unfold Agrees at h
  unfold EStateM.bind
  cases hm : m s <;> cases hm' : m' t <;> rw [hm, hm'] at h
  · obtain ⟨rfl, h⟩ := h
    exact hf _ _ _ h
  · exact h.elim
  · exact h.elim
  · exact h

end Agrees

namespace Respects

variable {ε σ α β : Type} {R : σ → σ → Prop}

/-- The same state is no difference. -/
theorem eq (m : EStateM ε σ α) : Respects Eq m := by
  rintro s _ rfl
  unfold Agrees
  cases m s <;> exact ⟨rfl, rfl⟩

theorem pure (a : α) : Respects R (Pure.pure a : EStateM ε σ α) := fun _ _ h => .pure a h

theorem throw (e : ε) : Respects R (throw e : EStateM ε σ α) := fun _ _ h => .throw e h

theorem bind {m : EStateM ε σ β} {f : β → EStateM ε σ α} (h : Respects R m) (hf : ∀ b, Respects R (f b)) :
    Respects R (m >>= f) :=
  fun s t hst => .bind (h s t hst) hf

/-- Nothing comes after an error. -/
theorem throw_bind (e : ε) (f : β → EStateM ε σ α) : Respects R (MonadExcept.throw e >>= f) := fun _ _ h => .throw e h

theorem ite {c : Prop} {_ : Decidable c} {m m' : EStateM ε σ α} (h : Respects R m) (h' : Respects R m') :
    Respects R (if c then m else m') := by
  split
  · exact h
  · exact h'

/-- A step that is taken only under a condition. -/
theorem iteBind {c : Prop} {_ : Decidable c} {m : EStateM ε σ PUnit} {f : PUnit → EStateM ε σ α} (h : Respects R m)
    (hf : ∀ u, Respects R (f u)) : Respects R (if c then m >>= f else f ⟨⟩) :=
  .ite (.bind h hf) (hf ⟨⟩)

/-- Nothing is read in which the states differ. -/
theorem get_bind {f : σ → EStateM ε σ α} (hsame : ∀ s t, R s t → f t = f s) (hf : ∀ s, Respects R (f s)) :
    Respects R (MonadState.get >>= f) := fun s t h => by
  refine .get_bind ?_
  rw [hsame s t h]
  exact hf s s t h

theorem modifyGet {f : σ → α × σ} (hsame : ∀ s t, R s t → (f t).1 = (f s).1)
    (hf : ∀ s t, R s t → R (f s).2 (f t).2) : Respects R (MonadState.modifyGet f : EStateM ε σ α) :=
  fun s t h => ⟨(hsame s t h).symm, hf s t h⟩

theorem modify {f : σ → σ} (hf : ∀ s t, R s t → R (f s) (f t)) : Respects R (modify f : EStateM ε σ PUnit) :=
  fun s t h => ⟨rfl, hf s t h⟩

/-- An action on a part of a larger state. -/
theorem onPart {τ : Type} {S : τ → τ → Prop} {part : σ → τ} {put : σ → τ → σ} {act : EStateM ε τ α}
    (h : Respects S act) (hpart : ∀ s t, R s t → S (part s) (part t))
    (hput : ∀ s t, R s t → ∀ a b, S a b → R (put s a) (put t b)) : Respects R (onPart part put act) := by
  intro s t hst
  have hact := h _ _ (hpart s t hst)
  unfold Agrees at hact ⊢
  unfold BranchAndCut.onPart
  cases hs : act (part s) <;> cases ht : act (part t) <;> rw [hs, ht] at hact
  · exact ⟨hact.1, hput s t hst _ _ hact.2⟩
  · exact hact.elim
  · exact hact.elim
  · exact ⟨hact.1, hput s t hst _ _ hact.2⟩

/-! ## Loops over lists -/

theorem forM {xs : List β} {f : β → EStateM ε σ PUnit} (hf : ∀ x, Respects R (f x)) : Respects R (xs.forM f) := by
  induction xs with
  | nil => exact .pure _
  | cons x xs ih => exact .bind (hf x) fun _ => ih

theorem mapM {xs : List β} {f : β → EStateM ε σ α} (hf : ∀ x, Respects R (f x)) : Respects R (xs.mapM f) := by
  induction xs with
  | nil => exact .pure _
  | cons x xs ih =>
    rw [List.mapM_cons]
    exact .bind (hf x) fun _ => .bind ih fun _ => .pure _

theorem filterMapM {xs : List β} {f : β → EStateM ε σ (Option α)} (hf : ∀ x, Respects R (f x)) :
    Respects R (xs.filterMapM f) := by
  induction xs with
  | nil => exact .pure _
  | cons x xs ih =>
    rw [List.filterMapM_cons]
    refine .bind (hf x) fun a => ?_
    cases a with
    | none => exact ih
    | some a => exact .bind ih fun _ => .pure _

theorem foldlM {xs : List β} {f : α → β → EStateM ε σ α} {a : α} (hf : ∀ a x, Respects R (f a x)) :
    Respects R (xs.foldlM f a) := by
  induction xs generalizing a with
  | nil => exact .pure _
  | cons x xs ih =>
    rw [List.foldlM_cons]
    exact .bind (hf a x) fun _ => ih

end Respects

/-! ## Rounds -/

/-- The operations of a node respect a relation. -/
structure RoundDriver.Respectful {K S : Type} (R : S → S → Prop) (d : RoundDriver K S) : Prop where
  solve : Respects R d.solve
  price : Respects R d.price
  boundExceeded : ∀ s t, R s t → d.boundExceeded t = d.boundExceeded s
  isFeasible : Respects R d.isFeasible
  separate : ∀ enforceOnly, Respects R (d.separate enforceOnly)
  propagate : Respects R d.propagate

namespace RoundDriver.Respectful

variable {K S : Type} {R : S → S → Prop} {d : RoundDriver K S}

theorem converge (h : d.Respectful R) (limits : RoundLimits) (stats : RoundStats) (priced fuel : Nat) :
    Respects R (d.converge limits stats priced fuel) := by
  induction fuel generalizing stats priced with
  | zero => exact .throw _
  | succ fuel ih =>
    refine .bind h.solve fun status => ?_
    split
    · exact .pure _
    split
    · exact .pure _
    refine .bind h.price fun added => ?_
    split
    · exact .pure _
    dsimp only
    split
    · exact .pure _
    · exact ih _ _

/-- **Rounds** of operations that respect a relation respect it. -/
theorem run (h : d.Respectful R) (limits : RoundLimits) (stats : RoundStats) (fuel : Nat) :
    Respects R (d.run limits stats fuel) := by
  induction fuel generalizing stats with
  | zero => exact .throw _
  | succ fuel ih =>
    have hlast : ∀ (stats : RoundStats) (alive : Bool),
        Respects R (if alive then d.run limits stats fuel else pure (.cutoff, stats)) := fun stats alive => by
      split
      · exact ih stats
      · exact .pure _
    refine .bind (h.converge limits stats 0 fuel) fun (verdict, stats) => ?_
    cases verdict with
    | some outcome => exact .pure _
    | none =>
      refine .get_bind (fun s t hst => by rw [h.boundExceeded s t hst]) fun s => ?_
      split
      · exact .pure _
      refine .bind h.isFeasible fun feasible => ?_
      split
      · exact .pure _
      refine .bind (h.separate _) fun sep => ?_
      dsimp only
      split
      · exact .pure _
      split
      · exact .bind h.propagate fun alive => hlast _ alive
      · exact hlast _ true

end RoundDriver.Respectful

end BranchAndCut
