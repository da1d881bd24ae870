import Mathlib.Order.Defs.Unbundled
import BranchAndCut.Relaxation.Oracle

/-! # Programs with state and errors

What holds of every outcome of a program, for results and errors alike, and what
is known of a program that returned. Programs are taken apart one step at a time,
in the order in which they run. -/

namespace BranchAndCut

/-- From state `s` the program ends with a result and a state in `post`, or with
an error and a state in `fail`. -/
def Ensures {ε σ α : Type} (m : EStateM ε σ α) (s : σ) (post : α → σ → Prop)
    (fail : ε → σ → Prop) : Prop :=
  match m s with
  | .ok a t => post a t
  | .error e t => fail e t

/-- What a program ensures can be seen by running it. -/
instance {ε σ α : Type} (m : EStateM ε σ α) (s : σ) (post : α → σ → Prop) (fail : ε → σ → Prop)
    [∀ a t, Decidable (post a t)] [∀ e t, Decidable (fail e t)] : Decidable (Ensures m s post fail) :=
  show Decidable (match m s with
    | .ok a t => post a t
    | .error e t => fail e t) from
  match m s with
  | .ok a t => inferInstanceAs (Decidable (post a t))
  | .error e t => inferInstanceAs (Decidable (fail e t))

namespace Ensures

variable {ε σ α β : Type} {s : σ} {post : α → σ → Prop} {fail : ε → σ → Prop}

theorem pure {a : α} (h : post a s) : Ensures (Pure.pure a : EStateM ε σ α) s post fail := h

theorem throw {e : ε} (h : fail e s) : Ensures (throw e : EStateM ε σ α) s post fail := h

theorem bind {m : EStateM ε σ β} {f : β → EStateM ε σ α}
    (h : Ensures m s (fun b t => Ensures (f b) t post fail) fail) :
    Ensures (m >>= f) s post fail := by
  unfold Ensures at h ⊢
  change match EStateM.bind m f s with
    | .ok a t => post a t
    | .error e t => fail e t
  unfold EStateM.bind
  cases hm : m s with
  | ok b t =>
    rw [hm] at h
    exact h
  | error e t =>
    rw [hm] at h
    exact h

theorem mono {m : EStateM ε σ α} {post' : α → σ → Prop} {fail' : ε → σ → Prop}
    (h : Ensures m s post fail) (hpost : ∀ a t, post a t → post' a t)
    (hfail : ∀ e t, fail e t → fail' e t) : Ensures m s post' fail' := by
  unfold Ensures at h ⊢
  cases hm : m s with
  | ok a t =>
    rw [hm] at h
    exact hpost a t h
  | error e t =>
    rw [hm] at h
    exact hfail e t h

/-- A program that leaves both results and errors alone in what they say of the state. -/
theorem bind_mono {m : EStateM ε σ β} {f : β → EStateM ε σ α} {mid : β → σ → Prop}
    (h : Ensures m s mid fail) (hf : ∀ b t, mid b t → Ensures (f b) t post fail) :
    Ensures (m >>= f) s post fail :=
  bind (h.mono hf fun _ _ => id)

theorem get {post : σ → σ → Prop} (h : post s s) :
    Ensures (MonadState.get : EStateM ε σ σ) s post fail := h

theorem set {t : σ} {post : PUnit → σ → Prop} (h : post ⟨⟩ t) :
    Ensures (MonadStateOf.set t : EStateM ε σ PUnit) s post fail := h

theorem modifyGet {f : σ → α × σ} (h : post (f s).1 (f s).2) :
    Ensures (MonadState.modifyGet f : EStateM ε σ α) s post fail := h

theorem modify {f : σ → σ} {post : PUnit → σ → Prop} (h : post ⟨⟩ (f s)) :
    Ensures (modify f : EStateM ε σ PUnit) s post fail := h

/-- An action on a part of a larger state. -/
theorem onPart {τ : Type} {part : τ → σ} {put : τ → σ → τ} {act : EStateM ε σ α} {w : τ}
    {post : α → τ → Prop} {fail : ε → τ → Prop}
    (h : Ensures act (part w) (fun a t => post a (put w t)) fun e t => fail e (put w t)) :
    Ensures (onPart part put act) w post fail := by
  unfold Ensures BranchAndCut.onPart at *
  cases hact : act (part w) with
  | ok a t =>
    rw [hact] at h
    exact h
  | error e t =>
    rw [hact] at h
    exact h

/-- A step that is taken only under a condition. -/
theorem iteBind {c : Prop} {_ : Decidable c} {m : EStateM ε σ PUnit} {f : PUnit → EStateM ε σ α} {I : σ → Prop}
    (hthen : c → Ensures m s (fun _ t => I t) fail) (helse : ¬ c → I s)
    (hf : ∀ t, I t → Ensures (f ⟨⟩) t post fail) : Ensures (if c then m >>= f else f ⟨⟩) s post fail := by
  split
  · next hc => exact bind_mono (hthen hc) fun _ t ht => hf t ht
  · next hc => exact hf s (helse hc)

/-- Two things that a program ensures. -/
theorem and {m : EStateM ε σ α} {post' : α → σ → Prop} {fail' : ε → σ → Prop}
    (h : Ensures m s post fail) (h' : Ensures m s post' fail') :
    Ensures m s (fun a t => post a t ∧ post' a t) fun e t => fail e t ∧ fail' e t := by
  unfold Ensures at *
  cases hm : m s with
  | ok a t =>
    rw [hm] at h h'
    exact ⟨h, h'⟩
  | error e t =>
    rw [hm] at h h'
    exact ⟨h, h'⟩

/-! ## Loops over lists -/

variable {xs : List β}

/-- A loop whose invariant tells what is left to do. -/
theorem forM {f : β → EStateM ε σ PUnit} {I : List β → σ → Prop}
    (hstep : ∀ x xs s, I (x :: xs) s → Ensures (f x) s (fun _ t => I xs t) fail) (hs : I xs s) :
    Ensures (xs.forM f) s (fun _ t => I [] t) fail := by
  induction xs generalizing s with
  | nil => exact .pure hs
  | cons x xs ih => exact .bind_mono (hstep x xs s hs) fun _ _ ht => ih ht

/-- A loop whose invariant tells what was found. -/
theorem mapM {f : β → EStateM ε σ α} {I : List α → σ → Prop}
    (hstep : ∀ x ∈ xs, ∀ found s, I found s → Ensures (f x) s (fun a t => I (found ++ [a]) t) fail)
    (hs : I [] s) : Ensures (xs.mapM f) s (fun found t => I found t) fail := by
  suffices h : ∀ found, I found s →
      Ensures (xs.mapM f) s (fun rest t => I (found ++ rest) t) fail from h [] hs
  clear hs
  induction xs generalizing s with
  | nil =>
    intro found hfound
    rw [List.mapM_nil]
    refine .pure ?_
    rw [List.append_nil]
    exact hfound
  | cons x xs ih =>
    intro found hfound
    rw [List.mapM_cons]
    refine .bind_mono (hstep x List.mem_cons_self found s hfound) fun a t ht => ?_
    refine .bind_mono (ih (fun y hy => hstep y (List.mem_cons_of_mem _ hy)) _ ht) fun rest u hu => ?_
    rw [List.append_assoc] at hu
    exact .pure hu

theorem filterMapM {f : β → EStateM ε σ (Option α)} {I : List α → σ → Prop}
    (hstep : ∀ x ∈ xs, ∀ found s, I found s →
      Ensures (f x) s (fun a t => I (found ++ a.toList) t) fail)
    (hs : I [] s) : Ensures (xs.filterMapM f) s (fun found t => I found t) fail := by
  suffices h : ∀ found, I found s →
      Ensures (xs.filterMapM f) s (fun rest t => I (found ++ rest) t) fail from h [] hs
  clear hs
  induction xs generalizing s with
  | nil =>
    intro found hfound
    rw [List.filterMapM_nil]
    refine .pure ?_
    rw [List.append_nil]
    exact hfound
  | cons x xs ih =>
    intro found hfound
    rw [List.filterMapM_cons]
    refine .bind_mono (hstep x List.mem_cons_self found s hfound) fun a t ht => ?_
    have hrest := ih (fun y hy => hstep y (List.mem_cons_of_mem _ hy)) _ ht
    cases a with
    | none =>
      rw [Option.toList_none, List.append_nil] at hrest
      exact hrest
    | some a =>
      refine .bind_mono hrest fun rest u hu => ?_
      rw [List.append_assoc] at hu
      exact .pure hu

theorem foldlM {f : α → β → EStateM ε σ α} {a : α} {I : α → σ → Prop}
    (hstep : ∀ x ∈ xs, ∀ a s, I a s → Ensures (f a x) s (fun b t => I b t) fail) (hs : I a s) :
    Ensures (xs.foldlM f a) s (fun b t => I b t) fail := by
  induction xs generalizing s a with
  | nil => exact .pure hs
  | cons x xs ih =>
    rw [List.foldlM_cons]
    exact .bind_mono (hstep x List.mem_cons_self a s hs) fun b t ht =>
      ih (fun y hy => hstep y (List.mem_cons_of_mem _ hy)) ht

end Ensures

/-- From state `s` the program returns a result and leaves a state. -/
def Returns {ε σ α : Type} (m : EStateM ε σ α) (s : σ) (a : α) (t : σ) : Prop := m s = .ok a t

theorem Ensures.returns {ε σ α : Type} {m : EStateM ε σ α} {s t : σ} {a : α}
    {post : α → σ → Prop} {fail : ε → σ → Prop} (h : Ensures m s post fail)
    (hret : Returns m s a t) : post a t := by
  unfold Ensures at h
  rw [hret] at h
  exact h

theorem Ensures.fails {ε σ α : Type} {m : EStateM ε σ α} {s t : σ} {e : ε}
    {post : α → σ → Prop} {fail : ε → σ → Prop} (h : Ensures m s post fail) (hfails : m s = .error e t) :
    fail e t := by
  unfold Ensures at h
  rw [hfails] at h
  exact h

/-- From state `s` the program ends in state `t`, with a result or an error. -/
def EndsIn {ε σ α : Type} (m : EStateM ε σ α) (s t : σ) : Prop := (∃ a, m s = .ok a t) ∨ ∃ e, m s = .error e t

theorem Ensures.endsIn {ε σ α : Type} {m : EStateM ε σ α} {s t : σ} {P : σ → Prop}
    (h : Ensures m s (fun _ t => P t) fun _ t => P t) (hm : EndsIn m s t) : P t := by
  rcases hm with ⟨a, hm⟩ | ⟨e, hm⟩
  · exact h.returns hm
  · exact h.fails hm

/-- What a program ensures, of the results and states that it returns with. -/
theorem Ensures.self {ε σ α : Type} {m : EStateM ε σ α} {s : σ} {post : α → σ → Prop} {fail : ε → σ → Prop}
    (h : Ensures m s post fail) : Ensures m s (fun a t => Returns m s a t ∧ post a t) fail := by
  unfold Ensures at h ⊢
  cases hm : m s with
  | ok a t =>
    rw [hm] at h
    exact ⟨hm, h⟩
  | error e t =>
    rw [hm] at h
    exact h

theorem Ensures.of_returns {ε σ α : Type} {m : EStateM ε σ α} {s t : σ} {a : α}
    {post : α → σ → Prop} {fail : ε → σ → Prop} (hret : Returns m s a t) (h : post a t) :
    Ensures m s post fail := by
  unfold Ensures
  rw [hret]
  exact h

/-- A program that ends without an error returns. -/
theorem Ensures.exists_returns {ε σ α : Type} {m : EStateM ε σ α} {s : σ} {post : α → σ → Prop}
    (h : Ensures m s post fun _ _ => False) : ∃ a t, Returns m s a t ∧ post a t := by
  unfold Ensures at h
  unfold Returns
  cases hm : m s with
  | ok a t =>
    rw [hm] at h
    exact ⟨a, t, rfl, h⟩
  | error e t =>
    rw [hm] at h
    exact h.elim

/-- A program that ends without a result fails. -/
theorem Ensures.exists_fails {ε σ α : Type} {m : EStateM ε σ α} {s : σ} {fail : ε → σ → Prop}
    (h : Ensures m s (fun _ _ => False) fail) : ∃ e t, m s = .error e t ∧ fail e t := by
  unfold Ensures at h
  cases hm : m s with
  | ok a t =>
    rw [hm] at h
    exact h.elim
  | error e t =>
    rw [hm] at h
    exact ⟨e, t, rfl, h⟩

namespace Returns

variable {ε σ α β : Type} {s t : σ} {a : α}

theorem bind {m : EStateM ε σ β} {f : β → EStateM ε σ α} (h : Returns (m >>= f) s a t) :
    ∃ b u, Returns m s b u ∧ Returns (f b) u a t := by
  change EStateM.bind m f s = .ok a t at h
  unfold EStateM.bind at h
  cases hm : m s with
  | ok b u =>
    rw [hm] at h
    exact ⟨b, u, hm, h⟩
  | error e u =>
    rw [hm] at h
    cases h

/-- Two programs that return, one after the other. -/
theorem andThen {m : EStateM ε σ β} {f : β → EStateM ε σ α} {b : β} {u : σ} (h : Returns m s b u)
    (hf : Returns (f b) u a t) : Returns (m >>= f) s a t := by
  show EStateM.bind m f s = .ok a t
  unfold EStateM.bind
  rw [h]
  exact hf

theorem pure {b : α} (h : Returns (Pure.pure b : EStateM ε σ α) s a t) : a = b ∧ t = s := by
  cases h
  exact ⟨rfl, rfl⟩

theorem throw {e : ε} (h : Returns (throw e : EStateM ε σ α) s a t) : False := by cases h

theorem get {u : σ} (h : Returns (MonadState.get : EStateM ε σ σ) s u t) : s = u ∧ s = t := by
  cases h
  exact ⟨rfl, rfl⟩

theorem set {u : σ} {r : PUnit} (h : Returns (MonadStateOf.set u : EStateM ε σ PUnit) s r t) :
    t = u := by
  cases h
  rfl

theorem modify {f : σ → σ} {r : PUnit} (h : Returns (modify f : EStateM ε σ PUnit) s r t) :
    t = f s := by
  cases h
  rfl

theorem modifyGet {f : σ → α × σ} (h : Returns (MonadState.modifyGet f : EStateM ε σ α) s a t) :
    a = (f s).1 ∧ t = (f s).2 := by
  cases h
  exact ⟨rfl, rfl⟩

/-- An action on a part of a larger state. -/
theorem onPart {τ : Type} {part : τ → σ} {put : τ → σ → τ} {act : EStateM ε σ α} {w w' : τ}
    (h : Returns (BranchAndCut.onPart part put act) w a w') : ∃ u, Returns act (part w) a u ∧ w' = put w u := by
  unfold Returns BranchAndCut.onPart at *
  cases hact : act (part w) with
  | ok b u =>
    rw [hact] at h
    cases h
    exact ⟨u, rfl, rfl⟩
  | error e u =>
    rw [hact] at h
    cases h

theorem onPart_intro {τ : Type} {part : τ → σ} {put : τ → σ → τ} {act : EStateM ε σ α} {w : τ} {u : σ}
    (h : Returns act (part w) a u) : Returns (BranchAndCut.onPart part put act) w a (put w u) := by
  unfold Returns BranchAndCut.onPart at *
  rw [h]

/-- Programs that return do so with one result and one state. -/
theorem unique {m : EStateM ε σ α} {b : α} {u : σ} (h : Returns m s a t) (h' : Returns m s b u) :
    b = a ∧ u = t := by
  have heq := h'.symm.trans h
  cases heq
  exact ⟨rfl, rfl⟩

/-! ## Loops over lists -/

variable {I : σ → Prop} {xs : List β}

/-- What every round passes on holds after all rounds. -/
theorem forM {f : β → EStateM ε σ PUnit} {r : PUnit}
    (hstep : ∀ x ∈ xs, ∀ s r t, Returns (f x) s r t → I s → I t) (h : Returns (xs.forM f) s r t)
    (hs : I s) : I t := by
  induction xs generalizing s with
  | nil =>
    obtain ⟨-, rfl⟩ := h.pure
    exact hs
  | cons x xs ih =>
    obtain ⟨r', u, hx, hrest⟩ := h.bind
    exact ih (fun y hy => hstep y (by simp [hy])) hrest (hstep x (by simp) s r' u hx hs)

theorem mapM {f : β → EStateM ε σ α} {bs : List α} {Q : α → Prop}
    (hstep : ∀ x ∈ xs, ∀ s b t, Returns (f x) s b t → I s → I t ∧ Q b)
    (h : Returns (xs.mapM f) s bs t) (hs : I s) : I t ∧ ∀ b ∈ bs, Q b := by
  induction xs generalizing s bs with
  | nil =>
    rw [List.mapM_nil] at h
    obtain ⟨rfl, rfl⟩ := h.pure
    exact ⟨hs, nofun⟩
  | cons x xs ih =>
    rw [List.mapM_cons] at h
    obtain ⟨b, u, hx, h⟩ := h.bind
    obtain ⟨bs', v, hrest, h⟩ := h.bind
    obtain ⟨rfl, rfl⟩ := h.pure
    obtain ⟨hu, hb⟩ := hstep x (by simp) s b u hx hs
    obtain ⟨hv, hbs⟩ := ih (fun y hy => hstep y (by simp [hy])) hrest hu
    exact ⟨hv, List.forall_mem_cons.mpr ⟨hb, hbs⟩⟩

theorem filterMapM {f : β → EStateM ε σ (Option α)} {bs : List α} {Q : α → Prop}
    (hstep : ∀ x ∈ xs, ∀ s b t, Returns (f x) s b t → I s → I t ∧ ∀ y, b = some y → Q y)
    (h : Returns (xs.filterMapM f) s bs t) (hs : I s) : I t ∧ ∀ b ∈ bs, Q b := by
  induction xs generalizing s bs with
  | nil =>
    rw [List.filterMapM_nil] at h
    obtain ⟨rfl, rfl⟩ := h.pure
    exact ⟨hs, nofun⟩
  | cons x xs ih =>
    rw [List.filterMapM_cons] at h
    obtain ⟨b, u, hx, h⟩ := h.bind
    obtain ⟨hu, hb⟩ := hstep x (by simp) s b u hx hs
    have hrest := fun y (hy : y ∈ xs) => hstep y (by simp [hy])
    cases b with
    | none => exact ih hrest h hu
    | some b =>
      obtain ⟨bs', v, htail, h⟩ := h.bind
      obtain ⟨rfl, rfl⟩ := h.pure
      obtain ⟨hv, hbs⟩ := ih hrest htail hu
      exact ⟨hv, List.forall_mem_cons.mpr ⟨hb b rfl, hbs⟩⟩

theorem foldlM {f : α → β → EStateM ε σ α} {b : α}
    (hstep : ∀ x ∈ xs, ∀ c s b t, Returns (f c x) s b t → I s → I t)
    (h : Returns (xs.foldlM f b) s a t) (hs : I s) : I t := by
  induction xs generalizing s b with
  | nil =>
    obtain ⟨-, rfl⟩ := h.pure
    exact hs
  | cons x xs ih =>
    rw [List.foldlM_cons] at h
    obtain ⟨c, u, hx, hrest⟩ := h.bind
    exact ih (fun y hy => hstep y (by simp [hy])) hrest (hstep x (by simp) b s c u hx hs)

end Returns

/-- Whatever the state and the outcome, the program changes the state as `R` allows. -/
def Preserves {ε σ α : Type} (R : σ → σ → Prop) (m : EStateM ε σ α) : Prop :=
  ∀ s, Ensures m s (fun _ t => R s t) fun _ t => R s t

namespace Preserves

variable {ε σ α β : Type} {R : σ → σ → Prop}

theorem mono {R' : σ → σ → Prop} {m : EStateM ε σ α} (h : Preserves R m) (hR : ∀ s t, R s t → R' s t) :
    Preserves R' m :=
  fun s => (h s).mono (fun _ t => hR s t) fun _ t => hR s t

/-- An action on a part of a larger state. -/
theorem onPart {τ : Type} {part : σ → τ} {put : σ → τ → σ} {act : EStateM ε τ α}
    (h : ∀ s, Ensures act (part s) (fun _ t => R s (put s t)) fun _ t => R s (put s t)) :
    Preserves R (BranchAndCut.onPart part put act) :=
  fun s => .onPart (h s)

theorem modify {f : σ → σ} (h : ∀ s, R s (f s)) : Preserves R (modify f : EStateM ε σ PUnit) :=
  fun s => .modify (h s)

theorem modifyGet {f : σ → α × σ} (h : ∀ s, R s (f s).2) :
    Preserves R (MonadState.modifyGet f : EStateM ε σ α) :=
  fun s => .modifyGet (h s)

/-- What is read is the state that the rest starts from. -/
theorem get_bind {f : σ → EStateM ε σ α}
    (hf : ∀ s, Ensures (f s) s (fun _ t => R s t) fun _ t => R s t) :
    Preserves R (MonadState.get >>= f) :=
  fun s => .bind (.get (hf s))

theorem pure [Std.Refl R] (a : α) : Preserves R (Pure.pure a : EStateM ε σ α) := fun s => .pure (refl s)

theorem throw [Std.Refl R] (e : ε) : Preserves R (throw e : EStateM ε σ α) := fun s => .throw (refl s)

section Preorder

variable [IsTrans σ R]

/-- After a program that has changed the state as allowed. -/
theorem after {m : EStateM ε σ α} (h : Preserves R m) {s t : σ} (hst : R s t) :
    Ensures m t (fun _ u => R s u) fun _ u => R s u :=
  (h t).mono (fun _ u => IsTrans.trans s t u hst) fun _ u => IsTrans.trans s t u hst

theorem bind {m : EStateM ε σ β} {f : β → EStateM ε σ α} (h : Preserves R m) (hf : ∀ b, Preserves R (f b)) :
    Preserves R (m >>= f) :=
  fun s => .bind_mono (h s) fun b _ ht => (hf b).after ht

variable [Std.Refl R]

theorem forM {xs : List β} {f : β → EStateM ε σ PUnit} (hf : ∀ x, Preserves R (f x)) :
    Preserves R (xs.forM f) :=
  fun s => Ensures.forM (I := fun _ t => R s t) (fun x _ _ ht => (hf x).after ht) (refl s)

theorem mapM {xs : List β} {f : β → EStateM ε σ α} (hf : ∀ x, Preserves R (f x)) : Preserves R (xs.mapM f) :=
  fun s => Ensures.mapM (I := fun _ t => R s t) (fun x _ _ _ ht => (hf x).after ht) (refl s)

theorem filterMapM {xs : List β} {f : β → EStateM ε σ (Option α)} (hf : ∀ x, Preserves R (f x)) :
    Preserves R (xs.filterMapM f) :=
  fun s => Ensures.filterMapM (I := fun _ t => R s t) (fun x _ _ _ ht => (hf x).after ht) (refl s)

theorem foldlM {xs : List β} {f : α → β → EStateM ε σ α} {a : α} (hf : ∀ a x, Preserves R (f a x)) :
    Preserves R (xs.foldlM f a) :=
  fun s => Ensures.foldlM (I := fun _ t => R s t) (fun x _ a _ ht => (hf a x).after ht) (refl s)

end Preorder

end Preserves

end BranchAndCut
