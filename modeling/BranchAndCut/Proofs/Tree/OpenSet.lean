import BranchAndCut.Proofs.Tree.HeapOrder

/-! # The queue is a set of open nodes

The reference for the queue is a list of open nodes from which each pick takes the
least one in the order of the selection rule. Whatever is asked of a queue, it answers
like the reference, provided that no node is added twice. Outdated keys never show. -/

namespace BranchAndCut

/-- What is asked of a queue. -/
inductive QueueOp (K : Type) where
  | push (id : NodeId) (bound estimate : K) (depth : Nat)
  | setLastChildren (children : List NodeId)
  | setHasIncumbent (has : Bool)
  | pop
  | prune (prunable : K → Bool)
  | drain
  | bestBound

/-- What a queue answers. -/
inductive QueueAnswer (K : Type) where
  | done
  | picked (id : Option NodeId)
  | removed (ids : List NodeId)
  | bound (value : K)
deriving DecidableEq

namespace QueueOp

variable {K S : Type}

/-- The answers to a list of operations, taken one after the other. -/
def answers (step : S → QueueOp K → QueueAnswer K × S) (s : S) : List (QueueOp K) → List (QueueAnswer K)
  | [] => []
  | op :: ops => (step s op).1 :: answers step (step s op).2 ops

/-- The number that an operation adds. -/
def added? : QueueOp K → Option NodeId
  | push id _ _ _ => some id
  | _ => none

/-- The depth that an operation adds. -/
def depth? : QueueOp K → Option Nat
  | push _ _ _ depth => some depth
  | _ => none

theorem eq_push_of_added? {op : QueueOp K} {id : NodeId} (h : op.added? = some id) :
    ∃ bound estimate depth, op = .push id bound estimate depth := by
  cases op with
  | push n bound estimate depth =>
    obtain rfl := Option.some.inj h
    exact ⟨bound, estimate, depth, rfl⟩
  | setLastChildren children => cases h
  | setHasIncumbent has => cases h
  | pop => cases h
  | prune prunable => cases h
  | drain => cases h
  | bestBound => cases h

/-- Where no number is added twice, the first operation adds none in use, nor one that is
added later. -/
theorem fresh_cons {op : QueueOp K} {ops : List (QueueOp K)} {used : NodeId → Prop}
    (hnodup : ((op :: ops).filterMap added?).Nodup)
    (hfresh : ∀ id ∈ (op :: ops).filterMap added?, ¬ used id) :
    (∀ id, op.added? = some id → ¬ used id) ∧ (ops.filterMap added?).Nodup ∧
      ∀ id ∈ ops.filterMap added?, ¬ (used id ∨ op.added? = some id) := by
  cases hadd : op.added? with
  | none =>
    rw [List.filterMap_cons_none hadd] at hnodup hfresh
    exact ⟨nofun, hnodup, fun id hid => not_or.mpr ⟨hfresh id hid, nofun⟩⟩
  | some n =>
    rw [List.filterMap_cons_some hadd] at hnodup hfresh
    obtain ⟨hn, hrest⟩ := List.nodup_cons.mp hnodup
    refine ⟨fun id hid => hfresh id (Option.some.inj hid ▸ List.mem_cons_self), hrest, fun id hid => ?_⟩
    exact not_or.mpr ⟨hfresh id (List.mem_cons_of_mem _ hid), fun heq => hn (Option.some.inj heq ▸ hid)⟩

end QueueOp

/-- The queue as a machine. -/
def Queue.step {K : Type} [Scalar K] (q : Queue K) : QueueOp K → QueueAnswer K × Queue K
  | .push id bound estimate depth => (.done, q.push id bound estimate depth)
  | .setLastChildren children => (.done, q.setLastChildren children)
  | .setHasIncumbent has => (.done, { q with hasIncumbent := has })
  | .pop => (.picked q.pop.1, q.pop.2)
  | .prune prunable => (.removed (q.prune prunable).1, (q.prune prunable).2)
  | .drain => (.removed q.drain.1, q.drain.2)
  | .bestBound => (.bound q.bestBound.1, q.bestBound.2)

/-! ## The reference -/

/-- A member that no other comes before, if there is one. -/
def least? {α : Type} (cmp : α → α → Ordering) : List α → Option α
  | [] => none
  | a :: as =>
    match least? cmp as with
    | none => some a
    | some b => if (cmp a b).isLE then some a else some b

/-- An open node with its number. -/
abbrev OpenEntry (K : Type) := NodeId × OpenNode K

/-- The open nodes, in the order in which they came, and what the selection rules
have to remember. -/
structure OpenSet (K : Type) where
  selection : NodeSelection
  entries : List (OpenEntry K) := []
  lastChildren : List NodeId := []
  /-- Picks of such children since the last pick by bound. -/
  plunges : Nat := 0
  hasIncumbent : Bool := false
  picks : Nat := 0

namespace OpenSet

variable {K : Type} [Scalar K]

def new (selection : NodeSelection) : OpenSet K where
  selection := selection

/-- The lowest bound first, then the lowest number. -/
def byBound (a b : OpenEntry K) : Ordering :=
  (Scalar.totalOrder a.2.bound b.2.bound).then (compare a.1 b.1)

/-- The deepest first, then by bound. -/
def byDepth (a b : OpenEntry K) : Ordering := (compare b.2.depth a.2.depth).then (byBound a b)

/-- The lowest estimate first, then by bound. -/
def byEstimate (a b : OpenEntry K) : Ordering :=
  (Scalar.totalOrder a.2.estimate b.2.estimate).then (byBound a b)

/-- The node that the selection rule picks, and the picks of children then. -/
def choice (s : OpenSet K) : Option (OpenEntry K) × Nat :=
  let best := least? byBound s.entries
  let deepest := least? byDepth s.entries
  match s.selection with
  | .bestBound => (best, s.plunges)
  | .depthFirst => (deepest, s.plunges)
  | .bestEstimate => (least? byEstimate s.entries, s.plunges)
  | .hybrid diveFreq => (if Nat.max diveFreq 1 ∣ s.picks then deepest else best, s.plunges)
  | .twoPhase => (if s.hasIncumbent then best else deepest, s.plunges)
  | .plunging maxDepth =>
    match least? byBound (s.entries.filter fun e => s.lastChildren.contains e.1) with
    | some child => if s.plunges < maxDepth then (some child, s.plunges + 1) else (best, 0)
    | none => (best, 0)

/-- Takes the node that the selection rule picks; the children are then forgotten. -/
def pop (s : OpenSet K) : Option NodeId × OpenSet K :=
  match s.choice with
  | (none, _) => (none, s)
  | (some (id, _), plunges) =>
    (some id, { s with
      entries := s.entries.filter fun e => e.1 != id
      lastChildren := []
      plunges
      picks := s.picks + 1 })

/-- The numbers of nodes in increasing order. -/
def numbers (entries : List (OpenEntry K)) : List NodeId :=
  (entries.map Prod.fst).mergeSort fun a b => decide (a ≤ b)

def step (s : OpenSet K) : QueueOp K → QueueAnswer K × OpenSet K
  | .push id bound estimate depth =>
    (.done, { s with entries := s.entries ++ [(id, { bound, estimate, depth })] })
  | .setLastChildren children => (.done, { s with lastChildren := children })
  | .setHasIncumbent has => (.done, { s with hasIncumbent := has })
  | .pop => (.picked s.pop.1, s.pop.2)
  | .prune prunable =>
    (.removed (numbers (s.entries.filter fun e => prunable e.2.bound)),
      { s with entries := s.entries.filter fun e => !prunable e.2.bound })
  | .drain => (.removed (numbers s.entries), { s with entries := [], lastChildren := [] })
  | .bestBound => (.bound (((least? byBound s.entries).map fun e => e.2.bound).getD Scalar.inf), s)

end OpenSet

/-! ## Least members -/

section Least

variable {α : Type} {cmp : α → α → Ordering} {l : List α} {a : α}

theorem least?_eq_none_iff : least? cmp l = none ↔ l = [] := by
  cases l with
  | nil => simp [least?]
  | cons a as =>
    unfold least?
    cases least? cmp as with
    | none => simp
    | some b =>
      dsimp only
      split <;> simp

variable [Std.TransCmp cmp]

theorem least?_spec (h : least? cmp l = some a) : a ∈ l ∧ ∀ b ∈ l, (cmp a b).isLE = true := by
  induction l generalizing a with
  | nil => cases h
  | cons c cs ih =>
    unfold least? at h
    cases hcs : least? cmp cs with
    | none =>
      rw [hcs] at h
      obtain rfl := Option.some.inj h
      rw [least?_eq_none_iff.mp hcs]
      exact ⟨List.mem_cons_self, fun b hb => List.mem_singleton.mp hb ▸ Std.ReflCmp.isLE_rfl⟩
    | some b =>
      rw [hcs] at h
      obtain ⟨hb, hle⟩ := ih hcs
      dsimp only at h
      split at h
      · next hcb =>
        obtain rfl := Option.some.inj h
        refine ⟨List.mem_cons_self, fun x hx => ?_⟩
        rcases List.mem_cons.mp hx with rfl | hx
        · exact Std.ReflCmp.isLE_rfl
        · exact Std.TransCmp.isLE_trans hcb (hle x hx)
      · next hcb =>
        obtain rfl := Option.some.inj h
        refine ⟨List.mem_cons_of_mem _ hb, fun x hx => ?_⟩
        rcases List.mem_cons.mp hx with rfl | hx
        · refine Std.OrientedCmp.isGE_iff_isLE.mp ?_
          cases hxb : cmp x b with
          | lt => exact (hcb (by rw [hxb]; rfl)).elim
          | eq => rfl
          | gt => rfl
        · exact hle x hx

/-- Where members that compare equal are equal, the least one is determined. -/
theorem least?_eq_some (ha : a ∈ l) (hle : ∀ b ∈ l, (cmp a b).isLE = true)
    (heq : ∀ b ∈ l, cmp a b = .eq → a = b) : least? cmp l = some a := by
  cases h : least? cmp l with
  | none =>
    rw [least?_eq_none_iff.mp h] at ha
    cases ha
  | some b =>
    obtain ⟨hb, hle'⟩ := least?_spec h
    rw [heq b hb (Std.OrientedCmp.isLE_antisymm (hle b hb) (hle' a ha))]

end Least

end BranchAndCut
