import Mathlib.Data.List.Basic
import BranchAndCut.Model.Problem

/-! # Problems as they grow

During a solve, variables are added to the problem and fixed ones leave their groups.
Neither changes the variables that were there, so the value of a point stays the same. -/

namespace BranchAndCut.Problem

variable {K : Type} [Scalar K]

/-- A new variable is numbered after the others, and its bounds are those of its type. -/
theorem addVar_spec {p q : Problem K} {name : String} {type : VarType} {lower upper obj : K} {v : VarId}
    (h : p.addVar name type lower upper obj = .ok (v, q)) :
    v = p.numVars ∧ badBounds lower upper = false ∧ q = { p with
      vars := p.vars.push ⟨name, type, obj, (normalize type lower upper).1, (normalize type lower upper).2⟩
      names := (name, p.numVars) :: p.names
      groups := p.groups.extend.insert type p.numVars } := by
  unfold Problem.addVar at h
  by_cases hname : (p.findVar? name).isSome = true
  · rw [if_pos hname] at h
    cases h
  by_cases hbounds : badBounds lower upper = true
  · rw [if_neg hname, if_pos hbounds] at h
    cases h
  by_cases hobj : (!Scalar.isFinite obj) = true
  · rw [if_neg hname, if_neg hbounds, if_pos hobj] at h
    cases h
  rw [if_neg hname, if_neg hbounds, if_neg hobj] at h
  cases h
  exact ⟨rfl, Bool.eq_false_iff.mpr hbounds, rfl⟩

/-- Its name is new. -/
theorem findVar?_of_addVar {p q : Problem K} {name : String} {type : VarType} {lower upper obj : K} {v : VarId}
    (h : p.addVar name type lower upper obj = .ok (v, q)) : p.findVar? name = none := by
  unfold Problem.addVar at h
  by_cases hname : (p.findVar? name).isSome = true
  · rw [if_pos hname] at h
    cases h
  · exact Option.not_isSome_iff_eq_none.mp hname

theorem addVar_numVars {p q : Problem K} {name : String} {type : VarType} {lower upper obj : K} {v : VarId}
    (h : p.addVar name type lower upper obj = .ok (v, q)) : q.numVars = p.numVars + 1 := by
  obtain ⟨-, -, rfl⟩ := addVar_spec h
  exact Array.size_push _

/-- The costs, with that of the new variable. -/
theorem addVar_costs {p q : Problem K} {name : String} {type : VarType} {lower upper obj : K} {v : VarId}
    (h : p.addVar name type lower upper obj = .ok (v, q)) : q.costs = p.costs ++ [q.cost v] := by
  obtain ⟨rfl, -, rfl⟩ := addVar_spec h
  unfold costs cost var numVars
  rw [Array.toList_push, List.map_append, Array.getD_eq_getD_getElem?, Array.getElem?_push_size]
  rfl

/-- Variables stay in the problem when they are taken out of their groups. -/
theorem compactAll_vars (p : Problem K) (fixed : List VarId) : (fixed.foldl compact p).vars = p.vars := by
  induction fixed generalizing p with
  | nil => rfl
  | cons w fixed ih =>
    refine (ih _).trans ?_
    unfold compact
    split <;> rfl

/-- Their costs stay as well. -/
theorem compactAll_costs (p : Problem K) (fixed : List VarId) : (fixed.foldl compact p).costs = p.costs := by
  have hsign : (fixed.foldl compact p).maximize = p.maximize := by
    induction fixed generalizing p with
    | nil => rfl
    | cons w fixed ih =>
      refine (ih _).trans ?_
      unfold compact
      split <;> rfl
  unfold costs sign
  rw [compactAll_vars, hsign]

theorem length_costs (p : Problem K) : p.costs.length = p.numVars := List.length_map _

theorem map_cost_range (p : Problem K) : (List.range p.numVars).map p.cost = p.costs := by
  refine List.ext_getElem (by rw [List.length_map, List.length_range, length_costs]) fun v hv hv' => ?_
  rw [List.length_map, List.length_range] at hv
  simp only [List.getElem_map, List.getElem_range, costs, cost, Array.getElem_toList]
  unfold var
  rw [Array.getD_eq_getD_getElem?, Array.getElem?_eq_getElem hv]
  rfl

/-- The first problem, with variables added and others taken out of their groups. -/
structure Extends (p q : Problem K) : Prop where
  vars : p.vars.toList <+: q.vars.toList
  maximize : q.maximize = p.maximize
  offset : q.offset = p.offset

namespace Extends

variable {p q r : Problem K}

omit [Scalar K] in
theorem refl (p : Problem K) : p.Extends p := ⟨List.prefix_refl _, rfl, rfl⟩

omit [Scalar K] in
theorem trans (h : p.Extends q) (h' : q.Extends r) : p.Extends r :=
  ⟨h.vars.trans h'.vars, h'.maximize.trans h.maximize, h'.offset.trans h.offset⟩

theorem compact (p : Problem K) (v : VarId) : p.Extends (p.compact v) := by
  unfold Problem.compact
  split <;> exact ⟨List.prefix_refl _, rfl, rfl⟩

theorem compactAll (p : Problem K) (fixed : List VarId) : p.Extends (fixed.foldl Problem.compact p) := by
  induction fixed generalizing p with
  | nil => exact .refl p
  | cons v fixed ih => exact (compact p v).trans (ih _)

theorem addVar {name : String} {type : VarType} {lower upper obj : K} {v : VarId}
    (h : p.addVar name type lower upper obj = .ok (v, q)) : p.Extends q := by
  obtain ⟨-, -, rfl⟩ := Problem.addVar_spec h
  exact ⟨by rw [Array.toList_push]; exact List.prefix_append _ _, rfl, rfl⟩

/-- The value of a point with no more entries than there were variables stays the same. -/
theorem value_eq (h : p.Extends q) {x : Array K} (hx : x.size ≤ p.numVars) : q.value x = p.value x := by
  obtain ⟨rest, hvars⟩ := h.vars
  have hsign : q.sign = p.sign := by
    unfold Problem.sign
    rw [h.maximize]
  have hlength : x.toList.length ≤ p.vars.toList.length := hx
  have hmin : min (p.vars.toList ++ rest).length x.toList.length = min p.vars.toList.length x.toList.length := by
    rw [List.length_append]
    omega
  unfold Problem.value
  rw [hsign, ← hvars, List.zipWith_eq_zipWith_take_min, hmin, List.take_append_of_le_length (Nat.min_le_left _ _),
    ← List.zipWith_eq_zipWith_take_min]

end Extends

end BranchAndCut.Problem
