import BranchAndCut.Proofs.Lp.Certificate

/-! # The basis of the simplex method

A solve starts from a basis, and no move leaves the bases: whatever ends it, be it the clock, there is one
basic column for each row, and every other column is at the bound that its status names.
Nothing is asked of the bounds, and of the tolerances only that the one for pivots is not
negative, so that there is no pivot on zero. -/

namespace BranchAndCut.Lp.Simplex

section Bases

variable [Rooted ℚ] {p : Problem (Exact ℚ)} {c : Settings (Exact ℚ)} {s s' : Simplex (Exact ℚ)}
  {t : Tableau (Exact ℚ)} {j : Nat}

/-- A solver for a program at one of its bases. -/
structure Seated (p : Problem (Exact ℚ)) (c : Settings (Exact ℚ)) (s : Simplex (Exact ℚ)) :
    Prop where
  of : s.Of p
  settings : s.settings = c
  based : ∃ t, s.Based p t ∧ s.Placed p t

/-- **Every move leads from a basis to a basis.** -/
theorem Seated.move (h : s.Seated p c) (hv : p.Valid) (hwf : p.a.WellFormed)
    (htol : 0 ≤ c.tolPivot) (hm : Move s s') : s'.Seated p c := by
  obtain ⟨hs, hset, t, hb, hp⟩ := h
  have hpivot : 0 ≤ s.settings.tolPivot := hset ▸ htol
  have hentering : ∀ {j : Nat} {d dir : Exact ℚ}, s.improvingDirection? j d = some dir →
      j < p.width ∧ ∃ δ, dir = .fin δ ∧ Leaves (s.statusOf j) δ := by
    intro j d dir hdir
    obtain ⟨δ, hδ, hleaves, -⟩ := improvingDirection?_leaves hdir
    refine ⟨?_, δ, hδ, hleaves⟩
    -- past the end of the statuses every column reads as basic
    by_contra hge
    refine hleaves.ne_basic (getD_of_size_le _ _ ?_)
    rw [hs.status]
    exact not_lt.mp hge
  cases hm with
  | refactor hrefactor =>
    obtain ⟨hs', hset', t', hb', hp', -⟩ := refactor?_spec hv hwf hs hb hpivot hrefactor
    exact ⟨hs', hset'.trans hset, t', hb', hp'⟩
  | @flip _ j _ _ _ phase1 bland ht hdir hratio =>
    obtain rfl := Option.some.inj (hb.tableau.symm.trans ht)
    obtain ⟨hlt, δ, rfl, hleaves⟩ := hentering hdir
    have hstops := ratioTest_stops (j := j) hv hs hb hp hpivot δ phase1 bland
    rw [hratio] at hstops
    obtain ⟨σ, rfl, hrange⟩ := hstops
    obtain ⟨hs', hset', hb', hp', -⟩ := flip_spec hs hb hp hlt hleaves hrange
    exact ⟨hs', hset'.trans hset, _, hb', hp'⟩
  | @exchange _ j _ _ _ _ _ phase1 bland _ ht hdir hratio =>
    obtain rfl := Option.some.inj (hb.tableau.symm.trans ht)
    obtain ⟨hlt, δ, rfl, hleaves⟩ := hentering hdir
    have hj := fun hin => hleaves.ne_basic (hb.basic _ hlt hin)
    have hstops := ratioTest_stops (j := j) hv hs hb hp hpivot δ phase1 bland
    rw [hratio] at hstops
    obtain ⟨hr, hentry, ⟨σ, rfl⟩, β, rfl, hbound⟩ := hstops
    obtain ⟨hs', hset', hb', hp'⟩ :=
      exchange_spec hs hb hp hlt hj hr hentry (δ := δ) (σ := σ) hbound
    exact ⟨hs', hset'.trans hset, _, hb', hp'⟩

theorem Seated.run (h : s.Seated p c) (hv : p.Valid) (hwf : p.a.WellFormed)
    (htol : 0 ≤ c.tolPivot) (hm : Relation.ReflTransGen Move s s') : s'.Seated p c := by
  induction hm with
  | refl => exact h
  | tail _ hlast ih => exact ih.move hv hwf htol hlast

theorem solve_seated (hv : p.Valid) (hwf : p.a.WellFormed) (hs : s.Of p) (hset : s.settings = c)
    (htol : 0 ≤ c.tolPivot) (warmStart : Option Basis) : (s.solve warmStart).2.Seated p c := by
  obtain ⟨hs', hset', t, hb, hp, -⟩ := start_spec hv hwf hs (hset ▸ htol) warmStart
  have hstart : (s.start warmStart).1.Seated p c := ⟨hs', hset'.trans hset, t, hb, hp⟩
  rw [solve_eq]
  exact hstart.run hv hwf htol (iterate_moves _ _ _).1

/-! ## What a basis is -/

/-- Where a column that is not basic is: at a bound that there is, or at zero without any. -/
def Sits (p : Problem (Exact ℚ)) (s : Simplex (Exact ℚ)) (j : Nat) : Prop :=
  match s.statusOf j with
  | .basic => True
  | .atLower => ∃ q, p.lowerOf j = .fin q ∧ s.valueOf j = .fin q
  | .atUpper => ∃ q, p.upperOf j = .fin q ∧ s.valueOf j = .fin q
  | .atZero => p.lowerOf j = .negInf ∧ p.upperOf j = .posInf ∧ s.valueOf j = 0

theorem sits_of_placed (hs : s.Of p) (hb : s.Based p t) (hp : s.Placed p t) (hlt : j < p.width) :
    s.Sits p j := by
  unfold Sits
  have hvalue := hp.nonbasic j hlt
  have hrests := hb.rests j hlt
  rw [hb.inBasis_iff hlt] at hvalue hrests
  unfold nonbasicValue at hvalue
  rw [hs.lowerOf, hs.upperOf] at hvalue
  unfold Rests at hrests
  cases hst : s.statusOf j with
  | basic => trivial
  | atLower =>
    rw [hst] at hvalue hrests
    obtain ⟨q, hq⟩ := Exact.isFinite_iff.mp (hrests nofun)
    exact ⟨q, hq, (hvalue nofun).trans hq⟩
  | atUpper =>
    rw [hst] at hvalue hrests
    obtain ⟨q, hq⟩ := Exact.isFinite_iff.mp (hrests nofun)
    exact ⟨q, hq, (hvalue nofun).trans hq⟩
  | atZero =>
    rw [hst] at hvalue hrests
    exact ⟨(hrests nofun).1, (hrests nofun).2, hvalue nofun⟩

theorem Based.rows_size (hb : s.Based p t) (hs : s.Of p) (hv : p.Valid) (hwf : p.a.WellFormed) :
    t.rows.size = p.numRows := by
  rw [hb.derived.rows, ← hs.numRows]
  exact (hs.shaped hv hwf).base

/-- The basic columns of a tableau, one for each row. -/
theorem Based.heading (hb : s.Based p t) :
    t.basis.Nodup ∧ t.basis.length = t.rows.size ∧
      ∀ j, j ∈ t.basis ↔ j < p.width ∧ s.statusOf j = .basic := by
  obtain ⟨hnodup, hlength⟩ := hb.derived.basis_nodup hb.complete
  refine ⟨hnodup, hlength, fun j => ⟨fun hj => ?_, fun ⟨hlt, hst⟩ => ?_⟩⟩
  · have hlt := hb.derived.basis_lt hb.complete hj
    exact ⟨hlt, hb.basic j hlt ((Tableau.mem_basis hb.derived.head).mp hj)⟩
  · exact (Tableau.mem_basis hb.derived.head).mpr ((hb.inBasis_iff hlt).mpr hst)

/-- As many statuses say basic as there are rows. -/
theorem Based.count_basic (hs : s.Of p) (hb : s.Based p t) :
    s.status.toList.count .basic = t.rows.size := by
  obtain ⟨hnodup, hlength, hmem⟩ := hb.heading
  have hstatus : s.status.toList = (List.range p.width).map s.statusOf := by
    refine List.ext_getElem (by simp [hs.status]) fun i hi _ => ?_
    have hi' : i < s.status.size := by simpa using hi
    simp [statusOf, hi']
  have hperm : ((List.range p.width).filter fun j => s.statusOf j == .basic).Perm t.basis := by
    refine (List.perm_ext_iff_of_nodup (List.nodup_range.filter _) hnodup).mpr fun j => ?_
    rw [hmem, List.mem_filter, List.mem_range, beq_iff_eq]
  rw [hstatus, List.count_eq_countP, List.countP_map, List.countP_eq_length_filter, ← hlength]
  exact hperm.length_eq

/-- **The basis is always well formed.** From any basis, whatever was solved before and
whatever ends the solve: the heading of the tableau has a column for each row, without
repetition; these are the columns whose status is basic, in the state and in the basis
returned; and every other column has the value of the bound that its status names, which
there is, or is zero for want of bounds. -/
theorem solve_basis (hwf : p.a.WellFormed) (htol : 0 ≤ c.tolPivot) (hs : Reachable p c s)
    (warmStart : Option Basis) :
    let out := s.solve warmStart
    (∃ cols, out.2.basicColumns = .ok cols ∧ cols.Nodup ∧ cols.length = p.numRows ∧
        ∀ j, j ∈ cols ↔ j < p.width ∧ out.2.statusOf j = .basic) ∧
      out.2.status.size = p.width ∧ out.1.basis.all = out.2.status.toList ∧
      out.1.basis.cols.length = p.numCols ∧ out.1.basis.rows.length = p.numRows ∧
      out.1.basis.numBasic = p.numRows ∧ ∀ j < p.width, out.2.Sits p j := by
  obtain ⟨hv, hs, hset⟩ := hs.of hwf
  intro out
  obtain ⟨hs', -, t, hb, hp⟩ := solve_seated hv hwf hs hset htol warmStart
  have hshaped := hs'.shaped hv hwf
  have hrows := hb.rows_size hs' hv hwf
  obtain ⟨hnodup, hlength, hmem⟩ := hb.heading
  have hwidth : out.2.width = out.2.status.size := hshaped.status.symm
  have hcols : out.1.basis.cols = (out.2.status.extract 0 out.2.numCols).toList := rfl
  have hslacks : out.1.basis.rows =
      (out.2.status.extract out.2.numCols out.2.width).toList := rfl
  have hall : out.1.basis.all = out.2.status.toList := by
    unfold Basis.all
    rw [hcols, hslacks, ← Array.toList_append, Array.extract_append_extract, hwidth]
    simp
  refine ⟨⟨t.basis, ?_, hnodup, hlength.trans hrows, hmem⟩, hs'.status, hall, ?_, ?_, ?_, ?_⟩
  · unfold basicColumns
    rw [hb.tableau]
    rfl
  · rw [hcols, Array.length_toList, Array.size_extract, hs'.numCols, hs'.status]
    unfold Problem.width
    omega
  · rw [hslacks, Array.length_toList, Array.size_extract, hwidth, hs'.numCols, hs'.status]
    unfold Problem.width
    omega
  · unfold Basis.numBasic
    rw [hall, hb.count_basic hs', hrows]
  · exact fun j hlt => sits_of_placed hs' hb hp hlt

end Bases

/-- With a single iteration allowed, a column goes to its upper bound and the slack stays basic:
a solve that is cut short leaves a basis too. -/
theorem solve_basis_interrupted :
    let p : Problem (Exact ℚ) :=
      { cost := #[.fin (-2), .fin (-1)]
        a := ⟨1, 2, .byColumn, #[[(0, .fin 1)], [(0, .fin 2)]]⟩
        rowLower := #[.negInf], rowUpper := #[.fin 4]
        colLower := #[.fin 0, .fin 0], colUpper := #[.fin 3, .posInf] }
    let c : Settings (Exact ℚ) :=
      { maxIter := 1, tolPrimal := .fin 0, tolDual := .fin 0, tolPivot := .fin 0 }
    ∃ s : Simplex (Exact ℚ), Simplex.new p c = .ok s ∧
      (s.solve none).1.status = .iterationLimit ∧
      (s.solve none).1.basis = { cols := [.atUpper, .atLower], rows := [.basic] } ∧
      (s.solve none).1.basis.numBasic = p.numRows ∧ (s.solve none).2.Sits p 0 := by
  intro p c
  have hvalidate : p.validate = .ok () := by decide +kernel
  have hwf : p.a.WellFormed := ⟨rfl, by decide⟩
  have htol : 0 ≤ c.tolPivot := by decide +kernel
  obtain ⟨s, hnew⟩ : ∃ s, Simplex.new p c = .ok s := ⟨_, new_eq hvalidate⟩
  have hrun : (s.solve none).1.status = .iterationLimit ∧
      (s.solve none).1.basis = { cols := [.atUpper, .atLower], rows := [.basic] } := by
    obtain rfl := Except.ok.inj ((new_eq hvalidate).symm.trans hnew)
    decide +kernel
  obtain ⟨-, -, -, -, -, hcount, hsits⟩ := solve_basis hwf htol (.new hnew) none
  exact ⟨s, hnew, hrun.1, hrun.2, hcount, hsits 0 (by decide)⟩

end BranchAndCut.Lp.Simplex
