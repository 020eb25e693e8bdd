import LinearCongruence.Proofs.Solver.Verdict
/-!
# Refusals for want of a pivot

A sweep that may not leave a column free stops where nothing but zeros is left. No row from
there on has a coefficient, so that a vector that solves the system does so together with many
others. A sweep must stop so where fewer equations than unknowns have a coefficient. Main facts:

* `solve_noPivot` : what a solve that stops for want of a pivot leaves;
* `noPivot_multiplies_solutions` : the solutions of a system refused for want of a pivot;
* `noPivot_of_few_equations` : systems with too few equations that have coefficients.
-/

namespace LinearCongruence

open Augmented Tableau

variable {ring : ResidueRing} {solver : Solver} {matrix : Augmented} {n : Nat}

namespace Solver

theorem solve_noPivot (h : solver.ring.Valid) (hmatrix : WellFormed matrix n) {step : Nat}
    (hsolve : solver.solve matrix = .error (.refused (.noPivot step))) :
    ∃ t, TriangularForm solver.ring matrix n t ∧ step < n ∧ solver.ring.modulus ≠ 1 ∧
      ∀ r, step ≤ r → ¬t.Filled r := by
  obtain ⟨s, -, hs, form, hend⟩ := solve_swept solver h hmatrix
  rw [hsolve] at hend
  cases hs with
  | done u hsteps hcleared =>
      have hcollected : Collected solver matrix n u (.error (.refused (.noPivot step))) :=
        hend ▸ collect_ok form
      cases hcollected
  | stuck u i hi hfree hsteps hcleared hnone =>
      cases hend
      have hdiagonal := form.reduced.mem_block_diagonal (form.unknowns_eq.symm ▸ hi)
      refine ⟨u, form, hi, ?_, fun r => hnone.not_filled hcleared⟩
      rw [← form.ring_eq]
      exact (hnone _ hdiagonal).2

/-- A system that is refused for want of a pivot has no solution, or so many that the number of
choices of residues for the columns that are left divides theirs. Over one residue no pivot is
ever wanting. -/
theorem noPivot_multiplies_solutions (solver : Solver) (matrix : Augmented) (n : Nat)
    (hvalid : solver.ring.Valid) (hmatrix : WellFormed matrix n) :
    (solver.ring.modulus = 1 → ∀ step,
      solver.solve matrix ≠ .error (.refused (.noPivot step))) ∧
    ∀ step, solver.solve matrix = .error (.refused (.noPivot step)) →
      step < n ∧ (solutionCount solver.ring.modulus n matrix = 0 ∨
        ∃ k, 0 < k ∧ solutionCount solver.ring.modulus n matrix =
          k * solver.ring.modulus ^ (n - step)) := by
  constructor
  · intro hone step hsolve
    obtain ⟨t, -, -, hmodulus, -⟩ := solve_noPivot hvalid hmatrix hsolve
    exact hmodulus hone
  · intro step hsolve
    obtain ⟨t, form, hlt, -, hempty⟩ := solve_noPivot hvalid hmatrix hsolve
    refine ⟨hlt, ?_⟩
    by_cases hnone : solutionCount solver.ring.modulus n matrix = 0
    · exact .inl hnone
    obtain ⟨x, hx⟩ : ∃ x, IsSolution solver.ring.modulus n matrix x := by
      simpa using mt solutionCount_eq_zero_iff.2 hnone
    have hdvd := form.reduced.pow_dvd_card_kernel (form.unknowns_eq.symm ▸ hlt.le) hempty
    rw [← form.solutionCount_eq hx, form.ring_eq, form.unknowns_eq] at hdvd
    obtain ⟨k, hk⟩ := hdvd
    rw [Nat.mul_comm] at hk
    refine .inr ⟨k, Nat.pos_of_ne_zero ?_, hk⟩
    rintro rfl
    exact hnone (hk.trans (Nat.zero_mul _))

theorem noPivot_multiplies_solutions_mod_four :
    1 < 2 ∧ (solutionCount 4 2 [[2, 2, 2]] = 0 ∨
      ∃ k, 0 < k ∧ solutionCount 4 2 [[2, 2, 2]] = k * 4 ^ (2 - 1)) :=
  (noPivot_multiplies_solutions ⟨⟨4⟩, ⟨100, false⟩⟩ [[2, 2, 2]] 2 (by decide)
    ⟨by decide, by decide, by decide⟩).2 1 (by cbv)

end Solver

/-! ## Equations that have coefficients -/

def Augmented.filledEquations (modulus n : Nat) (matrix : Augmented) : Nat :=
  matrix.countP fun row => decide (∃ a ∈ row.take n, ¬(modulus : Int) ∣ a)

namespace Tableau

theorem card_filledRows_padded_le (ring : ResidueRing) (matrix : Augmented) (n : Nat) :
    (padded ring matrix n).filledRows.card ≤ filledEquations ring.modulus n matrix := by
  let filled (row : List Int) : Bool := decide (∃ a ∈ row.take n, ¬(ring.modulus : Int) ∣ a)
  have hsubset : (padded ring matrix n).filledRows ⊆ (matrix.findIdxs filled).toFinset := by
    intro r hr
    obtain ⟨row, hrow, hfilled⟩ := exists_of_filled_padded (mem_filledRows.1 hr)
    obtain ⟨hlt, rfl⟩ := List.getElem?_eq_some_iff.1 hrow
    rw [List.mem_toFinset, List.mem_findIdxs_iff_exists_getElem_pos]
    exact ⟨hlt, decide_eq_true hfilled⟩
  calc (padded ring matrix n).filledRows.card
      ≤ (matrix.findIdxs filled).toFinset.card := Finset.card_le_card hsubset
    _ ≤ (matrix.findIdxs filled).length := List.toFinset_card_le _
    _ = filledEquations ring.modulus n matrix := List.length_findIdxs

theorem SweptTo.stop_le_filledEquations {u : Tableau} {stop : Option Nat} (h : ring.Valid)
    (hmatrix : WellFormed matrix n) (hmodulus : 2 ≤ ring.modulus)
    (hu : SweptTo (padded ring matrix n) n u stop) :
    stop.getD n ≤ filledEquations ring.modulus n matrix := by
  have hshape := hu.steps.sameShape (reduced_padded h hmatrix)
  calc stop.getD n ≤ u.filledRows.card := by
        apply le_card_filledRows (hu.stop_le.trans_eq hshape.unknowns_eq.symm)
        intro c hc
        exact (hu.diagonal c hc).resolve_left (Nat.ne_of_gt hmodulus)
    _ ≤ (padded ring matrix n).filledRows.card := hu.filled_le
    _ ≤ filledEquations ring.modulus n matrix := card_filledRows_padded_le ring matrix n

end Tableau

namespace Solver

/-- Over more than one residue a system in which fewer equations than unknowns have a
coefficient is refused for want of a pivot, before there are more pivots than such
equations. -/
theorem noPivot_of_few_equations (solver : Solver) (matrix : Augmented) (n : Nat)
    (hvalid : solver.ring.Valid) (hmodulus : 2 ≤ solver.ring.modulus)
    (hmatrix : WellFormed matrix n) (hstrict : solver.options.freeColumns = false)
    (hfew : filledEquations solver.ring.modulus n matrix < n ∨ matrix.length < n) :
    ∃ step, step ≤ filledEquations solver.ring.modulus n matrix ∧
      solver.solve matrix = .error (.refused (.noPivot step)) := by
  have hlt : filledEquations solver.ring.modulus n matrix < n :=
    hfew.elim id List.countP_le_length.trans_lt
  obtain ⟨u, stop, hu, hsolve⟩ := solve_strict solver hvalid hmatrix hstrict
  have hpivots := hu.stop_le_filledEquations hvalid hmatrix hmodulus
  cases stop with
  | none => exact absurd hpivots (Nat.not_le_of_lt hlt)
  | some step => exact ⟨step, hpivots, hsolve⟩

theorem noPivot_of_few_equations_mod_six :
    ∃ step, step ≤ filledEquations 6 2 [[6, -12, 3], [2, 3, 1]] ∧
      Solver.solve ⟨⟨6⟩, ⟨100, false⟩⟩ [[6, -12, 3], [2, 3, 1]] =
        .error (.refused (.noPivot step)) :=
  noPivot_of_few_equations ⟨⟨6⟩, ⟨100, false⟩⟩ [[6, -12, 3], [2, 3, 1]] 2 (by decide) (by decide)
    ⟨by decide, by decide, by decide⟩ rfl (.inl (by decide))

end Solver

end LinearCongruence
