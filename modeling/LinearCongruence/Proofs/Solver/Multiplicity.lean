import LinearCongruence.Proofs.Solver.Verdict
/-!
# Multiplicity and number of solutions

The product of the gcds on the diagonal is not the number of solutions, since a value chosen
for one column may leave no value for another one. It is a multiple of that number: the
solutions are the shifts of one of them by the kernel, whose size divides the product. Main
facts:

* `solutionCount_dvd_bound` : the number of solutions of a system in its triangular form;
* `size_eq_card_kernel` : as many solutions are found as the kernel has vectors;
* `multiplicity_bounds_solutions` : what a solve reports against the exact product.
-/

namespace LinearCongruence

open Augmented Tableau

namespace Solver

variable {solver : Solver} {matrix : Augmented} {n : Nat} {t : Tableau}

theorem bound_pos (h : t.Reduced) : 0 < bound t :=
  Finset.prod_pos fun c _ => (h.gcdOf_bounds ⟨c, c⟩).1

theorem solutionCount_dvd_bound (form : TriangularForm solver.ring matrix n t) :
    solutionCount solver.ring.modulus n matrix = 0 ∨
      solutionCount solver.ring.modulus n matrix ∣ bound t := by
  by_cases hsolvable : ∃ x, IsSolution solver.ring.modulus n matrix x
  · obtain ⟨x, hx⟩ := hsolvable
    rw [form.solutionCount_eq hx]
    exact .inr (form.reduced.card_kernel_dvd form.cleared)
  · exact .inl (solutionCount_eq_zero_iff.2 (not_exists.1 hsolvable))

theorem Collected.size_eq_card_kernel {found : SolutionSet}
    (hcollected : Collected solver matrix n t (.ok found))
    (form : TriangularForm solver.ring matrix n t) : found.size = Nat.card t.kernel := by
  cases hcollected with
  | solved vectors hne hmem hle =>
      -- One solution makes all others the vectors of the kernel.
      obtain ⟨x, hx⟩ := List.exists_mem_of_ne_nil vectors hne
      rw [← form.solutionCount_eq ((hmem x).1 hx)]
      apply length_eq_solutionCount (SolutionSet.nodup_ofVectors _ _ _)
      intro y
      rw [SolutionSet.mem_ofVectors, hmem]

theorem Collected.multiplicity_eq {found : SolutionSet}
    (hcollected : Collected solver matrix n t (.ok found)) :
    found.multiplicity = min (bound t) Word.greatestUnsigned := by
  cases hcollected with
  | solved vectors hne hmem hle => rfl

/-- A solve ends for want of a pivot, or with what is collected from the tableau that its
sweep leaves. -/
theorem solve_collected (solver : Solver) (h : solver.ring.Valid) (hmatrix : WellFormed matrix n) :
    ∃ s, (padded solver.ring matrix n).triangularize solver.options.freeColumns = .ok s ∧
      TriangularForm solver.ring matrix n s.tableau ∧
      ((∃ i, solver.solve matrix = .error (.refused (.noPivot i))) ∨
        Collected solver matrix n s.tableau (solver.solve matrix)) := by
  obtain ⟨s, hsweep, hs, form, hsolve⟩ := solve_swept solver h hmatrix
  refine ⟨s, hsweep, form, ?_⟩
  rw [hsolve]
  cases hs with
  | done u hsteps hcleared => exact .inr (collect_ok form)
  | stuck u i hi hfree hsteps hcleared hnone => exact .inl ⟨i, rfl⟩

/-- The multiplicity of an answer, and the one for which a system is refused, is the product
of the gcds on the diagonal as far as a word holds it. The number of solutions divides the
product itself. -/
theorem multiplicity_bounds_solutions (solver : Solver) (matrix : Augmented) (n : Nat)
    (hvalid : solver.ring.Valid) (hmatrix : WellFormed matrix n) :
    ∃ t s, ofAugmented solver.ring matrix = .ok t ∧
      t.triangularize solver.options.freeColumns = .ok s ∧
      (∀ found, solver.solve matrix = .ok found →
        found.multiplicity = min (bound s.tableau) Word.greatestUnsigned ∧
        found.size ∣ bound s.tableau ∧
        (bound s.tableau ≤ Word.greatestUnsigned → found.size ≤ found.multiplicity)) ∧
      ∀ count limit, solver.solve matrix = .error (.refused (.tooManySolutions count limit)) →
        count = min (bound s.tableau) Word.greatestUnsigned ∧
        limit = solver.options.maxSolutions ∧ limit < count ∧
        (solutionCount solver.ring.modulus n matrix = 0 ∨
          solutionCount solver.ring.modulus n matrix ∣ bound s.tableau) := by
  obtain ⟨s, hsweep, form, hended⟩ := solve_collected solver hvalid hmatrix
  refine ⟨_, s, ofAugmented_eq_padded hvalid hmatrix, hsweep, ?_, ?_⟩
  · intro found hsolve
    rw [hsolve] at hended
    rcases hended with ⟨i, ⟨⟩⟩ | hcollected
    have hmultiplicity := hcollected.multiplicity_eq
    have hdvd : found.size ∣ bound s.tableau := by
      rw [hcollected.size_eq_card_kernel form]
      exact form.reduced.card_kernel_dvd form.cleared
    refine ⟨hmultiplicity, hdvd, ?_⟩
    intro hword
    rw [hmultiplicity, Nat.min_eq_left hword]
    exact Nat.le_of_dvd (bound_pos form.reduced) hdvd
  · intro count limit hsolve
    rw [hsolve] at hended
    rcases hended with ⟨i, ⟨⟩⟩ | hcollected
    cases hcollected with
    | tooManySolutions hlimit => exact ⟨rfl, rfl, hlimit, solutionCount_dvd_bound form⟩

/-- Six solutions where the diagonal allows twelve, with a limit above the twelve and one
below. -/
theorem multiplicity_bounds_solutions_mod_six :
    6 ∣ bound ⟨⟨6⟩, 2, [[2, 3, 1], [0, 0, 0]], [0, 1]⟩ ∧
      (solutionCount 6 2 [[2, 3, 1], [4, 0, 2]] = 0 ∨
        solutionCount 6 2 [[2, 3, 1], [4, 0, 2]] ∣
          bound ⟨⟨6⟩, 2, [[2, 3, 1], [0, 0, 0]], [0, 1]⟩) := by
  have hmatrix : WellFormed [[2, 3, 1], [4, 0, 2]] 2 := ⟨by decide, by decide, by decide⟩
  have htableau : ofAugmented ⟨6⟩ [[2, 3, 1], [4, 0, 2]] =
      .ok ⟨⟨6⟩, 2, [[2, 3, 1], [4, 0, 2]], [0, 1]⟩ := by cbv
  have hsweep : triangularize ⟨⟨6⟩, 2, [[2, 3, 1], [4, 0, 2]], [0, 1]⟩ true =
      .ok ⟨⟨⟨6⟩, 2, [[2, 3, 1], [0, 0, 0]], [0, 1]⟩, none⟩ := by cbv
  constructor
  · obtain ⟨t, s, ht, hs, hok, -⟩ := multiplicity_bounds_solutions ⟨⟨6⟩, ⟨100, true⟩⟩ _ 2
      (by decide) hmatrix
    cases ht.symm.trans htableau
    cases hs.symm.trans hsweep
    exact (hok ⟨6, 12, [[2, 1], [2, 3], [2, 5], [5, 1], [5, 3], [5, 5]]⟩ (by cbv)).2.1
  · obtain ⟨t, s, ht, hs, -, hmany⟩ := multiplicity_bounds_solutions ⟨⟨6⟩, ⟨11, true⟩⟩ _ 2
      (by decide) hmatrix
    cases ht.symm.trans htableau
    cases hs.symm.trans hsweep
    exact (hmany 12 11 (by cbv)).2.2.2

end Solver

end LinearCongruence
