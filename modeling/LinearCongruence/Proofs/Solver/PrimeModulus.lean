import LinearCongruence.Proofs.Solver.Correctness
import LinearCongruence.Proofs.Solver.Multiplicity
/-!
# Prime moduli

Over a prime modulus every residue other than zero is a unit, so that a sweep leaves units on
the diagonal as far as it finds pivots, and zeros from there on. The size of the kernel lies
between what the empty rows and what the diagonal allow; both are the same here, and a sweep
finds as many pivots as the rank of the coefficients. Main facts:

* `card_kernel_padded` : the kernel of the tableau of a system;
* `stop_eq_rank` : where a sweep that leaves no column free stops;
* `solve_of_prime` : the outcome of a solve by the rank.
-/

namespace LinearCongruence

open Augmented Tableau

variable {ring : ResidueRing} {matrix : Augmented} {n : Nat}

namespace Augmented

def coefficientMatrix (modulus n : Nat) (matrix : Augmented) :
    Matrix (Fin matrix.length) (Fin n) (ZMod modulus) :=
  Matrix.of fun r c => ((matrix[r][(c : Nat)]?.getD 0 : Int) : ZMod modulus)

noncomputable def rank (modulus n : Nat) (matrix : Augmented) : Nat :=
  (coefficientMatrix modulus n matrix).rank

theorem rank_le {modulus : Nat} (hprime : modulus.Prime) (n : Nat) (matrix : Augmented) :
    rank modulus n matrix ≤ n := by
  have : Fact modulus.Prime := ⟨hprime⟩
  exact (coefficientMatrix modulus n matrix).rank_le_width

end Augmented

namespace Tableau

variable {t u : Tableau} {stop : Option Nat}

/-! ## The kernel -/

theorem coefficients_padded (ring : ResidueRing) (matrix : Augmented) (n : Nat) :
    (padded ring matrix n).coefficients matrix.length =
      coefficientMatrix ring.modulus n matrix := by
  ext r c
  change ((padded ring matrix n).valueAt ⟨r, c⟩ : ZMod ring.modulus) =
    ((matrix[r][(c : Nat)]?.getD 0 : Int) : ZMod ring.modulus)
  rw [valueAt_padded, ZMod.intCast_mod, List.getElem?_eq_getElem r.isLt]
  rfl

theorem card_kernel_padded (hprime : ring.modulus.Prime) (matrix : Augmented) (n : Nat) :
    Nat.card (padded ring matrix n).kernel =
      ring.modulus ^ (n - rank ring.modulus n matrix) := by
  have hempty (r : Nat) (hr : matrix.length ≤ r) : ¬(padded ring matrix n).Filled r := by
    intro hfilled
    obtain ⟨row, hrow, -⟩ := exists_of_filled_padded hfilled
    rw [List.getElem?_eq_none hr] at hrow
    cases hrow
  rw [card_kernel_eq_card_ker hempty, coefficients_padded]
  exact ResidueRing.card_ker_of_prime hprime _

theorem TriangularForm.collect_of_kernel_eq_bot {solver : Solver}
    (form : TriangularForm solver.ring matrix n t) (hkernel : t.kernel = ⊥)
    (hnone : ¬∃ x, IsSolution solver.ring.modulus n matrix x) :
    ∃ row, solver.collect t = .error (.refused (.rankMismatch row)) := by
  rcases form.reduced.checkRedundant_ok form.cleared with ⟨-, hconsistent⟩ | ⟨row, hcheck, -⟩
  · obtain ⟨y, hy⟩ :=
      form.reduced.columnSolutions_nonempty form.cleared hconsistent hkernel
    obtain ⟨x, hx, -⟩ := form.bijOn_arrange.surjOn hy
    exact absurd ⟨x, hx⟩ hnone
  · refine ⟨row, ?_⟩
    rw [Solver.collect, hcheck, Checked.lift_refusal_error, Checked.error_bind]

/-! ## The diagonal -/

theorem gcdOf_eq_one_of_prime (h : t.Reduced) (hprime : t.ring.modulus.Prime) {p : Position}
    (hne : t.valueAt p ≠ 0) : t.gcdOf p = 1 := by
  have hdvd : t.gcdOf p ∣ t.ring.modulus := Int.gcd_dvd_natAbs_right _ _
  apply ((Nat.dvd_prime hprime).1 hdvd).resolve_right
  intro hfull
  exact hne ((h.valueAt_eq_zero_iff p).2 hfull)

theorem SweptTo.prod_gcdOf_of_prime (hu : SweptTo t t.unknowns u stop) (h : t.Reduced)
    (hprime : t.ring.modulus.Prime) :
    ∏ c ∈ Finset.range t.unknowns, u.gcdOf ⟨c, c⟩ =
      t.ring.modulus ^ (t.unknowns - stop.getD t.unknowns) := by
  have hred := hu.steps.reduced h
  have hshape := hu.steps.sameShape h
  have hunit (c : Nat) (hc : c < stop.getD t.unknowns) : u.gcdOf ⟨c, c⟩ = 1 :=
    gcdOf_eq_one_of_prime hred (hshape.ring_eq.symm ▸ hprime)
      ((hu.diagonal c hc).resolve_left hprime.ne_one)
  have hzero (c : Nat) (hc : stop.getD t.unknowns ≤ c) (hlt : c < t.unknowns) :
      u.gcdOf ⟨c, c⟩ = t.ring.modulus := by
    rw [← hshape.ring_eq, ← hred.valueAt_eq_zero_iff]
    by_contra hne
    exact hu.not_filled h hc ⟨c, hlt.trans_eq hshape.unknowns_eq.symm, hne⟩
  let pivots := stop.getD t.unknowns
  have hsum : pivots + (t.unknowns - pivots) = t.unknowns := Nat.add_sub_cancel' hu.stop_le
  calc ∏ c ∈ Finset.range t.unknowns, u.gcdOf ⟨c, c⟩
      = (∏ c ∈ Finset.range pivots, u.gcdOf ⟨c, c⟩) *
          ∏ c ∈ Finset.range (t.unknowns - pivots), u.gcdOf ⟨pivots + c, pivots + c⟩ := by
        rw [← Finset.prod_range_add (fun c => u.gcdOf ⟨c, c⟩), hsum]
    _ = 1 * ∏ _c ∈ Finset.range (t.unknowns - pivots), t.ring.modulus := by
        congr 1
        · apply Finset.prod_eq_one
          intro c hc
          exact hunit c (Finset.mem_range.1 hc)
        · apply Finset.prod_congr rfl
          intro c hc
          have hlt := Finset.mem_range.1 hc
          exact hzero _ (Nat.le_add_right _ _) (by omega)
    _ = t.ring.modulus ^ (t.unknowns - pivots) := by
        rw [one_mul, Finset.prod_const, Finset.card_range]

/-! ## The rank -/

section Rank

variable (h : ring.Valid) (hprime : ring.modulus.Prime) (hmatrix : WellFormed matrix n)
  (hu : SweptTo (padded ring matrix n) n u stop)

include h hprime hmatrix hu

theorem SweptTo.card_kernel_of_prime :
    Nat.card u.kernel = ring.modulus ^ (n - rank ring.modulus n matrix) :=
  (hu.steps.card_kernel_eq (reduced_padded h hmatrix)).trans
    (card_kernel_padded hprime matrix n)

/-- A sweep over a prime modulus finds as many pivots as the rank. -/
theorem SweptTo.stop_eq_rank : stop.getD n = rank ring.modulus n matrix := by
  have ht := reduced_padded h hmatrix
  have form := hu.triangularForm h hmatrix
  have hkernel := hu.card_kernel_of_prime h hprime hmatrix
  have hlower : ring.modulus ^ (n - stop.getD n) ∣
      ring.modulus ^ (n - rank ring.modulus n matrix) := by
    have hdvd := form.reduced.pow_dvd_card_kernel (hu.stop_le.trans_eq form.unknowns_eq.symm)
      fun r => hu.not_filled ht
    rwa [hkernel, form.ring_eq, form.unknowns_eq] at hdvd
  have hupper : ring.modulus ^ (n - rank ring.modulus n matrix) ∣
      ring.modulus ^ (n - stop.getD n) := by
    have hdvd := form.reduced.card_kernel_dvd form.cleared
    rw [hkernel, form.unknowns_eq] at hdvd
    exact hdvd.trans (hu.prod_gcdOf_of_prime ht hprime).dvd
  have hsub : n - stop.getD n = n - rank ring.modulus n matrix :=
    Nat.pow_right_injective hprime.two_le (Nat.dvd_antisymm hlower hupper)
  have hle := rank_le hprime n matrix
  have hstop : stop.getD n ≤ n := hu.stop_le
  omega

theorem SweptTo.bound_of_prime :
    Solver.bound u = ring.modulus ^ (n - rank ring.modulus n matrix) := by
  rw [← hu.stop_eq_rank h hprime hmatrix, Solver.bound, (hu.triangularForm h hmatrix).unknowns_eq]
  exact hu.prod_gcdOf_of_prime (reduced_padded h hmatrix) hprime

end Rank

end Tableau

namespace Solver

/-! ## Solves -/

section Prime

variable {limit : Nat} (hvalid : ring.Valid) (hprime : ring.modulus.Prime)
  (hmatrix : WellFormed matrix n)

include hvalid hprime hmatrix

theorem noPivot_of_rank_lt (hlt : rank ring.modulus n matrix < n) :
    Solver.solve ⟨ring, ⟨limit, false⟩⟩ matrix =
      .error (.refused (.noPivot (rank ring.modulus n matrix))) := by
  obtain ⟨u, stop, hu, hsolve⟩ := solve_strict ⟨ring, ⟨limit, false⟩⟩ hvalid hmatrix rfl
  have hrank := hu.stop_eq_rank hvalid hprime hmatrix
  cases stop with
  | none => exact absurd hrank (Nat.ne_of_gt hlt)
  | some i =>
      rw [← hrank]
      exact hsolve

/-- A sweep that finds a pivot in every column leaves a kernel of zero only. The system has one
solution then, or a redundant row contradicts it. -/
theorem solve_of_full_rank (hfull : n ≤ rank ring.modulus n matrix) (hlimit : 1 ≤ limit) :
    (∃ x, (∀ y, IsSolution ring.modulus n matrix y ↔ y = x) ∧
      Solver.solve ⟨ring, ⟨limit, false⟩⟩ matrix = .ok ⟨ring.modulus, 1, [x]⟩) ∨
    (¬∃ x, IsSolution ring.modulus n matrix x) ∧
      ∃ row, Solver.solve ⟨ring, ⟨limit, false⟩⟩ matrix =
        .error (.refused (.rankMismatch row)) := by
  obtain ⟨u, stop, hu, hsolve⟩ := solve_strict ⟨ring, ⟨limit, false⟩⟩ hvalid hmatrix rfl
  have form := hu.triangularForm hvalid hmatrix
  have htrivial : Nat.card u.kernel = 1 := by
    rw [hu.card_kernel_of_prime hvalid hprime hmatrix, Nat.sub_eq_zero_of_le hfull, pow_zero]
  by_cases hsolvable : ∃ x, IsSolution ring.modulus n matrix x
  · obtain ⟨x, hx⟩ := hsolvable
    obtain ⟨x, hunique⟩ :=
      exists_unique_of_solutionCount ((form.solutionCount_eq hx).trans htrivial)
    exact .inl ⟨x, hunique, (solve_ok hvalid hmatrix).unique hlimit hunique⟩
  · refine .inr ⟨hsolvable, ?_⟩
    have hrank := hu.stop_eq_rank hvalid hprime hmatrix
    cases stop with
    | some i => exact absurd (hfull.trans_eq hrank.symm) (Nat.not_le_of_lt (hu.noPivot i rfl).1)
    | none =>
        rw [hsolve]
        exact form.collect_of_kernel_eq_bot (AddSubgroup.card_eq_one.1 htrivial) hsolvable

theorem collected_of_prime : ∃ u, TriangularForm ring matrix n u ∧
    Collected ⟨ring, ⟨limit, true⟩⟩ matrix n u (Solver.solve ⟨ring, ⟨limit, true⟩⟩ matrix) ∧
    bound u = ring.modulus ^ (n - rank ring.modulus n matrix) ∧
    Nat.card u.kernel = ring.modulus ^ (n - rank ring.modulus n matrix) := by
  obtain ⟨u, stop, hu, hfree, -⟩ :=
    (reduced_padded hvalid hmatrix).sweepTo_both (Nat.le_refl _)
  have form := hu.triangularForm hvalid hmatrix
  refine ⟨u, form, ?_, hu.bound_of_prime hvalid hprime hmatrix,
    hu.card_kernel_of_prime hvalid hprime hmatrix⟩
  rw [solve_eq ⟨ring, ⟨limit, true⟩⟩ hvalid hmatrix hfree]
  exact collect_ok form

end Prime

/-- Over a prime modulus the rank of the coefficients decides. Without free columns a system
of smaller rank than it has unknowns is refused at the step of its rank, and one of full rank
for a row that contradicts it, or answered by its only solution. With free columns the rank
gives the multiplicity, which is the number of solutions as far as a word holds it. -/
theorem solve_of_prime (ring : ResidueRing) (limit : Nat) (matrix : Augmented) (n : Nat)
    (hvalid : ring.Valid) (hprime : ring.modulus.Prime) (hmatrix : WellFormed matrix n)
    (hlimit : 1 ≤ limit) :
    (rank ring.modulus n matrix < n →
      Solver.solve ⟨ring, ⟨limit, false⟩⟩ matrix =
        .error (.refused (.noPivot (rank ring.modulus n matrix)))) ∧
    (n ≤ rank ring.modulus n matrix → (¬∃ x, IsSolution ring.modulus n matrix x) →
      ∃ row, Solver.solve ⟨ring, ⟨limit, false⟩⟩ matrix =
        .error (.refused (.rankMismatch row))) ∧
    (n ≤ rank ring.modulus n matrix → (∃ x, IsSolution ring.modulus n matrix x) →
      ∃ x, (∀ y, IsSolution ring.modulus n matrix y ↔ y = x) ∧
        Solver.solve ⟨ring, ⟨limit, false⟩⟩ matrix = .ok ⟨ring.modulus, 1, [x]⟩) ∧
    (∀ found, Solver.solve ⟨ring, ⟨limit, true⟩⟩ matrix = .ok found →
      found.multiplicity = min (ring.modulus ^ (n - rank ring.modulus n matrix))
        Word.greatestUnsigned ∧
      found.size = ring.modulus ^ (n - rank ring.modulus n matrix) ∧
      solutionCount ring.modulus n matrix =
        ring.modulus ^ (n - rank ring.modulus n matrix)) ∧
    ∀ count most, Solver.solve ⟨ring, ⟨limit, true⟩⟩ matrix =
        .error (.refused (.tooManySolutions count most)) →
      count = min (ring.modulus ^ (n - rank ring.modulus n matrix)) Word.greatestUnsigned := by
  refine ⟨noPivot_of_rank_lt hvalid hprime hmatrix, ?_, ?_, ?_, ?_⟩
  · intro hfull hnone
    rcases solve_of_full_rank hvalid hprime hmatrix hfull hlimit with
      ⟨x, hunique, -⟩ | ⟨-, hrefused⟩
    · exact absurd ⟨x, (hunique x).2 rfl⟩ hnone
    · exact hrefused
  · intro hfull hsolvable
    rcases solve_of_full_rank hvalid hprime hmatrix hfull hlimit with hsolved | ⟨hnone, -⟩
    · exact hsolved
    · exact absurd hsolvable hnone
  · intro found hfound
    obtain ⟨u, form, hcollected, hbound, hkernel⟩ := collected_of_prime hvalid hprime hmatrix
    rw [hfound] at hcollected
    refine ⟨?_, ?_, ?_⟩
    · rw [hcollected.multiplicity_eq, hbound]
    · rw [hcollected.size_eq_card_kernel form, hkernel]
    · obtain ⟨x, hx⟩ := (Ended.collected u form _ hcollected).solvable
      rw [form.solutionCount_eq hx, hkernel]
  · intro count most hmany
    obtain ⟨u, form, hcollected, hbound, hkernel⟩ := collected_of_prime hvalid hprime hmatrix
    rw [hmany] at hcollected
    cases hcollected with
    | tooManySolutions hover => rw [hbound]

theorem solve_of_prime_mod_five :
    rank 5 2 [[1, 2, 3], [2, 4, 1]] = 1 ∧
      solutionCount 5 2 [[1, 2, 3], [2, 4, 1]] = 5 ^ (2 - 1) := by
  have hstrict : Solver.solve ⟨⟨5⟩, ⟨100, false⟩⟩ [[1, 2, 3], [2, 4, 1]] =
      .error (.refused (.noPivot 1)) := by cbv
  obtain ⟨hdeficient, -, hfull, hfree, -⟩ := solve_of_prime ⟨5⟩ 100 [[1, 2, 3], [2, 4, 1]] 2
    (by decide) (by decide) ⟨by decide, by decide, by decide⟩ (by decide)
  have hlt : rank 5 2 [[1, 2, 3], [2, 4, 1]] < 2 := by
    by_contra hge
    obtain ⟨x, -, hsolve⟩ := hfull (Nat.le_of_not_lt hge)
      ⟨[3, 0], ⟨by decide, by decide⟩, by decide⟩
    cases hstrict.symm.trans hsolve
  have hrank : rank 5 2 [[1, 2, 3], [2, 4, 1]] = 1 := by
    simpa using (hdeficient hlt).symm.trans hstrict
  have hcount := (hfree ⟨5, 5, [[0, 4], [1, 1], [2, 3], [3, 0], [4, 2]]⟩ (by cbv)).2.2
  exact ⟨hrank, hrank ▸ hcount⟩

end Solver

end LinearCongruence
