import LinearCongruence.Proofs.Tableau.Kernel
import LinearCongruence.Proofs.Tableau.Triangular
import Mathlib.Data.ZMod.Units
import Mathlib.LinearAlgebra.Matrix.NonsingularInverse
/-!
# Unique solutions

A vector of the kernel may be added to any solution, so that the kernel is zero where there is
one solution only. The coefficients of a triangular tableau are then injective over the
residues, hence invertible. Main facts:

* `gcdOf_diagonal_of_unique` : every entry on the diagonal is a unit;
* `columnSolutions_nonempty` : there is a solution where no redundant row contradicts it.
-/

namespace LinearCongruence.Tableau

variable {t : Tableau}

/-- An injective triangular matrix over finitely many residues has units on its diagonal. -/
theorem isUnit_diagonal_of_injective {n m : Nat} [NeZero m] {M : Matrix (Fin n) (Fin n) (ZMod m)}
    (hM : M.IsUpperTriangular) (hinj : Function.Injective M.mulVec) (i : Fin n) :
    IsUnit (M i i) := by
  have hsurj : Function.Surjective M.mulVec := Finite.surjective_of_injective hinj
  have hdet : IsUnit M.det :=
    (Matrix.isUnit_iff_isUnit_det M).1 (Matrix.mulVec_surjective_iff_isUnit.1 hsurj)
  rw [Matrix.det_of_isUpperTriangular hM] at hdet
  exact isUnit_of_dvd_unit (Finset.dvd_prod_of_mem (fun k => M k k) (Finset.mem_univ i)) hdet

theorem mulVec_injective {count : Nat} (hempty : ∀ r, count ≤ r → ¬t.Filled r)
    (hkernel : t.kernel = ⊥) : Function.Injective (t.coefficients count).mulVec := by
  change Function.Injective (t.coefficients count).mulVecLin
  rw [injective_iff_map_eq_zero]
  intro z hz
  have hmem : z ∈ t.kernel := (mem_kernel_iff_mulVec hempty).2 hz
  rwa [hkernel, AddSubgroup.mem_bot] at hmem

theorem Reduced.kernel_eq_bot_of_unique (h : t.Reduced) {y : List Int}
    (hy : y ∈ t.columnSolutions) (hunique : ∀ y' ∈ t.columnSolutions, y' = y) :
    t.kernel = ⊥ := by
  rw [AddSubgroup.eq_bot_iff_forall]
  intro z hz
  have hshift := (h.bijOn_shift hy).mapsTo hz
  have hzero := (h.bijOn_shift hy).mapsTo t.kernel.zero_mem
  exact h.shift_injective y ((hunique _ hshift).trans (hunique _ hzero).symm)

theorem Reduced.gcdOf_diagonal_of_unique (h : t.Reduced) (hcleared : t.Cleared t.unknowns)
    {y : List Int} (hy : y ∈ t.columnSolutions) (hunique : ∀ y' ∈ t.columnSolutions, y' = y)
    {c : Nat} (hc : c < t.unknowns) : t.gcdOf ⟨c, c⟩ = 1 := by
  have : NeZero t.ring.modulus := ⟨Nat.ne_of_gt h.valid.1⟩
  have hinj : Function.Injective (t.coefficients t.unknowns).mulVec :=
    mulVec_injective (fun r => hcleared.not_filled) (h.kernel_eq_bot_of_unique hy hunique)
  have hunit := isUnit_diagonal_of_injective (isUpperTriangular_coefficients hcleared) hinj ⟨c, hc⟩
  unfold coefficients at hunit
  rw [Matrix.of_apply, ZMod.coe_int_isUnit_iff_isCoprime] at hunit
  rw [gcdOf, Int.gcd_comm]
  exact Int.isCoprime_iff_gcd_eq_one.1 hunit

theorem Reduced.columnSolutions_nonempty (h : t.Reduced) (hcleared : t.Cleared t.unknowns)
    (hconsistent : t.Consistent) (hkernel : t.kernel = ⊥) : t.columnSolutions.Nonempty := by
  have : NeZero t.ring.modulus := ⟨Nat.ne_of_gt h.valid.1⟩
  have hsurj : Function.Surjective (t.coefficients t.unknowns).mulVec :=
    Finite.surjective_of_injective (mulVec_injective (fun r => hcleared.not_filled) hkernel)
  obtain ⟨z, hz⟩ := hsurj fun r => (t.valueAt ⟨r, t.unknowns⟩ : ZMod t.ring.modulus)
  refine ⟨t.shift [] z, h.isResidues_shift [] z, ?_⟩
  rw [h.solves_iff_cast (h.isResidues_shift [] z).length_eq]
  intro r
  rw [h.cast_residual_shift, cast_residual]
  simp only [List.getElem?_nil, Option.getD_none, Int.cast_zero, mul_zero, Finset.sum_const_zero,
    zero_sub]
  rw [neg_add_eq_zero, eq_comm]
  by_cases hr : r < t.unknowns
  · exact congrFun hz ⟨r, hr⟩
  · -- A redundant row is zero, its right-hand side included.
    rw [hconsistent r (Nat.le_of_not_lt hr), Int.cast_zero]
    apply Finset.sum_eq_zero
    intro c _
    rw [hcleared c c.isLt r (by omega), Int.cast_zero, zero_mul]

end LinearCongruence.Tableau
