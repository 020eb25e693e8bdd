import Mathlib.Algebra.Field.ZMod
import Mathlib.Data.ZMod.Basic
import Mathlib.FieldTheory.Finiteness
import Mathlib.GroupTheory.Index
import Mathlib.GroupTheory.SpecificGroups.Cyclic
import Mathlib.LinearAlgebra.Matrix.Block
import Mathlib.LinearAlgebra.Matrix.Rank
import Mathlib.LinearAlgebra.Matrix.ToLin
/-!
# Kernels of matrices of residues

Over a ring with zero divisors a triangular matrix may send many vectors to zero. The first
entry of such a vector is killed by the first pivot as soon as the others vanish, so that the
size of the kernel divides the product of what each pivot kills. Over a prime modulus the rank
gives the size. Main facts:

* `card_ker_mulLeft` : a residue kills as many residues as its gcd with the modulus;
* `card_ker_dvd` : the kernel of a triangular matrix;
* `card_ker_of_prime` : the kernel of any matrix over a prime modulus.
-/

namespace LinearCongruence.ResidueRing

/-- A homomorphism splits its domain into its kernel and a part of its codomain. -/
theorem card_dvd_card_ker_mul_card {G H : Type*} [AddCommGroup G] [AddCommGroup H] (f : G →+ H) :
    Nat.card G ∣ Nat.card f.ker * Nat.card H := by
  rw [← AddSubgroup.card_mul_index f.ker, AddSubgroup.index_ker]
  exact Nat.mul_dvd_mul_left _ (AddSubgroup.card_addSubgroup_dvd_card f.range)

theorem card_ker_mulLeft {m : Nat} [NeZero m] (a : Int) :
    Nat.card (AddMonoidHom.mulLeft (a : ZMod m)).ker = Int.gcd a m := by
  have hker : (AddMonoidHom.mulLeft (a : ZMod m)).ker =
      (nsmulAddMonoidHom a.natAbs : ZMod m →+ ZMod m).ker := by
    ext x
    rw [AddMonoidHom.mem_ker, AddMonoidHom.mem_ker, AddMonoidHom.coe_mulLeft,
      nsmulAddMonoidHom_apply, nsmul_eq_mul, ← Int.cast_natCast]
    rcases Int.natAbs_eq a with h | h
    · rw [← h]
    · conv_lhs => rw [h]
      rw [Int.cast_neg, neg_mul, neg_eq_zero]
  rw [hker, IsAddCyclic.card_nsmulAddMonoidHom_ker, Nat.card_zmod, Nat.gcd_comm]
  rfl

section Triangular

variable {R : Type} [CommRing R] {n : Nat}

def lowerBlock (M : Matrix (Fin (n + 1)) (Fin (n + 1)) R) : Matrix (Fin n) (Fin n) R :=
  M.submatrix Fin.succ Fin.succ

variable {M : Matrix (Fin (n + 1)) (Fin (n + 1)) R}

theorem isUpperTriangular_lowerBlock (hM : M.IsUpperTriangular) :
    (lowerBlock M).IsUpperTriangular :=
  fun _ _ hlt => hM (Fin.succ_lt_succ_iff.2 hlt)

theorem mulVec_lowerBlock (hM : M.IsUpperTriangular) (z : Fin (n + 1) → R) :
    (lowerBlock M).mulVec (Fin.tail z) = Fin.tail (M.mulVec z) := by
  funext i
  have hzero : M i.succ 0 = 0 := hM (Fin.succ_pos i)
  simp only [lowerBlock, Matrix.mulVec, dotProduct, Fin.tail, Fin.sum_univ_succ, hzero, zero_mul,
    zero_add, Matrix.submatrix_apply]

def kernelTail (hM : M.IsUpperTriangular) :
    LinearMap.ker M.mulVecLin →+ LinearMap.ker (lowerBlock M).mulVecLin where
  toFun z := ⟨Fin.tail z.1, by
    rw [LinearMap.mem_ker, Matrix.mulVecLin_apply, mulVec_lowerBlock hM,
      ← Matrix.mulVecLin_apply, LinearMap.mem_ker.1 z.2]
    rfl⟩
  map_zero' := rfl
  map_add' _ _ := rfl

/-- The first entry of a vector of the kernel that vanishes elsewhere is killed by the first
pivot. -/
def kernelHead (hM : M.IsUpperTriangular) :
    (kernelTail hM).ker →+ (AddMonoidHom.mulLeft (M 0 0)).ker where
  toFun z := ⟨z.1.1 0, by
    have htail : Fin.tail z.1.1 = 0 := congrArg Subtype.val z.2
    have hsucc (i : Fin n) : z.1.1 i.succ = 0 := congrFun htail i
    have hrow : M.mulVec z.1.1 0 = 0 := congrFun z.1.2 0
    simpa [Matrix.mulVec, dotProduct, Fin.sum_univ_succ, hsucc] using hrow⟩
  map_zero' := rfl
  map_add' _ _ := rfl

theorem injective_kernelHead (hM : M.IsUpperTriangular) : Function.Injective (kernelHead hM) := by
  intro z w h
  have hz : Fin.tail z.1.1 = 0 := congrArg Subtype.val z.2
  have hw : Fin.tail w.1.1 = 0 := congrArg Subtype.val w.2
  have hhead : z.1.1 0 = w.1.1 0 := congrArg Subtype.val h
  apply Subtype.ext
  apply Subtype.ext
  rw [← Fin.cons_self_tail z.1.1, ← Fin.cons_self_tail w.1.1, hz, hw, hhead]

theorem card_ker_dvd {n : Nat} {M : Matrix (Fin n) (Fin n) R} (hM : M.IsUpperTriangular) :
    Nat.card (LinearMap.ker M.mulVecLin) ∣
      ∏ i, Nat.card (AddMonoidHom.mulLeft (M i i)).ker := by
  induction n with
  | zero => simp
  | succ n ih =>
      -- The kernel of `kernelTail` is what is left where only the first entry may be nonzero.
      have hhead : Nat.card (kernelTail hM).ker ∣ Nat.card (AddMonoidHom.mulLeft (M 0 0)).ker :=
        AddSubgroup.card_dvd_of_injective _ (injective_kernelHead hM)
      have htail := ih (isUpperTriangular_lowerBlock hM)
      rw [Fin.prod_univ_succ]
      exact (card_dvd_card_ker_mul_card (kernelTail hM)).trans (Nat.mul_dvd_mul hhead htail)

end Triangular

theorem card_ker_of_prime {m k n : Nat} (hm : m.Prime) (M : Matrix (Fin k) (Fin n) (ZMod m)) :
    Nat.card (LinearMap.ker M.mulVecLin) = m ^ (n - M.rank) := by
  have : Fact m.Prime := ⟨hm⟩
  have hsum : M.rank + Module.finrank (ZMod m) (LinearMap.ker M.mulVecLin) = n := by
    rw [Matrix.rank, LinearMap.finrank_range_add_finrank_ker, Module.finrank_fin_fun]
  rw [Module.natCard_eq_pow_finrank (K := ZMod m), Nat.card_zmod, Nat.eq_sub_of_add_eq' hsum]

end LinearCongruence.ResidueRing
