import LinearCongruence.Proofs.ResidueRing.Linear
import Mathlib.Algebra.Ring.InjSurj
import Mathlib.Data.Int.ModEq
/-!
# The commutative ring of residues

Over a valid modulus an operation yields the residue of the exact integer, so that only the
classes of its operands matter. Taking residues carries the operations of the integers over to
the residues, and the laws of a commutative ring with them. Main facts:

* `Residue.commRing` : the ring laws, carried over from the integers;
* `arithmetic_exact` : the operations on words are those of this ring.
-/

namespace LinearCongruence

@[ext] structure Residue (modulus : Nat) where
  value : Int
  nonneg : 0 ≤ value
  lt : value < modulus

namespace Residue

section Ring

variable {modulus : Nat} [NeZero modulus]

def ofInt (modulus : Nat) [NeZero modulus] (x : Int) : Residue modulus where
  value := x % modulus
  nonneg := Int.emod_nonneg x (NeZero.ne _)
  lt := Int.emod_lt_of_pos x (by exact_mod_cast NeZero.pos modulus)

instance : Zero (Residue modulus) := ⟨ofInt modulus 0⟩
instance : One (Residue modulus) := ⟨ofInt modulus 1⟩
instance : Add (Residue modulus) := ⟨fun a b => ofInt modulus (a.value + b.value)⟩
instance : Mul (Residue modulus) := ⟨fun a b => ofInt modulus (a.value * b.value)⟩
instance : Neg (Residue modulus) := ⟨fun a => ofInt modulus (-a.value)⟩
instance : Sub (Residue modulus) := ⟨fun a b => ofInt modulus (a.value - b.value)⟩
instance : SMul ℕ (Residue modulus) := ⟨fun n a => ofInt modulus (n * a.value)⟩
instance : SMul ℤ (Residue modulus) := ⟨fun n a => ofInt modulus (n * a.value)⟩
instance : Pow (Residue modulus) ℕ := ⟨fun a n => ofInt modulus (a.value ^ n)⟩
instance : NatCast (Residue modulus) := ⟨fun n => ofInt modulus n⟩
instance : IntCast (Residue modulus) := ⟨ofInt modulus⟩

theorem ofInt_surjective : Function.Surjective (ofInt modulus) := by
  intro a
  refine ⟨a.value, ?_⟩
  ext
  exact Int.emod_eq_of_lt a.nonneg a.lt

theorem ofInt_eq_of_modEq {x y : Int} (h : x ≡ y [ZMOD modulus]) :
    ofInt modulus x = ofInt modulus y := by
  ext
  exact h

theorem modEq_value_ofInt (x : Int) : x ≡ (ofInt modulus x).value [ZMOD modulus] :=
  (Int.mod_modEq x modulus).symm

instance commRing : CommRing (Residue modulus) :=
  Function.Surjective.commRing (ofInt modulus) ofInt_surjective rfl rfl
    (fun x y => ofInt_eq_of_modEq ((modEq_value_ofInt x).add (modEq_value_ofInt y)))
    (fun x y => ofInt_eq_of_modEq ((modEq_value_ofInt x).mul (modEq_value_ofInt y)))
    (fun x => ofInt_eq_of_modEq (modEq_value_ofInt x).neg)
    (fun x y => ofInt_eq_of_modEq ((modEq_value_ofInt x).sub (modEq_value_ofInt y)))
    (fun n x => ofInt_eq_of_modEq (nsmul_eq_mul n x ▸ (modEq_value_ofInt x).mul_left n))
    (fun n x => ofInt_eq_of_modEq ((modEq_value_ofInt x).mul_left n))
    (fun x n => ofInt_eq_of_modEq ((modEq_value_ofInt x).pow n))
    (fun _ => rfl) (fun _ => rfl)

end Ring

end Residue

namespace ResidueRing

variable {ring : ResidueRing}

/-- The computation yields the one number of `[0, modulus)` that is congruent to `x`. -/
def YieldsResidue (ring : ResidueRing) (x : Int) (computed : Checked Int) : Prop :=
  ∃ r, computed = .ok r ∧
    ∀ s : Int, 0 ≤ s ∧ s < ring.modulus ∧ (ring.modulus : Int) ∣ x - s ↔ s = r

theorem yieldsResidue_emod (h : ring.Valid) (x : Int) :
    ring.YieldsResidue x (.ok (x % ring.modulus)) := by
  refine ⟨_, rfl, fun s => ?_⟩
  constructor
  · rintro ⟨hge, hlt, hdvd⟩
    have hmod : s % ring.modulus = x % ring.modulus := Int.modEq_iff_dvd.2 hdvd
    rwa [Int.emod_eq_of_lt hge hlt] at hmod
  · rintro rfl
    exact ⟨(emod_bounds h x).1, (emod_bounds h x).2, Int.dvd_self_sub_emod⟩

/-- Every operation yields the residue of the exact integer, whatever the operands, and the same
for congruent operands. On residues the operations are those of a commutative ring. -/
theorem arithmetic_exact (ring : ResidueRing) (h : ring.Valid) :
    (∀ a b : Int,
      ring.YieldsResidue a (ring.residue a) ∧
      ring.YieldsResidue a (Euclid.residue a ring.modulus) ∧
      ring.YieldsResidue (a + b) (ring.add a b) ∧
      ring.YieldsResidue (a - b) (ring.sub a b) ∧
      ring.YieldsResidue (a * b) (ring.mul a b) ∧
      ring.YieldsResidue (-a) (ring.neg a)) ∧
    (∀ a a' b b' : Int, a ≡ a' [ZMOD ring.modulus] → b ≡ b' [ZMOD ring.modulus] →
      ring.residue a = ring.residue a' ∧
      Euclid.residue a ring.modulus = Euclid.residue a' ring.modulus ∧
      ring.add a b = ring.add a' b' ∧
      ring.sub a b = ring.sub a' b' ∧
      ring.mul a b = ring.mul a' b' ∧
      ring.neg a = ring.neg a') ∧
    ∃ _ : CommRing (Residue ring.modulus),
      ring.residue 0 = .ok (0 : Residue ring.modulus).value ∧
      ring.residue 1 = .ok (1 : Residue ring.modulus).value ∧
      ∀ x y : Residue ring.modulus,
        ring.add x.value y.value = .ok (x + y).value ∧
        ring.sub x.value y.value = .ok (x - y).value ∧
        ring.mul x.value y.value = .ok (x * y).value ∧
        ring.neg x.value = .ok (-x).value := by
  have hresidue (a : Int) : Euclid.residue a ring.modulus = .ok (a % ring.modulus) :=
    Euclid.residue_of_pos (modulus_pos h) h.2
  have hnonzero : NeZero ring.modulus := ⟨Nat.ne_of_gt h.1⟩
  refine ⟨?_, ?_, Residue.commRing, residue_of_valid h 0, residue_of_valid h 1, ?_⟩
  · intro a b
    rw [residue_of_valid h, hresidue, add_of_valid h, sub_of_valid h, mul_of_valid h,
      neg_of_valid h]
    exact ⟨yieldsResidue_emod h _, yieldsResidue_emod h _, yieldsResidue_emod h _,
      yieldsResidue_emod h _, yieldsResidue_emod h _, yieldsResidue_emod h _⟩
  · intro a a' b b' ha hb
    simp only [residue_of_valid h, hresidue, add_of_valid h, sub_of_valid h, mul_of_valid h,
      neg_of_valid h, Except.ok.injEq]
    exact ⟨ha, ha, ha.add hb, ha.sub hb, ha.mul hb, ha.neg⟩
  · intro x y
    exact ⟨add_of_valid h _ _, sub_of_valid h _ _, mul_of_valid h _ _, neg_of_valid h _⟩

theorem arithmetic_exact_mod_greatest :
    mul ⟨0x7fffffffffffffff⟩ Word.least Word.least = .ok 1 ∧
      sub ⟨0x7fffffffffffffff⟩ Word.greatest Word.least = .ok 1 := by
  obtain ⟨hyields, -, -⟩ := arithmetic_exact ⟨0x7fffffffffffffff⟩ (by decide)
  constructor
  · obtain ⟨-, -, -, -, ⟨r, hmul, hunique⟩, -⟩ := hyields Word.least Word.least
    rw [hmul, (hunique 1).1 (by decide)]
  · obtain ⟨-, -, -, ⟨r, hsub, hunique⟩, -⟩ := hyields Word.greatest Word.least
    rw [hsub, (hunique 1).1 (by decide)]

end ResidueRing

end LinearCongruence
