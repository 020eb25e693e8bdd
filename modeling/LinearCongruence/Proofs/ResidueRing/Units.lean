import LinearCongruence.Proofs.ResidueRing.Linear
/-!
# Units and their inverses

Over a valid modulus three things are the same: a gcd of 1 with the modulus, an inverse that is
found, and an integer that solves `a * x ≡ 1`. Main facts:

* `inverse_of_unit`, `inverse_of_not_unit` : both outcomes of the search for an inverse;
* `eq_of_dvd_mul_sub_one` : there is one inverse among the residues;
* `inverse_exact` : units, inverses and solutions of `a * x ≡ 1` agree.
-/

namespace LinearCongruence.ResidueRing

variable {ring : ResidueRing} {a x y : Int}

theorem exists_dvd_mul_sub_one_iff (h : ring.Valid) :
    (∃ x : Int, (ring.modulus : Int) ∣ a * x - 1) ↔ Int.gcd a ring.modulus = 1 := by
  rw [exists_dvd_mul_sub_iff h, Int.ofNat_dvd_left, Int.natAbs_one, Nat.dvd_one]

theorem inverse_of_unit (h : ring.Valid) (hunit : Int.gcd a ring.modulus = 1) :
    ∃ x, Euclid.inverse? a ring.modulus = .ok (some x) ∧ ring.inverse a = .ok x ∧
      0 ≤ x ∧ x < ring.modulus ∧ (ring.modulus : Int) ∣ a * x - 1 := by
  obtain ⟨x, hinverse, hrange⟩ := Euclid.inverse?_of_coprime (modulus_pos h) h.2 hunit
  refine ⟨x, hinverse, ?_, hrange⟩
  rw [inverse, word_of_valid h, hinverse]
  rfl

theorem inverse_of_not_unit (h : ring.Valid) (hunit : Int.gcd a ring.modulus ≠ 1) :
    Euclid.inverse? a ring.modulus = .ok none ∧
      ring.inverse a = .error (.refused (.notInvertible (a % ring.modulus) ring.modulus
        (Int.gcd a ring.modulus))) := by
  have hinverse := Euclid.inverse?_of_not_coprime (modulus_pos h) h.2 hunit
  refine ⟨hinverse, ?_⟩
  rw [inverse, word_of_valid h, hinverse, residue_of_valid h, commonDivisor_of_valid h]
  rfl

theorem eq_of_dvd_mul_sub_one (h : ring.Valid) (hx : (ring.modulus : Int) ∣ a * x - 1)
    (hxrange : 0 ≤ x ∧ x < ring.modulus) (hy : (ring.modulus : Int) ∣ a * y - 1)
    (hyrange : 0 ≤ y ∧ y < ring.modulus) : x = y := by
  have hunit := (exists_dvd_mul_sub_one_iff h).1 ⟨x, hx⟩
  have hstep : (ring.modulus : Int) / Int.gcd a ring.modulus = ring.modulus := by
    rw [hunit, Int.natCast_one, Int.ediv_one]
  apply Int.le_antisymm
  · exact le_of_dvd_mul_sub (modulus_pos h) hx (by omega) hyrange.1 hy
  · exact le_of_dvd_mul_sub (modulus_pos h) hy (by omega) hxrange.1 hx

theorem inverse_of_inverse (h : ring.Valid) (hx : (ring.modulus : Int) ∣ a * x - 1) :
    ring.inverse x = .ok (a % ring.modulus) := by
  have hback : (ring.modulus : Int) ∣ x * (a % ring.modulus) - 1 := by
    have hresidue : (ring.modulus : Int) ∣ a - a % ring.modulus := Int.dvd_self_sub_emod
    have hsum : x * (a % ring.modulus) - 1 = (a * x - 1) - (a - a % ring.modulus) * x := by ring
    rw [hsum]
    exact Int.dvd_sub hx (Dvd.dvd.mul_right hresidue x)
  obtain ⟨y, -, hinverse, hyge, hylt, hy⟩ :=
    inverse_of_unit h ((exists_dvd_mul_sub_one_iff h).1 ⟨_, hback⟩)
  rw [hinverse, eq_of_dvd_mul_sub_one h hy ⟨hyge, hylt⟩ hback (emod_bounds h a)]

/-- Units, residues with an inverse and integers that `a * x ≡ 1` can be solved for are the same.
The inverse is the one solution among the residues, and its own inverse is the residue of `a`;
what has none is refused. -/
theorem inverse_exact (ring : ResidueRing) (a : Int) (h : ring.Valid) :
    ∃ unit, ring.isUnit a = .ok unit ∧
      (unit = true ↔ ∃ x, ring.inverse a = .ok x) ∧
      (unit = true ↔ ∃ x : Int, (ring.modulus : Int) ∣ a * x - 1) ∧
      (unit = true → ∃ x, ring.inverse a = .ok x ∧
        Euclid.inverse? a ring.modulus = .ok (some x) ∧
        (∀ y : Int, 0 ≤ y ∧ y < ring.modulus ∧ (ring.modulus : Int) ∣ a * y - 1 ↔ y = x) ∧
        ∃ back, ring.residue a = .ok back ∧ ring.inverse x = .ok back) ∧
      (unit = false → Euclid.inverse? a ring.modulus = .ok none ∧
        ring.inverse a = .error (.refused (.notInvertible (a % ring.modulus) ring.modulus
          (Int.gcd a ring.modulus)))) := by
  rw [exists_dvd_mul_sub_one_iff h]
  refine ⟨_, isUnit_of_valid h a, ?_⟩
  by_cases hunit : Int.gcd a ring.modulus = 1
  · obtain ⟨x, hfound, hinverse, hge, hlt, hx⟩ := inverse_of_unit h hunit
    refine ⟨by simp [hunit, hinverse], by simp, ?_, by simp [hunit]⟩
    intro _
    refine ⟨x, hinverse, hfound, ?_, _, residue_of_valid h a, inverse_of_inverse h hx⟩
    intro y
    constructor
    · rintro ⟨hyge, hylt, hy⟩
      exact eq_of_dvd_mul_sub_one h hy ⟨hyge, hylt⟩ hx ⟨hge, hlt⟩
    · rintro rfl
      exact ⟨hge, hlt, hx⟩
  · have hrefused := inverse_of_not_unit h hunit
    exact ⟨by simp [hunit, hrefused.2], by simp, by simp [hunit], fun _ => hrefused⟩

theorem inverse_exact_mod_greatest :
    inverse ⟨0x7fffffffffffffff⟩ Word.least = .ok 0x7ffffffffffffffe ∧
      inverse ⟨10⟩ 4 = .error (.refused (.notInvertible 4 10 2)) := by
  constructor
  · obtain ⟨unit, -, -, hsolved, hfound, -⟩ :=
      inverse_exact ⟨0x7fffffffffffffff⟩ Word.least (by decide)
    obtain ⟨x, hinverse, -, hunique, -⟩ :=
      hfound (hsolved.2 ⟨0x7ffffffffffffffe, by decide⟩)
    rw [hinverse, (hunique 0x7ffffffffffffffe).1 (by decide)]
  · obtain ⟨unit, -, -, hsolved, -, hrefused⟩ := inverse_exact ⟨10⟩ 4 (by decide)
    cases unit with
    | false => exact (hrefused rfl).2
    | true =>
        obtain ⟨x, hx⟩ := hsolved.1 rfl
        dsimp only at hx
        omega

end LinearCongruence.ResidueRing
