import LinearCongruence.ResidueRing.Basic
/-!
# Exact arithmetic over a valid modulus

Over a valid modulus no operation faults: each yields the residue of the exact integer,
whatever the operands. The gcd with the modulus is that of the integers.
-/

namespace LinearCongruence.ResidueRing

variable {ring : ResidueRing}

theorem residue_bounds (h : ring.Valid) (a : Int) :
    0 ≤ a % ring.modulus ∧ a % ring.modulus < ring.modulus ∧
      (ring.modulus : Int) ≤ 0x7fffffffffffffff := by
  have hpos : (0 : Int) < ring.modulus := by exact_mod_cast h.1
  exact ⟨Int.emod_nonneg a (Int.ne_of_gt hpos), Int.emod_lt_of_pos a hpos, h.2⟩

theorem residue_of_valid (h : ring.Valid) (a : Int) :
    ring.residue a = .ok (a % ring.modulus) := by
  have hpos : (0 : Int) < ring.modulus := by exact_mod_cast h.1
  rw [residue, word_of_valid h]
  exact Euclid.residue_of_pos hpos h.2

theorem reduceWide_of_valid (h : ring.Valid) {x : Int} (hx : 0 ≤ x)
    (hle : x ≤ Word.greatestWide) :
    ring.reduceWide x = .ok (x % ring.modulus) := by
  have hpos : (0 : Int) < ring.modulus := by exact_mod_cast h.1
  have hmodulus : (ring.modulus : Int) ≤ 0x7fffffffffffffff := h.2
  have hlt := Int.emod_lt_of_pos x hpos
  have hge := Int.emod_nonneg x (Int.ne_of_gt hpos)
  have hwide : Word.wide x = .ok x := by
    rw [Word.wide, if_pos ⟨by rw [Word.leastWide]; omega, hle⟩]
    rfl
  rw [reduceWide, hwide]
  change (Word.wideRem x ring.modulus >>= fun r => pure (Word.wrap r)) = _
  rw [Word.wideRem_of_pos hpos, Int.tmod_eq_emod_of_nonneg hx]
  change Except.ok (Word.wrap (x % ring.modulus)) = _
  rw [Word.wrap_of_fits (Word.fits_iff.2 (by omega))]

theorem add_of_valid (h : ring.Valid) (a b : Int) :
    ring.add a b = .ok ((a + b) % ring.modulus) := by
  have ha := residue_bounds h a
  have hb := residue_bounds h b
  rw [add, residue_of_valid h, residue_of_valid h]
  change ring.reduceWide (a % ring.modulus + b % ring.modulus) = _
  rw [reduceWide_of_valid h (by omega) (by rw [Word.greatestWide]; omega), ← Int.add_emod]

theorem mul_of_valid (h : ring.Valid) (a b : Int) :
    ring.mul a b = .ok (a * b % ring.modulus) := by
  have ha := residue_bounds h a
  have hb := residue_bounds h b
  have hle : a % ring.modulus * (b % ring.modulus) ≤ 0x8000000000000000 * 0x8000000000000000 :=
    Int.mul_le_mul (by omega) (by omega) hb.1 (by omega)
  rw [mul, residue_of_valid h, residue_of_valid h]
  change ring.reduceWide (a % ring.modulus * (b % ring.modulus)) = _
  rw [reduceWide_of_valid h (Int.mul_nonneg ha.1 hb.1) (by rw [Word.greatestWide]; omega),
    ← Int.mul_emod]

theorem sub_of_valid (h : ring.Valid) (a b : Int) :
    ring.sub a b = .ok ((a - b) % ring.modulus) := by
  have ha := residue_bounds h a
  have hb := residue_bounds h b
  have hsub : Word.sub (a % ring.modulus) (b % ring.modulus) =
      .ok (a % ring.modulus - b % ring.modulus) :=
    Word.checked_of_fits (Word.fits_iff.2 (by omega))
  rw [sub, residue_of_valid h, residue_of_valid h]
  change (Word.sub (a % ring.modulus) (b % ring.modulus) >>= ring.residue) = _
  rw [hsub]
  change ring.residue (a % ring.modulus - b % ring.modulus) = _
  rw [residue_of_valid h, ← Int.sub_emod]

theorem neg_of_valid (h : ring.Valid) (a : Int) : ring.neg a = .ok (-a % ring.modulus) := by
  rw [neg, sub_of_valid h, Int.zero_sub]

theorem commonDivisor_of_valid (h : ring.Valid) (a : Int) :
    ring.commonDivisor a = .ok (Int.gcd a ring.modulus : Int) := by
  have ha := residue_bounds h a
  have hgreatest : Word.greatest = 0x7fffffffffffffff := rfl
  rw [commonDivisor, residue_of_valid h, word_of_valid h]
  change Euclid.gcd (a % ring.modulus) ring.modulus = _
  rw [Euclid.gcd_of_nonneg ha.1 (by omega) (by omega) (by omega), Int.gcd_comm, Euclid.gcd_emod]

theorem isUnit_of_valid (h : ring.Valid) (a : Int) :
    ring.isUnit a = .ok (decide (Int.gcd a ring.modulus = 1)) := by
  rw [isUnit, commonDivisor_of_valid h]
  change Except.ok (decide ((Int.gcd a ring.modulus : Int) = 1)) = _
  have hiff : (Int.gcd a ring.modulus : Int) = 1 ↔ Int.gcd a ring.modulus = 1 := by omega
  simp only [hiff]

end LinearCongruence.ResidueRing
