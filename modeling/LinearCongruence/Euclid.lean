import LinearCongruence.Word
/-!
# Euclid's algorithm on words

Greatest common divisors, Bézout coefficients, canonical residues and inverses of words.
Every intermediate value is a checked word, so a result is exact or the computation stops at
a fault.
-/

namespace LinearCongruence.Euclid

theorem natAbs_tmod_lt {a b : Int} (h : ¬b = 0) : (a.tmod b).natAbs < b.natAbs := by
  rw [Int.natAbs_tmod]
  exact Nat.mod_lt _ (by omega)

/-- Euclid's algorithm on these two pairs divides the least word by -1, whose quotient is no
word. -/
def DividesLeast (a b : Int) : Prop :=
  (a = Word.least ∧ b = -1) ∨ (a = -1 ∧ b = Word.least)

instance (a b : Int) : Decidable (DividesLeast a b) := inferInstanceAs (Decidable (_ ∨ _))

/-- The greatest common divisor, never negative. -/
def gcd (a b : Int) : Checked Int :=
  if b = 0 then Word.abs a
  else do
    Word.checkDivision a b
    gcd b (a.tmod b)
termination_by b.natAbs
decreasing_by exact natAbs_tmod_lt ‹_›

/-- A common divisor `a * left + b * right` of the two numbers `a` and `b` it belongs to. -/
structure Bezout where
  gcd : Int
  left : Int
  right : Int
  deriving DecidableEq

/-- Bézout coefficients by remainders of truncated division; the divisor may be negative. -/
def signedBezout (a b : Int) : Checked Bezout :=
  if b = 0 then pure ⟨a, 1, 0⟩
  else do
    Word.checkDivision a b
    let tail ← signedBezout b (a.tmod b)
    let multiple ← Word.mul (a.tdiv b) tail.right
    let right ← Word.sub tail.left multiple
    pure ⟨tail.gcd, tail.right, right⟩
termination_by b.natAbs
decreasing_by exact natAbs_tmod_lt ‹_›

def bezout (a b : Int) : Checked Bezout := do
  let found ← signedBezout a b
  if found.gcd < 0 then
    let gcd ← Word.neg found.gcd
    let left ← Word.neg found.left
    let right ← Word.neg found.right
    pure ⟨gcd, left, right⟩
  else
    pure found

/-- The representative of `x` in `[0, m)`. -/
def residue (x m : Int) : Checked Int := do
  let r ← Word.rem x m
  if r < 0 then Word.add r m else pure r

/-- The inverse of `a` in `[0, m)`, where `a` and `m` are coprime; modulo 1 it is 0. -/
def inverse? (a m : Int) : Checked (Option Int) := do
  let found ← bezout (← residue a m) m
  if found.gcd = 1 then
    pure (some (← residue found.left m))
  else
    pure none

theorem residue_of_pos {x m : Int} (hpos : 0 < m) (hle : m ≤ Word.greatest) :
    residue x m = .ok (x % m) := by
  have hlt := Int.emod_lt_of_pos x hpos
  have hge := Int.emod_nonneg x (Int.ne_of_gt hpos)
  have htmod := Int.tmod_eq_emod (a := x) (b := m)
  have hgreatest : Word.greatest = 0x7fffffffffffffff := rfl
  rw [residue, Word.rem_of_pos hpos]
  change (if x.tmod m < 0 then Word.add (x.tmod m) m else pure (x.tmod m)) = _
  split
  · have heq : x.tmod m + m = x % m := by split at htmod <;> omega
    rw [Word.add, heq]
    apply Word.checked_of_fits
    rw [Word.fits_iff]
    omega
  · have heq : x.tmod m = x % m := by split at htmod <;> omega
    rw [heq]
    rfl

theorem gcd_emod (a b : Int) : Int.gcd b (a % b) = Int.gcd a b := by
  rw [Int.emod_def, Int.mul_comm, Int.gcd_sub_mul_right_right, Int.gcd_comm]

theorem gcd_tmod (a b : Int) : Int.gcd b (a.tmod b) = Int.gcd a b := by
  change Nat.gcd b.natAbs (a.tmod b).natAbs = Nat.gcd a.natAbs b.natAbs
  rw [Int.natAbs_tmod, Nat.gcd_comm, ← Nat.gcd_rec, Nat.gcd_comm]

theorem gcd_le_of_natAbs_le {a b bound : Int} (ha : (a.natAbs : Int) ≤ bound)
    (hb : (b.natAbs : Int) ≤ bound) : (Int.gcd a b : Int) ≤ bound := by
  by_cases hzero : b = 0
  · rw [hzero, Int.gcd_zero_right]
    exact ha
  · have hle : Int.gcd a b ≤ b.natAbs := Nat.gcd_le_right _ (by omega)
    omega

section Words

variable {a b : Int}

theorem fits_tmod (hb : Word.Fits b) (hne : b ≠ 0) : Word.Fits (a.tmod b) := by
  have hlt := natAbs_tmod_lt (a := a) hne
  rw [Word.fits_iff] at hb ⊢
  omega

theorem checkDivision_of_not_dividesLeast (h : ¬DividesLeast a b) (hne : b ≠ 0) :
    Word.checkDivision a b = .ok () := by
  rw [Word.checkDivision, if_neg hne, if_neg fun hleast => h (.inl hleast)]
  rfl

theorem not_dividesLeast_tmod (ha : Word.Fits a) (h : ¬DividesLeast a b) (hne : b ≠ 0) :
    ¬DividesLeast b (a.tmod b) := by
  have hlt := natAbs_tmod_lt (a := a) hne
  rintro (⟨hb, hmod⟩ | ⟨hb, hmod⟩)
  · -- Only -1 leaves the remainder -1 under the least word.
    have habs := Int.natAbs_tmod a b
    rw [hmod, hb] at habs
    change 1 = a.natAbs % 0x8000000000000000 at habs
    have hneg : a < 0 := by
      apply Int.not_le.1
      intro hge
      have := Int.tmod_nonneg b hge
      omega
    rw [Word.fits_iff] at ha
    exact h (.inr ⟨by omega, hb⟩)
  · have hleast : Word.least = -0x8000000000000000 := rfl
    omega

/-- Euclid's algorithm is exact wherever every division on the way has a quotient and the
result is a word. -/
theorem gcd_of_fits (ha : Word.Fits a) (hb : Word.Fits b) (h : ¬DividesLeast a b) :
    gcd a b = Word.checked (Int.gcd a b) := by
  induction hn : b.natAbs using Nat.strongRecOn generalizing a b with
  | ind n ih =>
    rw [gcd]
    split
    · rename_i hzero
      rw [Word.abs, hzero, Int.gcd_zero_right]
    · rename_i hne
      have hlt := natAbs_tmod_lt (a := a) hne
      rw [checkDivision_of_not_dividesLeast h hne]
      change gcd b (a.tmod b) = _
      rw [ih (a.tmod b).natAbs (by omega) hb (fits_tmod hb hne)
        (not_dividesLeast_tmod ha h hne) rfl, gcd_tmod]

theorem gcd_of_nonneg (ha : 0 ≤ a) (hb : 0 ≤ b) (hale : a ≤ Word.greatest)
    (hble : b ≤ Word.greatest) : gcd a b = .ok (Int.gcd a b : Int) := by
  have hgreatest : Word.greatest = 0x7fffffffffffffff := rfl
  have hleast : Word.least = -0x8000000000000000 := rfl
  rw [gcd_of_fits (Word.fits_iff.2 (by omega)) (Word.fits_iff.2 (by omega))
    (by rw [DividesLeast]; omega)]
  have hle : (Int.gcd a b : Int) ≤ Word.greatest := gcd_le_of_natAbs_le (by omega) (by omega)
  apply Word.checked_of_fits
  rw [Word.fits_iff]
  omega

end Words

end LinearCongruence.Euclid
