import LinearCongruence.Euclid
import LinearCongruence.Proofs.Checked
import Mathlib.Tactic.Ring
import Mathlib.Tactic.LinearCombination
/-!
# Bézout coefficients without overflow

The coefficients that Euclid's algorithm carries back stay within half of the operands, so
that no product or difference on the way leaves the words. Main facts:

* `signedBezout_ok` : the identity, the divisor and the bounds of both coefficients;
* `inverse?_of_coprime`, `inverse?_of_not_coprime` : when an inverse is found;
* `gcd_and_bezout_of_fits` : both forms of the algorithm on all words, and the five pairs at
  which they leave the words.
-/

namespace LinearCongruence.Euclid

theorem gcd_emod_left (a m : Int) : Int.gcd (a % m) m = Int.gcd a m := by
  rw [Int.gcd_comm, gcd_emod]

/-! ## Coefficients -/

/-- A Bézout identity whose coefficients are at most half of the other operand, but for the
coefficient 1 of the operand that is itself the divisor. -/
structure Bezout.IsFor (found : Bezout) (a b : Int) : Prop where
  fits : Word.Fits found.gcd
  natAbs_gcd : found.gcd.natAbs = Int.gcd a b
  identity : a * found.left + b * found.right = found.gcd
  left_le : b ≠ 0 → 2 * found.left.natAbs ≤ b.natAbs
  right_le : found.right.natAbs ≤ 1 ∨ 2 * found.right.natAbs ≤ a.natAbs
  of_zero : b = 0 → found.left = 1 ∧ found.right = 0

section Words

variable {a b : Int} {found tail : Bezout}

theorem Bezout.IsFor.step_le (h : tail.IsFor b (a.tmod b)) (hne : b ≠ 0)
    (hmod : a.tmod b ≠ 0) :
    2 * tail.right.natAbs ≤ b.natAbs ∧ 2 * (a.tdiv b * tail.right).natAbs ≤ a.natAbs ∧
      2 * (tail.left - a.tdiv b * tail.right).natAbs ≤ a.natAbs := by
  have hlt := natAbs_tmod_lt (a := a) hne
  have hleft := h.left_le hmod
  have hright : 2 * tail.right.natAbs ≤ b.natAbs := by
    have := h.right_le
    omega
  have hproduct : 2 * (a.tdiv b * tail.right).natAbs + (a.tmod b).natAbs ≤ a.natAbs := by
    rw [Int.natAbs_mul, Int.natAbs_tdiv, Int.natAbs_tmod]
    calc 2 * (a.natAbs / b.natAbs * tail.right.natAbs) + a.natAbs % b.natAbs
        = a.natAbs / b.natAbs * (2 * tail.right.natAbs) + a.natAbs % b.natAbs := by ring
      _ ≤ a.natAbs / b.natAbs * b.natAbs + a.natAbs % b.natAbs :=
        Nat.add_le_add_right (Nat.mul_le_mul_left _ hright) _
      _ = a.natAbs := Nat.div_add_mod' _ _
  exact ⟨hright, by omega, by omega⟩

theorem Bezout.IsFor.step (h : tail.IsFor b (a.tmod b)) (hne : b ≠ 0) :
    (⟨tail.gcd, tail.right, tail.left - a.tdiv b * tail.right⟩ : Bezout).IsFor a b := by
  have hsplit := Int.mul_tdiv_add_tmod a b
  refine ⟨h.fits, by rw [h.natAbs_gcd, gcd_tmod], ?_, ?_, ?_, fun hzero => absurd hzero hne⟩
  · have hident := h.identity
    simp only
    rw [← hident]
    linear_combination -tail.right * hsplit
  · intro _
    by_cases hmod : a.tmod b = 0
    · simp [(h.of_zero hmod).2]
    · exact (h.step_le hne hmod).1
  · by_cases hmod : a.tmod b = 0
    · simp [h.of_zero hmod]
    · exact .inr (h.step_le hne hmod).2.2

theorem Bezout.IsFor.fits_step (h : tail.IsFor b (a.tmod b)) (ha : Word.Fits a) (hne : b ≠ 0) :
    Word.Fits (a.tdiv b * tail.right) ∧ Word.Fits (tail.left - a.tdiv b * tail.right) := by
  rw [Word.fits_iff] at ha
  simp only [Word.fits_iff]
  by_cases hmod : a.tmod b = 0
  · simp [h.of_zero hmod]
  · obtain ⟨-, hproduct, hright⟩ := h.step_le hne hmod
    omega

theorem signedBezout_ok (ha : Word.Fits a) (hb : Word.Fits b) (h : ¬DividesLeast a b) :
    ∃ found, signedBezout a b = .ok found ∧ found.IsFor a b := by
  induction hn : b.natAbs using Nat.strongRecOn generalizing a b with
  | ind n ih =>
    rw [signedBezout]
    split
    · rename_i hzero
      subst hzero
      exact ⟨⟨a, 1, 0⟩, rfl, ha, by simp, by simp, by simp, by simp, by simp⟩
    · rename_i hne
      have hlt := natAbs_tmod_lt (a := a) hne
      obtain ⟨tail, htail, hfound⟩ :=
        ih (a.tmod b).natAbs (by omega) hb (fits_tmod hb hne) (not_dividesLeast_tmod ha h hne) rfl
      obtain ⟨hmul, hsub⟩ := hfound.fits_step ha hne
      refine ⟨_, ?_, hfound.step hne⟩
      rw [checkDivision_of_not_dividesLeast h hne, Checked.ok_bind, htail, Checked.ok_bind,
        Word.mul, Word.checked_of_fits hmul, Checked.ok_bind, Word.sub, Word.checked_of_fits hsub]
      rfl

theorem Bezout.IsFor.coefficients_le (h : found.IsFor a b) (ha : Word.Fits a)
    (hb : Word.Fits b) :
    found.left.natAbs ≤ 0x4000000000000000 ∧ found.right.natAbs ≤ 0x4000000000000000 := by
  rw [Word.fits_iff] at ha hb
  constructor
  · by_cases hzero : b = 0
    · simp [h.of_zero hzero]
    · have := h.left_le hzero
      omega
  · have := h.right_le
    omega

theorem bezout_ok (ha : Word.Fits a) (hb : Word.Fits b) (h : ¬DividesLeast a b)
    (hgcd : Word.Fits (Int.gcd a b)) :
    ∃ found, bezout a b = .ok found ∧ found.gcd = Int.gcd a b ∧
      a * found.left + b * found.right = found.gcd ∧
      Word.Fits found.left ∧ Word.Fits found.right := by
  obtain ⟨found, hfound, hfor⟩ := signedBezout_ok ha hb h
  obtain ⟨hleft, hright⟩ := hfor.coefficients_le ha hb
  have habs := hfor.natAbs_gcd
  have hident := hfor.identity
  rw [Word.fits_iff] at hgcd
  unfold bezout
  rw [hfound, Checked.ok_bind]
  simp only [Word.fits_iff]
  split
  · have hneg (x : Int) (hx : x.natAbs ≤ 0x7fffffffffffffff) : Word.neg x = .ok (-x) :=
      Word.checked_of_fits (Word.fits_iff.2 (by omega))
    rw [hneg _ (by omega), hneg _ (by omega), hneg _ (by omega)]
    refine ⟨⟨-found.gcd, -found.left, -found.right⟩, rfl, by simp only; omega, ?_, ?_⟩
    · simp only
      linear_combination -hident
    · simp only
      omega
  · exact ⟨found, rfl, by omega, hident, by omega⟩

/-- A divisor that is no word comes out as the least word, whose negation is none either. -/
theorem bezout_of_not_fits_gcd (ha : Word.Fits a) (hb : Word.Fits b) (h : ¬DividesLeast a b)
    (hgcd : ¬Word.Fits (Int.gcd a b)) : bezout a b = .error .overflow := by
  obtain ⟨found, hfound, hfor⟩ := signedBezout_ok ha hb h
  have habs := hfor.natAbs_gcd
  have hfits := hfor.fits
  rw [Word.fits_iff] at hgcd hfits
  unfold bezout
  rw [hfound, Checked.ok_bind, if_pos (by omega), Word.neg,
    Word.checked_of_not_fits (by rw [Word.fits_iff]; omega)]
  rfl

end Words

/-! ## Inverses -/

section Inverse

variable {a m : Int} (hpos : 0 < m) (hle : m ≤ Word.greatest)
include hpos hle

/-- What an inverse is made of: the gcd of the residue and its coefficient. -/
private theorem inverse?_eq :
    ∃ left, m ∣ a * left - Int.gcd a m ∧
      inverse? a m = .ok (if Int.gcd a m = 1 then some (left % m) else none) := by
  have hlt := Int.emod_lt_of_pos a hpos
  have hge := Int.emod_nonneg a (Int.ne_of_gt hpos)
  have hgreatest : Word.greatest = 0x7fffffffffffffff := rfl
  have hgcdle : (Int.gcd (a % m) m : Int) ≤ Word.greatest :=
    gcd_le_of_natAbs_le (by omega) (by omega)
  obtain ⟨found, hfound, hgcd, hident, -⟩ :=
    bezout_ok (a := a % m) (b := m) (Word.fits_iff.2 (by omega)) (Word.fits_iff.2 (by omega))
      (by rw [DividesLeast, show Word.least = -0x8000000000000000 from rfl]; omega)
      (Word.fits_iff.2 (by omega))
  rw [gcd_emod_left] at hgcd
  refine ⟨found.left, ?_, ?_⟩
  · have hdvd : m ∣ a - a % m := Int.dvd_self_sub_emod
    have hsum : a * found.left - Int.gcd a m =
        (a - a % m) * found.left - m * found.right := by
      rw [← hgcd, ← hident]
      ring
    rw [hsum]
    exact Int.dvd_sub (Dvd.dvd.mul_right hdvd _) (Int.dvd_mul_right _ _)
  · rw [inverse?, residue_of_pos hpos hle, Checked.ok_bind, hfound, Checked.ok_bind, hgcd]
    by_cases hone : Int.gcd a m = 1
    · rw [if_pos (by omega), if_pos hone, residue_of_pos hpos hle]
      rfl
    · rw [if_neg (by omega), if_neg hone]
      rfl

theorem inverse?_of_coprime (h : Int.gcd a m = 1) :
    ∃ x, inverse? a m = .ok (some x) ∧ 0 ≤ x ∧ x < m ∧ m ∣ a * x - 1 := by
  obtain ⟨left, hdvd, hinverse⟩ := inverse?_eq (a := a) hpos hle
  rw [if_pos h] at hinverse
  refine ⟨left % m, hinverse, Int.emod_nonneg _ (Int.ne_of_gt hpos),
    Int.emod_lt_of_pos _ hpos, ?_⟩
  have hresidue : m ∣ left - left % m := Int.dvd_self_sub_emod
  have hsum : a * (left % m) - 1 = (a * left - Int.gcd a m) - a * (left - left % m) := by
    rw [h]
    push_cast
    ring
  rw [hsum]
  exact Int.dvd_sub hdvd (Dvd.dvd.mul_left hresidue _)

theorem inverse?_of_not_coprime (h : Int.gcd a m ≠ 1) : inverse? a m = .ok none := by
  obtain ⟨left, -, hinverse⟩ := inverse?_eq (a := a) hpos hle
  rwa [if_neg h] at hinverse

end Inverse

/-! ## Pairs without a result -/

section Extremes

variable {a b : Int}

theorem gcd_of_dividesLeast (h : DividesLeast a b) : gcd a b = .error .overflow := by
  have hleast : gcd Word.least (-1) = .error .overflow := by
    rw [gcd, if_neg (by decide)]
    rfl
  rcases h with ⟨rfl, rfl⟩ | ⟨rfl, rfl⟩
  · exact hleast
  · rw [gcd, if_neg (by decide)]
    exact hleast

theorem bezout_of_dividesLeast (h : DividesLeast a b) : bezout a b = .error .overflow := by
  have hleast : signedBezout Word.least (-1) = .error .overflow := by
    rw [signedBezout, if_neg (by decide)]
    rfl
  rcases h with ⟨rfl, rfl⟩ | ⟨rfl, rfl⟩
  · rw [bezout, hleast]
    rfl
  · rw [bezout, signedBezout, if_neg (by decide)]
    change (signedBezout Word.least (-1) >>= _) >>= _ = _
    rw [hleast]
    rfl

theorem eq_least_of_not_fits_gcd (ha : Word.Fits a) (hne : a ≠ 0)
    (h : ¬Word.Fits (Int.gcd a b)) : a = Word.least := by
  have hleast : Word.least = -0x8000000000000000 := rfl
  have hle : Int.gcd a b ≤ a.natAbs := Nat.gcd_le_left _ (by omega)
  rw [Word.fits_iff] at ha h
  omega

/-- The pairs of words that Euclid's algorithm has no result for: it divides the least word by
-1, or comes to the absolute value of the least word. -/
def extremePairs : List (Int × Int) :=
  [(Word.least, 0), (0, Word.least), (Word.least, Word.least), (Word.least, -1),
    (-1, Word.least)]

theorem mem_extremePairs_iff (ha : Word.Fits a) (hb : Word.Fits b) :
    (a, b) ∈ extremePairs ↔ DividesLeast a b ∨ ¬Word.Fits (Int.gcd a b) := by
  simp only [extremePairs, List.mem_cons, Prod.mk.injEq, List.not_mem_nil, or_false]
  constructor
  · rintro (⟨rfl, rfl⟩ | ⟨rfl, rfl⟩ | ⟨rfl, rfl⟩ | ⟨rfl, rfl⟩ | ⟨rfl, rfl⟩)
    · exact .inr (by decide)
    · exact .inr (by decide)
    · exact .inr (by decide)
    · exact .inl (by decide)
    · exact .inl (by decide)
  · rintro (h | hgcd)
    · rcases h with h | h
      · simp [h]
      · simp [h]
    · have hleft := eq_least_of_not_fits_gcd (b := b) ha
      have hright := eq_least_of_not_fits_gcd (b := a) hb
      rw [Int.gcd_comm] at hright
      by_cases hazero : a = 0
      · by_cases hbzero : b = 0
        · rw [hazero, hbzero] at hgcd
          exact absurd (by decide) hgcd
        · exact .inr (.inl ⟨hazero, hright hbzero hgcd⟩)
      · by_cases hbzero : b = 0
        · exact .inl ⟨hleft hazero hgcd, hbzero⟩
        · exact .inr (.inr (.inl ⟨hleft hazero hgcd, hright hbzero hgcd⟩))

/-- Euclid's algorithm on two words, with and without coefficients: at the extreme pairs it leaves
the words, and at all others it is exact. -/
theorem gcd_and_bezout_of_fits (a b : Int) (ha : Word.Fits a) (hb : Word.Fits b) :
    ((a, b) ∈ extremePairs → gcd a b = .error .overflow ∧ bezout a b = .error .overflow) ∧
    ((a, b) ∉ extremePairs →
      gcd a b = .ok (Int.gcd a b : Int) ∧
      ∃ found, bezout a b = .ok found ∧ found.gcd = Int.gcd a b ∧
        a * found.left + b * found.right = found.gcd ∧
        Word.Fits found.left ∧ Word.Fits found.right) := by
  rw [mem_extremePairs_iff ha hb]
  constructor
  · intro h
    by_cases hdiv : DividesLeast a b
    · exact ⟨gcd_of_dividesLeast hdiv, bezout_of_dividesLeast hdiv⟩
    · have hgcd := h.resolve_left hdiv
      refine ⟨?_, bezout_of_not_fits_gcd ha hb hdiv hgcd⟩
      rw [gcd_of_fits ha hb hdiv, Word.checked_of_not_fits hgcd]
  · intro h
    obtain ⟨hdiv, hgcd⟩ := not_or.1 h
    rw [not_not] at hgcd
    refine ⟨?_, bezout_ok ha hb hdiv hgcd⟩
    rw [gcd_of_fits ha hb hdiv, Word.checked_of_fits hgcd]

theorem gcd_and_bezout_of_least :
    (∃ found, bezout Word.least Word.greatest = .ok found ∧ found.gcd = 1 ∧
      Word.least * found.left + Word.greatest * found.right = 1) ∧
    gcd (-1) Word.least = .error .overflow ∧ bezout (-1) Word.least = .error .overflow := by
  obtain ⟨-, hexact⟩ := gcd_and_bezout_of_fits Word.least Word.greatest (by decide) (by decide)
  obtain ⟨-, found, hfound, hgcd, hident, -⟩ := hexact (by decide)
  have hone : Int.gcd Word.least Word.greatest = 1 := by decide
  rw [hone] at hgcd
  obtain ⟨hfaults, -⟩ := gcd_and_bezout_of_fits (-1) Word.least (by decide) (by decide)
  exact ⟨⟨found, hfound, hgcd, hident.trans hgcd⟩, hfaults (by decide)⟩

end Extremes

end LinearCongruence.Euclid
