import LinearCongruence.Proofs.Euclid
import LinearCongruence.ResidueRing.Lemmas
import LinearCongruence.ResidueRing.Linear
import Mathlib.Algebra.EuclideanDomain.Basic
import Mathlib.Algebra.EuclideanDomain.Int
import Mathlib.Data.List.Pairwise
import Mathlib.Tactic.Ring
/-!
# One linear congruence, solved

Over a valid modulus the solutions of `a * x ≡ b` are found exactly: none where
`gcd(a, modulus)` does not divide `b`, else one in each step of `modulus / gcd(a, modulus)`.
Main facts:

* `leastSolution?_of_dvd`, `leastSolution?_of_not_dvd` : both outcomes of the search for one;
* `solutions_of_valid` : the list of all solutions is ascending and exact;
* `leastSolution_isLeast` : the solution found is the least of all integers that are one.
-/

namespace LinearCongruence.ResidueRing

/-! ## Congruences of integers -/

theorem dvd_mul_iff_div_gcd_dvd {a m : Int} (hm : 0 < m) (d : Int) :
    m ∣ a * d ↔ m / Int.gcd a m ∣ d := by
  have hgcd : (Int.gcd a m : Int) ≠ 0 := by
    have := Int.gcd_pos_of_ne_zero_right a (Int.ne_of_gt hm)
    omega
  rw [Int.ediv_dvd_iff_dvd_mul (Int.gcd_dvd_right a m) hgcd, Int.gcd_comm,
    Int.dvd_gcd_mul_iff_dvd_mul]

theorem dvd_mul_sub_of_inverse {a b m x y : Int} (hx : m ∣ a * x - 1) (hy : m ∣ y - x * b) :
    m ∣ a * y - b := by
  have hsum : a * y - b = a * (y - x * b) + (a * x - 1) * b := by ring
  rw [hsum]
  exact Int.dvd_add (Dvd.dvd.mul_left hy a) (Dvd.dvd.mul_right hx b)

theorem dvd_mul_sub_of_residues {a b m y : Int} (h : m ∣ a % m * y - b % m) :
    m ∣ a * y - b := by
  have ha : m ∣ a - a % m := Int.dvd_self_sub_emod
  have hb : m ∣ b - b % m := Int.dvd_self_sub_emod
  have hsum : a * y - b = (a % m * y - b % m) + ((a - a % m) * y - (b - b % m)) := by ring
  rw [hsum]
  exact Int.dvd_add h (Int.dvd_sub (Dvd.dvd.mul_right ha y) hb)

theorem dvd_of_dvd_mul_sub {a b g m y : Int} (ha : g ∣ a) (hm : g ∣ m) (h : m ∣ a * y - b) :
    g ∣ b := by
  have hsub := Int.dvd_sub (Dvd.dvd.mul_right ha y) (hm.trans h)
  rwa [show a * y - (a * y - b) = b by ring] at hsub

/-! ## The least solution -/

variable {ring : ResidueRing}

theorem modulus_pos (h : ring.Valid) : (0 : Int) < ring.modulus := by
  exact_mod_cast h.1

theorem emod_bounds (h : ring.Valid) (a : Int) :
    0 ≤ a % ring.modulus ∧ a % ring.modulus < ring.modulus :=
  (residue_bounds h a).imp_right And.left

theorem gcd_and_step (h : ring.Valid) (a : Int) :
    (0 : Int) < Int.gcd a ring.modulus ∧ (0 : Int) < ring.modulus / Int.gcd a ring.modulus ∧
      (Int.gcd a ring.modulus : Int) * (ring.modulus / Int.gcd a ring.modulus) =
        ring.modulus ∧ (ring.modulus : Int) ≤ Word.greatest := by
  have hpos := modulus_pos h
  have hgcd := Int.gcd_pos_of_ne_zero_right a (Int.ne_of_gt hpos)
  have hle := Int.gcd_le_right a hpos
  exact ⟨by omega, Int.ediv_pos_of_pos_of_dvd hpos (by omega) (Int.gcd_dvd_right _ _),
    Int.mul_ediv_cancel' (Int.gcd_dvd_right _ _), h.2⟩

theorem gcd_residue (h : ring.Valid) (a : Int) :
    Euclid.gcd (a % ring.modulus) ring.word = .ok (Int.gcd a ring.modulus : Int) := by
  have ha := residue_bounds h a
  have hgreatest : Word.greatest = 0x7fffffffffffffff := rfl
  rw [word_of_valid h, Euclid.gcd_of_nonneg ha.1 (by omega) (by omega) (by omega),
    Euclid.gcd_emod_left]

theorem rem_residue (h : ring.Valid) (a b : Int) :
    Word.rem (b % ring.modulus) (Int.gcd a ring.modulus) =
      .ok (b % Int.gcd a ring.modulus) := by
  obtain ⟨hgcd, -⟩ := gcd_and_step h a
  rw [Word.rem_of_pos hgcd, Int.tmod_eq_emod_of_nonneg (residue_bounds h b).1,
    Int.emod_emod_of_dvd _ (Int.gcd_dvd_right _ _)]

theorem gcd_dvd_residue_iff (ring : ResidueRing) (a b : Int) :
    (Int.gcd a ring.modulus : Int) ∣ b % ring.modulus ↔ (Int.gcd a ring.modulus : Int) ∣ b :=
  EuclideanDomain.dvd_mod_iff (Int.gcd_dvd_right _ _)

theorem leastSolution?_of_not_dvd (h : ring.Valid) {a b : Int}
    (hdvd : ¬(Int.gcd a ring.modulus : Int) ∣ b) : ring.leastSolution? a b = .ok none := by
  have hone : ¬(Int.gcd a ring.modulus : Int) = 1 := by
    intro hone
    rw [hone] at hdvd
    exact hdvd (Int.one_dvd b)
  have hrem : b % (Int.gcd a ring.modulus : Int) ≠ 0 :=
    fun hzero => hdvd (Int.dvd_of_emod_eq_zero hzero)
  unfold leastSolution?
  rw [residue_of_valid h, residue_of_valid h, Checked.ok_bind, Checked.ok_bind,
    gcd_residue h, Checked.ok_bind, if_neg hone, rem_residue h, Checked.ok_bind, if_pos hrem]
  rfl

private theorem inverse?_reduced (h : ring.Valid) (a : Int) :
    ∃ x, Euclid.inverse? (a % ring.modulus / Int.gcd a ring.modulus)
        (ring.modulus / Int.gcd a ring.modulus) = .ok (some x) ∧
      0 ≤ x ∧ x < ring.modulus / Int.gcd a ring.modulus ∧
      (ring.modulus / Int.gcd a ring.modulus : Int) ∣
        a % ring.modulus / Int.gcd a ring.modulus * x - 1 := by
  obtain ⟨hgcd, hstep, hsplit, hle⟩ := gcd_and_step h a
  have hself := Euclid.gcd_emod_left a ring.modulus
  apply Euclid.inverse?_of_coprime hstep
  · exact (Int.ediv_le_self _ (by omega)).trans hle
  · rw [← hself] at hgcd ⊢
    exact Int.gcd_ediv_gcd_ediv_gcd (by omega)

private theorem leastSolution?_of_unit (h : ring.Valid) {a : Int} (b : Int)
    (hone : (Int.gcd a ring.modulus : Int) = 1) :
    ∃ x, ring.leastSolution? a b = .ok (some x) ∧ 0 ≤ x ∧
      x < ring.modulus / Int.gcd a ring.modulus ∧ (ring.modulus : Int) ∣ a * x - b := by
  obtain ⟨x, hinverse, -, -, hx⟩ := inverse?_reduced h a
  rw [hone, Int.ediv_one, Int.ediv_one] at hinverse hx
  have hbounds := residue_bounds h (x * (b % ring.modulus))
  refine ⟨x * (b % ring.modulus) % ring.modulus, ?_, hbounds.1,
    by rw [hone, Int.ediv_one]; exact hbounds.2.1, ?_⟩
  · rw [leastSolution?, residue_of_valid h, residue_of_valid h, Checked.ok_bind, Checked.ok_bind,
      gcd_residue h, Checked.ok_bind, if_pos hone, word_of_valid h, hinverse, Checked.ok_bind]
    simp only [mul_of_valid h, Checked.ok_bind]
    rfl
  · apply dvd_mul_sub_of_residues
    exact dvd_mul_sub_of_inverse hx Int.dvd_emod_sub_self

/-- The residue of a product of two words, as it is computed at double width. -/
private theorem wideProduct_ok {x y step : Int} (hx : 0 ≤ x ∧ x ≤ Word.greatest)
    (hy : 0 ≤ y ∧ y ≤ Word.greatest) (hstep : 0 < step ∧ step ≤ Word.greatest) :
    Word.wide (x * y) = .ok (x * y) ∧ Word.wideRem (x * y) step = .ok (x * y % step) ∧
      Word.wrap (x * y % step) = x * y % step := by
  have hgreatest : Word.greatest = 0x7fffffffffffffff := rfl
  have hproduct : x * y ≤ 0x8000000000000000 * 0x8000000000000000 :=
    Int.mul_le_mul (by omega) (by omega) hy.1 (by omega)
  have hnonneg : 0 ≤ x * y := Int.mul_nonneg hx.1 hy.1
  have hlt := Int.emod_lt_of_pos (x * y) hstep.1
  have hge := Int.emod_nonneg (x * y) (Int.ne_of_gt hstep.1)
  refine ⟨?_, ?_, Word.wrap_of_fits (Word.fits_iff.2 (by omega))⟩
  · unfold Word.wide
    rw [if_pos ⟨by rw [Word.leastWide]; omega, by rw [Word.greatestWide]; omega⟩]
    rfl
  · rw [Word.wideRem_of_pos hstep.1, Int.tmod_eq_emod_of_nonneg hnonneg]

theorem dvd_mul_sub_of_divided {a b g m x : Int} (ha : g ∣ a) (hb : g ∣ b)
    (hm : g * (m / g) = m) (hx : m / g ∣ a / g * x - 1) :
    m ∣ a * (x * (b / g) % (m / g)) - b := by
  have hdivided : m / g ∣ a / g * (x * (b / g) % (m / g)) - b / g :=
    dvd_mul_sub_of_inverse hx Int.dvd_emod_sub_self
  calc m = g * (m / g) := hm.symm
    _ ∣ g * (a / g * (x * (b / g) % (m / g)) - b / g) := Int.mul_dvd_mul_left g hdivided
    _ = g * (a / g) * (x * (b / g) % (m / g)) - g * (b / g) := by ring
    _ = a * (x * (b / g) % (m / g)) - b := by
        rw [Int.mul_ediv_cancel' ha, Int.mul_ediv_cancel' hb]

private theorem leastSolution?_of_zeroDivisor (h : ring.Valid) {a b : Int}
    (hone : ¬(Int.gcd a ring.modulus : Int) = 1) (hdvd : (Int.gcd a ring.modulus : Int) ∣ b) :
    ∃ x, ring.leastSolution? a b = .ok (some x) ∧ 0 ≤ x ∧
      x < ring.modulus / Int.gcd a ring.modulus ∧ (ring.modulus : Int) ∣ a * x - b := by
  obtain ⟨x, hinverse, hge, hlt, hx⟩ := inverse?_reduced h a
  obtain ⟨hgcd, hstep, hsplit, hle⟩ := gcd_and_step h a
  have ha := residue_bounds h a
  have hb := residue_bounds h b
  have hadvd := (gcd_dvd_residue_iff ring a a).2 (Int.gcd_dvd_left _ _)
  have hbdvd := (gcd_dvd_residue_iff ring a b).2 hdvd
  have hstepLe : (ring.modulus / Int.gcd a ring.modulus : Int) ≤ ring.modulus :=
    Int.ediv_le_self _ (by omega)
  have hquotient : 0 ≤ b % ring.modulus / Int.gcd a ring.modulus ∧
      b % ring.modulus / Int.gcd a ring.modulus ≤ Word.greatest := by
    have := Int.ediv_le_self (Int.gcd a ring.modulus : Int) hb.1
    exact ⟨Int.ediv_nonneg hb.1 (by omega), by omega⟩
  obtain ⟨hwide, hrem, hwrap⟩ := wideProduct_ok ⟨hge, by omega⟩ hquotient ⟨hstep, by omega⟩
  refine ⟨_, ?_, Int.emod_nonneg _ (Int.ne_of_gt hstep), Int.emod_lt_of_pos _ hstep,
    dvd_mul_sub_of_residues (dvd_mul_sub_of_divided hadvd hbdvd hsplit hx)⟩
  unfold leastSolution?
  rw [residue_of_valid h, residue_of_valid h, Checked.ok_bind, Checked.ok_bind,
    gcd_residue h, Checked.ok_bind, if_neg hone, rem_residue h, Checked.ok_bind,
    if_neg (not_not.2 (Int.emod_eq_zero_of_dvd hdvd)), word_of_valid h, Word.quot_of_pos hgcd,
    Int.tdiv_eq_ediv_of_nonneg (by omega)]
  simp only [Checked.ok_bind]
  rw [Word.quot_of_pos hgcd, Int.tdiv_eq_ediv_of_nonneg ha.1, Checked.ok_bind, hinverse,
    Checked.ok_bind]
  dsimp only
  rw [Word.quot_of_pos hgcd, Int.tdiv_eq_ediv_of_nonneg hb.1, Checked.ok_bind, hwide,
    Checked.ok_bind, hrem, Checked.ok_bind, hwrap]
  rfl

theorem leastSolution?_of_dvd (h : ring.Valid) {a b : Int}
    (hdvd : (Int.gcd a ring.modulus : Int) ∣ b) :
    ∃ x, ring.leastSolution? a b = .ok (some x) ∧ 0 ≤ x ∧
      x < ring.modulus / Int.gcd a ring.modulus ∧ (ring.modulus : Int) ∣ a * x - b := by
  by_cases hone : (Int.gcd a ring.modulus : Int) = 1
  · exact leastSolution?_of_unit h b hone
  · exact leastSolution?_of_zeroDivisor h hone hdvd

/-! ## All solutions -/

def solutionsFrom (ring : ResidueRing) (a x : Int) : List Int :=
  (List.range (Int.gcd a ring.modulus)).map fun i : Nat =>
    x + ring.modulus / Int.gcd a ring.modulus * i

section Solutions

variable {a b x : Int}

theorem solutionsFrom_lt (h : ring.Valid) (hx : x < ring.modulus / Int.gcd a ring.modulus)
    {i : Nat} (hi : i < Int.gcd a ring.modulus) :
    x + ring.modulus / Int.gcd a ring.modulus * i < ring.modulus := by
  obtain ⟨hgcd, hstep, hsplit, -⟩ := gcd_and_step h a
  have hmul : (ring.modulus / Int.gcd a ring.modulus : Int) * i ≤
      ring.modulus / Int.gcd a ring.modulus * (Int.gcd a ring.modulus - 1) :=
    Int.mul_le_mul_of_nonneg_left (by omega) (by omega)
  have hexpand : (ring.modulus / Int.gcd a ring.modulus : Int) * (Int.gcd a ring.modulus - 1) =
      ring.modulus - ring.modulus / Int.gcd a ring.modulus := by
    rw [Int.mul_sub, Int.mul_comm, hsplit, Int.mul_one]
  omega

theorem pairwise_solutionsFrom (h : ring.Valid) :
    (ring.solutionsFrom a x).Pairwise (· < ·) := by
  obtain ⟨-, hstep, -, -⟩ := gcd_and_step h a
  rw [solutionsFrom, List.pairwise_map]
  apply List.pairwise_lt_range.imp
  intro i j hlt
  have := Int.mul_lt_mul_of_pos_left (by exact_mod_cast hlt : (i : Int) < j) hstep
  omega

theorem mem_solutionsFrom (h : ring.Valid) (hge : 0 ≤ x)
    (hlt : x < ring.modulus / Int.gcd a ring.modulus) (hx : (ring.modulus : Int) ∣ a * x - b)
    (y : Int) :
    y ∈ ring.solutionsFrom a x ↔
      0 ≤ y ∧ y < ring.modulus ∧ (ring.modulus : Int) ∣ a * y - b := by
  have hpos := modulus_pos h
  obtain ⟨hgcd, hstep, hsplit, -⟩ := gcd_and_step h a
  have hshift (d : Int) : (ring.modulus : Int) ∣ a * (x + d) - b ↔
      (ring.modulus / Int.gcd a ring.modulus : Int) ∣ d := by
    rw [← dvd_mul_iff_div_gcd_dvd hpos, show a * (x + d) - b = a * d + (a * x - b) by ring]
    exact Int.dvd_add_left hx
  simp only [solutionsFrom, List.mem_map, List.mem_range]
  constructor
  · rintro ⟨i, hi, rfl⟩
    have hbound := solutionsFrom_lt h hlt hi
    have hnonneg : 0 ≤ (ring.modulus / Int.gcd a ring.modulus : Int) * i :=
      Int.mul_nonneg (by omega) (by omega)
    exact ⟨by omega, hbound, (hshift _).2 (Int.dvd_mul_right _ _)⟩
  · rintro ⟨hyge, hylt, hy⟩
    rw [show y = x + (y - x) by ring, hshift] at hy
    obtain ⟨i, hi⟩ := hy
    set step := (ring.modulus : Int) / Int.gcd a ring.modulus
    -- A negative index would lead below the least solution, one of `gcd` beyond the modulus.
    have hilow : 0 ≤ i := by
      by_contra hneg
      have := Int.mul_le_mul_of_nonneg_left (by omega : i ≤ -1) (by omega : 0 ≤ step)
      omega
    have hihigh : i < Int.gcd a ring.modulus := by
      by_contra hbig
      have := Int.mul_le_mul_of_nonneg_left (by omega : (Int.gcd a ring.modulus : Int) ≤ i)
        (by omega : 0 ≤ step)
      rw [Int.mul_comm, hsplit] at this
      omega
    refine ⟨i.toNat, by omega, ?_⟩
    rw [Int.toNat_of_nonneg hilow]
    omega

theorem solutions_of_leastSolution? (h : ring.Valid)
    (hleast : ring.leastSolution? a b = .ok (some x)) (hge : 0 ≤ x)
    (hlt : x < ring.modulus / Int.gcd a ring.modulus) :
    ring.solutions a b = .ok (ring.solutionsFrom a x) := by
  obtain ⟨hgcd, hstep, hsplit, hle⟩ := gcd_and_step h a
  have hgreatest : Word.greatest = 0x7fffffffffffffff := rfl
  unfold solutions
  rw [hleast, Checked.ok_bind]
  simp only
  rw [commonDivisor_of_valid h, Checked.ok_bind, word_of_valid h, Word.quot_of_pos hgcd,
    Int.tdiv_eq_ediv_of_nonneg (by omega), Checked.ok_bind, Int.toNat_natCast]
  apply Checked.mapM_eq_ok_map
  intro i hi
  have hbound := solutionsFrom_lt h hlt (List.mem_range.1 hi)
  have hnonneg : 0 ≤ (ring.modulus / Int.gcd a ring.modulus : Int) * i :=
    Int.mul_nonneg (by omega) (by omega)
  have hmul : Word.mul (ring.modulus / Int.gcd a ring.modulus) i =
      .ok (ring.modulus / Int.gcd a ring.modulus * i) :=
    Word.checked_of_fits (Word.fits_iff.2 (by omega))
  rw [hmul, Checked.ok_bind]
  exact Word.checked_of_fits (Word.fits_iff.2 (by omega))

end Solutions

theorem solutions_of_valid (h : ring.Valid) (a b : Int) :
    ∃ xs, ring.solutions a b = .ok xs ∧ xs.Pairwise (· < ·) ∧
      (∀ y, y ∈ xs ↔ 0 ≤ y ∧ y < ring.modulus ∧ (ring.modulus : Int) ∣ a * y - b) ∧
      xs.length = if (Int.gcd a ring.modulus : Int) ∣ b then Int.gcd a ring.modulus else 0 := by
  by_cases hdvd : (Int.gcd a ring.modulus : Int) ∣ b
  · obtain ⟨x, hleast, hge, hlt, hx⟩ := leastSolution?_of_dvd h hdvd
    refine ⟨_, solutions_of_leastSolution? h hleast hge hlt, pairwise_solutionsFrom h,
      mem_solutionsFrom h hge hlt hx, ?_⟩
    rw [if_pos hdvd, solutionsFrom, List.length_map, List.length_range]
  · refine ⟨[], ?_, .nil, ?_, by rw [if_neg hdvd]; rfl⟩
    · rw [solutions, leastSolution?_of_not_dvd h hdvd]
      rfl
    · intro y
      constructor
      · intro hy
        cases hy
      · rintro ⟨-, -, hy⟩
        exact absurd (dvd_of_dvd_mul_sub (Int.gcd_dvd_left _ _) (Int.gcd_dvd_right _ _) hy) hdvd

/-! ## What is found -/

theorem le_of_dvd_mul_sub {a b m x y : Int} (hm : 0 < m) (hx : m ∣ a * x - b)
    (hlt : x < m / Int.gcd a m) (hy : 0 ≤ y) (hdvd : m ∣ a * y - b) : x ≤ y := by
  by_contra hbefore
  have hdiff : m ∣ a * (x - y) := by
    rw [show a * (x - y) = (a * x - b) - (a * y - b) by ring]
    exact Int.dvd_sub hx hdvd
  have hstep := Int.le_of_dvd (by omega) ((dvd_mul_iff_div_gcd_dvd hm _).1 hdiff)
  omega

/-- The congruence has a solution exactly where the gcd of `a` and the modulus divides `b`. -/
theorem exists_dvd_mul_sub_iff (h : ring.Valid) (a b : Int) :
    (∃ x, (ring.modulus : Int) ∣ a * x - b) ↔ (Int.gcd a ring.modulus : Int) ∣ b := by
  constructor
  · rintro ⟨x, hx⟩
    exact dvd_of_dvd_mul_sub (Int.gcd_dvd_left _ _) (Int.gcd_dvd_right _ _) hx
  · intro hdvd
    obtain ⟨x, -, -, -, hx⟩ := leastSolution?_of_dvd h hdvd
    exact ⟨x, hx⟩

/-- Nothing is found exactly where the congruence has no solution. What is found is the least
solution, and lies within the first step; the inverse that it is made of always exists. -/
theorem leastSolution_isLeast (ring : ResidueRing) (a b : Int) (h : ring.Valid) :
    ∃ found, ring.leastSolution? a b = .ok found ∧
      (found = none ↔ ¬∃ x : Int, (ring.modulus : Int) ∣ a * x - b) ∧
      (found = none ↔
        ¬(Int.gcd (a % ring.modulus) ring.modulus : Int) ∣ b % ring.modulus) ∧
      (∀ x, found = some x →
        IsLeast {y : Int | 0 ≤ y ∧ (ring.modulus : Int) ∣ a * y - b} x ∧
          x < ring.modulus / Int.gcd (a % ring.modulus) ring.modulus) ∧
      ∃ x, Euclid.inverse? (a % ring.modulus / Int.gcd (a % ring.modulus) ring.modulus)
        (ring.modulus / Int.gcd (a % ring.modulus) ring.modulus) = .ok (some x) := by
  rw [exists_dvd_mul_sub_iff h, Euclid.gcd_emod_left, gcd_dvd_residue_iff]
  obtain ⟨inverse, hinverse, -⟩ := inverse?_reduced h a
  by_cases hdvd : (Int.gcd a ring.modulus : Int) ∣ b
  · obtain ⟨x, hleast, hge, hlt, hx⟩ := leastSolution?_of_dvd h hdvd
    refine ⟨some x, hleast, by simp [hdvd], by simp [hdvd], ?_, inverse, hinverse⟩
    rintro _ ⟨⟩
    refine ⟨⟨⟨hge, hx⟩, ?_⟩, hlt⟩
    rintro y ⟨hy, hydvd⟩
    exact le_of_dvd_mul_sub (modulus_pos h) hx hlt hy hydvd
  · exact ⟨none, leastSolution?_of_not_dvd h hdvd, by simp [hdvd], by simp [hdvd], by simp,
      inverse, hinverse⟩

theorem leastSolution_isLeast_mod_twelve :
    leastSolution? ⟨12⟩ 4 8 = .ok (some 2) ∧ leastSolution? ⟨12⟩ 4 6 = .ok none := by
  have hvalid : (⟨12⟩ : ResidueRing).Valid := by decide
  constructor
  · obtain ⟨found, hfound, -, hnone, hsome, -⟩ := leastSolution_isLeast ⟨12⟩ 4 8 hvalid
    cases found with
    | none => exact absurd (by decide) (hnone.1 rfl)
    | some x =>
        obtain ⟨⟨hge, hdvd⟩, hleast⟩ := (hsome x rfl).1
        have hle : x ≤ 2 := hleast ⟨by decide, by decide⟩
        obtain rfl : x = 2 := by
          dsimp only at hdvd
          omega
        exact hfound
  · obtain ⟨found, hfound, -, hnone, -⟩ := leastSolution_isLeast ⟨12⟩ 4 6 hvalid
    obtain rfl := hnone.2 (by decide)
    exact hfound

/-- The list of solutions holds every one of them, in ascending order; their number is a gcd. -/
theorem solutions_complete (ring : ResidueRing) (a b : Int) (h : ring.Valid) :
    ∃ xs, ring.solutions a b = .ok xs ∧ xs.Pairwise (· < ·) ∧
      (∀ x, x ∈ xs ↔ 0 ≤ x ∧ x < ring.modulus ∧ (ring.modulus : Int) ∣ a * x - b) ∧
      xs.length =
        if (Int.gcd (a % ring.modulus) ring.modulus : Int) ∣ b % ring.modulus then
          Int.gcd (a % ring.modulus) ring.modulus
        else 0 := by
  simp only [Euclid.gcd_emod_left, gcd_dvd_residue_iff]
  exact solutions_of_valid h a b

theorem solutions_complete_mod_greatest :
    ∃ xs, solutions ⟨0x7fffffffffffffff⟩ (-7) 14 = .ok xs ∧ xs.length = 7 ∧
      0x7ffffffffffffffd ∈ xs := by
  obtain ⟨xs, hxs, -, hmem, hlength⟩ :=
    solutions_complete ⟨0x7fffffffffffffff⟩ (-7) 14 (by decide)
  exact ⟨xs, hxs, hlength.trans (by decide), (hmem _).2 (by decide)⟩

end LinearCongruence.ResidueRing
