import LinearCongruence.Proofs.ResidueRing.Linear
import LinearCongruence.ResidueRing.Progression
import Mathlib.Data.Nat.PrimeFin
import Mathlib.Algebra.BigOperators.Associated
import Mathlib.RingTheory.Int.Basic
import Mathlib.Tactic.LinearCombination
/-!
# The least gcd along a progression

Some `a + c * b` has no more in common with the modulus than `a`, `b` and the modulus have
together, and some `c` within the first period reaches it. A scan returns the first least gcd
of its range. Main facts:

* `exists_gcd_add_mul` : the gcd of `a`, `b` and the modulus is reached;
* `scan_ok` : a scan is exact, also where it ends early;
* `leastCombination_uncapped` : the search for a least combination misses none;
* `fullCombination_of_valid` : the scan over a whole period reaches that gcd.
-/

namespace LinearCongruence.ResidueRing

/-! ## What a progression can reach -/

/-- The product of the primes of `m` that do not divide `a` is a multiplier for coprime
operands. -/
theorem exists_coprime_add_mul {a b m : Int} (hm : 0 < m) (h : Int.gcd a b = 1) :
    ∃ c : Nat, Int.gcd (a + c * b) m = 1 := by
  let primes := m.natAbs.primeFactors.filter fun p : Nat => ¬(p : Int) ∣ a
  refine ⟨primes.prod id, ?_⟩
  apply Nat.coprime_of_dvd
  intro p hp hsum hpm
  rw [← Int.natCast_dvd] at hsum
  by_cases hpa : (p : Int) ∣ a
  · have hproduct : (p : Int) ∣ (primes.prod id : Nat) * b := (Int.dvd_add_right hpa).1 hsum
    rcases (Nat.prime_iff_prime_int.1 hp).dvd_or_dvd hproduct with hpc | hpb
    · obtain ⟨q, hq, hpq⟩ := (hp.prime.dvd_finsetProd_iff id).1 (Int.natCast_dvd_natCast.1 hpc)
      rw [Finset.mem_filter, Nat.mem_primeFactors] at hq
      rw [id, Nat.prime_dvd_prime_iff_eq hp hq.1.1] at hpq
      exact hq.2 (hpq ▸ hpa)
    · have hone := Int.dvd_coe_gcd hpa hpb
      rw [h] at hone
      exact hp.one_lt.ne' (Nat.dvd_one.1 (Int.natCast_dvd_natCast.1 hone))
  · have hmem : p ∈ primes :=
      Finset.mem_filter.2 ⟨Nat.mem_primeFactors.2 ⟨hp, hpm, by omega⟩, hpa⟩
    have hpc : (p : Int) ∣ (primes.prod id : Nat) :=
      Int.natCast_dvd_natCast.2 (Finset.dvd_prod_of_mem id hmem)
    exact hpa ((Int.dvd_add_left (Dvd.dvd.mul_right hpc b)).1 hsum)

theorem exists_gcd_add_mul (a b : Int) {m : Int} (hm : 0 < m) :
    ∃ c : Nat, Int.gcd (a + c * b) m = Int.gcd (Int.gcd a b) m := by
  by_cases hzero : Int.gcd a b = 0
  · obtain ⟨ha, hb⟩ := Int.gcd_eq_zero_iff.1 hzero
    exact ⟨0, by simp [ha, hb]⟩
  · obtain ⟨a', b', hcoprime, ha, hb⟩ := Int.exists_gcd_one (Nat.pos_of_ne_zero hzero)
    obtain ⟨c, hc⟩ := exists_coprime_add_mul hm hcoprime
    refine ⟨c, ?_⟩
    have hsplit : a + c * b = (a' + c * b') * Int.gcd a b := by
      linear_combination ha + c * hb
    rw [hsplit, Int.gcd_mul_right_left_of_gcd_eq_one hc]

theorem gcd_add_mul_mod (a b : Int) {m : Int} (hm : 0 < m) (c : Nat) :
    Int.gcd (a + (c % (m / Int.gcd b m).toNat : Nat) * b) m = Int.gcd (a + c * b) m := by
  set period := (m / Int.gcd b m).toNat
  have hcast : (period : Int) = m / Int.gcd b m :=
    Int.toNat_of_nonneg (Int.ediv_nonneg (by omega) (by omega))
  have hperiod : m ∣ b * period := by
    rw [dvd_mul_iff_div_gcd_dvd hm, hcast]
  obtain ⟨k, hk⟩ := hperiod
  have hsplit : (c : Int) = (c % period : Nat) + period * (c / period : Nat) := by
    exact_mod_cast (Nat.mod_add_div c period).symm
  have hsum : a + c * b = a + (c % period : Nat) * b + m * (k * (c / period : Nat)) := by
    conv_lhs => rw [hsplit]
    linear_combination ((c / period : Nat) : Int) * hk
  rw [hsum, Int.gcd_add_mul_left_left]

theorem gcd_dvd_gcd_add_mul (a b m c : Int) :
    Int.gcd (Int.gcd a b) m ∣ Int.gcd (a + c * b) m := by
  have hgcd : (Int.gcd (Int.gcd a b) m : Int) ∣ Int.gcd a b := Int.gcd_dvd_left _ _
  apply Int.dvd_gcd
  · exact Int.dvd_add (hgcd.trans (Int.gcd_dvd_left _ _))
      (Dvd.dvd.mul_left (hgcd.trans (Int.gcd_dvd_right _ _)) c)
  · exact Int.gcd_dvd_right _ _

/-! ## Scans -/

variable {ring : ResidueRing}

theorem gcdAt_of_valid (h : ring.Valid) (a b : Int) (c : Nat) :
    ring.gcdAt a b c = .ok (Int.gcd (a + c * b) ring.modulus : Int) := by
  unfold gcdAt
  rw [mul_of_valid h, Checked.ok_bind, add_of_valid h, Checked.ok_bind,
    commonDivisor_of_valid h, Int.add_emod_emod, Euclid.gcd_emod_left]

/-- Of `best` and the multipliers from `low` up to `high`, `found` is the first of least gcd
with the modulus. -/
structure IsFirstLeast (ring : ResidueRing) (a b : Int) (low high : Nat)
    (best found : Combination) : Prop where
  le_best : found.gcd ≤ best.gcd
  le : ∀ c : Nat, low ≤ c → c < high → found.gcd ≤ Int.gcd (a + c * b) ring.modulus
  eq_or_lt : found = best ∨
    low ≤ found.multiplier ∧ found.multiplier < high ∧ found.gcd < best.gcd ∧
      found.gcd = Int.gcd (a + found.multiplier * b) ring.modulus ∧
      ∀ c : Nat, low ≤ c → c < found.multiplier →
        found.gcd < Int.gcd (a + c * b) ring.modulus

/-- Of the multipliers below `count` that of `found` is the first whose residue `a + c * b` has
the least gcd with the modulus. -/
structure IsLeastBelow (ring : ResidueRing) (a b count : Int) (found : Combination) : Prop where
  lt : found.multiplier < count
  gcd_eq : found.gcd =
    Int.gcd ((a + found.multiplier * b) % ring.modulus) ring.modulus
  le : ∀ c : Nat, c < count →
    found.gcd ≤ Int.gcd ((a + c * b) % ring.modulus) ring.modulus
  first : ∀ c : Nat, c < found.multiplier →
    found.gcd < Int.gcd ((a + c * b) % ring.modulus) ring.modulus

section Scan

variable {a b : Int} {low high : Nat} {best found : Combination}

def improve (ring : ResidueRing) (a b : Int) (c : Nat) (best : Combination) : Combination :=
  if (Int.gcd (a + c * b) ring.modulus : Int) < best.gcd then
    ⟨Int.gcd (a + c * b) ring.modulus, c⟩
  else best

theorem improve_le (ring : ResidueRing) (a b : Int) (low : Nat) (best : Combination) :
    (ring.improve a b low best).gcd ≤ best.gcd ∧
      (ring.improve a b low best).gcd ≤ Int.gcd (a + low * b) ring.modulus := by
  rw [improve]
  split
  · rename_i hlt
    exact ⟨Int.le_of_lt hlt, Int.le_refl _⟩
  · rename_i hge
    exact ⟨Int.le_refl _, by omega⟩

theorem IsFirstLeast.of_improve
    (h : ring.IsFirstLeast a b (low + 1) high (ring.improve a b low best) found)
    (hlow : low < high) : ring.IsFirstLeast a b low high best found := by
  obtain ⟨hbest, hle⟩ := improve_le ring a b low best
  have hall : ∀ c : Nat, low ≤ c → c < high →
      found.gcd ≤ Int.gcd (a + c * b) ring.modulus := by
    intro c hc hlt
    by_cases heq : c = low
    · rw [heq]
      exact h.le_best.trans hle
    · exact h.le c (by omega) hlt
  refine ⟨h.le_best.trans hbest, hall, ?_⟩
  rcases h.eq_or_lt with heq | ⟨hge, hlt, hgcd, hval, hfirst⟩
  · rw [improve] at heq
    split at heq
    · rename_i himproved
      refine .inr ⟨by rw [heq], by rw [heq]; exact hlow, by rw [heq]; exact himproved,
        by rw [heq], ?_⟩
      intro c hc hclt
      rw [heq] at hclt
      exact absurd hclt (by simp only; omega)
    · exact .inl heq
  · refine .inr ⟨by omega, hlt, by omega, hval, ?_⟩
    intro c hc hclt
    by_cases heq : c = low
    · rw [heq]
      exact hgcd.trans_le hle
    · exact hfirst c (by omega) hclt

/-- A scan that reaches a lower bound of all gcds may end there. -/
theorem isFirstLeast_improve {target : Int} (hlow : low < high)
    (htarget : ∀ c : Nat, target ≤ Int.gcd (a + c * b) ring.modulus)
    (hreached : (Int.gcd (a + low * b) ring.modulus : Int) = target) :
    ring.IsFirstLeast a b low high best (ring.improve a b low best) := by
  apply IsFirstLeast.of_improve _ hlow
  refine ⟨Int.le_refl _, ?_, .inl rfl⟩
  intro c _ _
  exact (improve_le ring a b low best).2.trans (hreached ▸ htarget c)

theorem scan_ok (h : ring.Valid) {target : Int} (count low : Nat) (best : Combination)
    (htarget : ∀ c : Nat, target ≤ Int.gcd (a + c * b) ring.modulus) :
    ∃ found, ring.scan a b target count low best = .ok found ∧
      ring.IsFirstLeast a b low (low + count) best found := by
  induction count generalizing low best with
  | zero =>
      exact ⟨best, rfl, Int.le_refl _, fun c hc hlt => absurd hlt (by omega), .inl rfl⟩
  | succ count ih =>
      unfold scan
      rw [gcdAt_of_valid h, Checked.ok_bind]
      dsimp only
      rw [← improve]
      split
      · rename_i hreached
        exact ⟨_, rfl, isFirstLeast_improve (by omega) htarget hreached⟩
      · obtain ⟨found, hscan, hfound⟩ := ih (low + 1) (ring.improve a b low best)
        rw [show low + 1 + count = low + (count + 1) by omega] at hfound
        exact ⟨found, hscan, hfound.of_improve (by omega)⟩

theorem IsLeastBelow.of_gcd (hlt : found.multiplier < high)
    (hgcd : found.gcd = Int.gcd (a + found.multiplier * b) ring.modulus)
    (hle : ∀ c : Nat, c < high → found.gcd ≤ Int.gcd (a + c * b) ring.modulus)
    (hfirst : ∀ c : Nat, c < found.multiplier →
      found.gcd < Int.gcd (a + c * b) ring.modulus) : ring.IsLeastBelow a b high found := by
  refine ⟨by omega, ?_, ?_, ?_⟩
  · rwa [Euclid.gcd_emod_left]
  · intro c hc
    rw [Euclid.gcd_emod_left]
    exact hle c (by omega)
  · intro c hc
    rw [Euclid.gcd_emod_left]
    exact hfirst c hc

/-- A scan behind the multiplier zero, with the gcd of `a` itself as the best so far, finds
the first of least gcd among all multipliers. -/
theorem IsFirstLeast.from_zero
    (h : ring.IsFirstLeast a b 1 high ⟨Int.gcd a ring.modulus, 0⟩ found) (hhigh : 0 < high) :
    ring.IsLeastBelow a b high found := by
  have hle (c : Nat) (hc : c < high) : found.gcd ≤ Int.gcd (a + c * b) ring.modulus := by
    by_cases hzero : c = 0
    · have hbest := h.le_best
      simpa [hzero] using hbest
    · exact h.le c (by omega) hc
  rcases h.eq_or_lt with heq | ⟨-, hlt, hbest, hval, hfirst⟩
  · refine .of_gcd (by rw [heq]; exact hhigh) (by simp [heq]) hle ?_
    intro c hc
    rw [heq] at hc
    exact absurd hc (Nat.not_lt_zero c)
  · refine .of_gcd hlt hval hle ?_
    intro c hc
    by_cases hzero : c = 0
    · simpa [hzero] using hbest
    · exact hfirst c (by omega) hc

/-- The gcds repeat, so that a scan of one period is a scan of any range. -/
theorem IsFirstLeast.uncap (hpos : (0 : Int) < ring.modulus) {count : Int}
    (h : ring.IsFirstLeast a b 0 high best found)
    (hhigh : min count (ring.modulus / Int.gcd b ring.modulus) ≤ high)
    (hle : high ≤ count.toNat) :
    ring.IsFirstLeast a b 0 count.toNat best found := by
  refine ⟨h.le_best, ?_, ?_⟩
  · intro c _ hc
    have hgcd := Int.gcd_pos_of_ne_zero_right b (Int.ne_of_gt hpos)
    have hperiod := Int.ediv_pos_of_pos_of_dvd hpos (by omega) (Int.gcd_dvd_right b ring.modulus)
    have hmod := Nat.mod_lt c (y := (ring.modulus / Int.gcd b ring.modulus : Int).toNat) (by omega)
    have hle := Nat.mod_le c (ring.modulus / Int.gcd b ring.modulus : Int).toNat
    rw [← gcd_add_mul_mod a b hpos]
    exact h.le _ (Nat.zero_le _) (by omega)
  · exact h.eq_or_lt.imp_right fun ⟨hge, hlt, hrest⟩ => ⟨hge, by omega, hrest⟩

theorem IsLeastBelow.unique {count : Int} {found other : Combination}
    (h : ring.IsLeastBelow a b count found) (hother : ring.IsLeastBelow a b count other) :
    found = other := by
  have hle := h.le other.multiplier hother.lt
  have hge := hother.le found.multiplier h.lt
  rw [← hother.gcd_eq] at hle
  rw [← h.gcd_eq] at hge
  have hgcd : found.gcd = other.gcd := Int.le_antisymm hle hge
  have hmultiplier : found.multiplier = other.multiplier := by
    rcases Nat.lt_trichotomy found.multiplier other.multiplier with hlt | heq | hlt
    · have := hother.first found.multiplier hlt
      rw [← h.gcd_eq] at this
      omega
    · exact heq
    · have := h.first other.multiplier hlt
      rw [← hother.gcd_eq] at this
      omega
  cases found
  cases other
  rw [Combination.mk.injEq]
  exact ⟨hgcd, hmultiplier⟩

theorem IsFirstLeast.isLeastBelow (ha : 0 < a) (halt : a < ring.modulus) {count : Int}
    (hcount : 0 < count)
    (h : ring.IsFirstLeast a b 0 count.toNat ⟨ring.modulus, 0⟩ found) :
    found.gcd < ring.modulus ∧ ring.IsLeastBelow a b count found := by
  have hself : found.gcd ≤ Int.gcd a ring.modulus := by
    simpa using h.le 0 (Nat.le_refl 0) (by omega)
  have hlt : found.gcd < ring.modulus := by
    have := Int.gcd_le_left (b := ring.modulus) ha
    omega
  have hne : found ≠ ⟨ring.modulus, 0⟩ := by
    rintro rfl
    exact Int.lt_irrefl _ hlt
  obtain ⟨-, hbound, -, hgcd, hfirst⟩ := h.eq_or_lt.resolve_left hne
  rw [← Int.toNat_of_nonneg (Int.le_of_lt hcount)]
  exact ⟨hlt, .of_gcd hbound hgcd (fun c => h.le c (Nat.zero_le c))
    fun c => hfirst c (Nat.zero_le c)⟩

end Scan

theorem period_of_valid (h : ring.Valid) (b : Int) :
    ring.period b = .ok (ring.modulus / Int.gcd b ring.modulus) := by
  obtain ⟨hgcd, -⟩ := gcd_and_step h b
  unfold period
  rw [commonDivisor_of_valid h, Checked.ok_bind, word_of_valid h, Word.quot_of_pos hgcd,
    Int.tdiv_eq_ediv_of_nonneg (by omega)]

theorem gcd_residues (h : ring.Valid) (a b : Int) :
    Euclid.gcd (a % ring.modulus) (b % ring.modulus) =
      .ok (Int.gcd (a % ring.modulus) (b % ring.modulus) : Int) := by
  have ha := residue_bounds h a
  have hb := residue_bounds h b
  have hgreatest : Word.greatest = 0x7fffffffffffffff := rfl
  exact Euclid.gcd_of_nonneg ha.1 hb.1 (by omega) (by omega)

theorem one_le_gcd (h : ring.Valid) (x : Int) : (1 : Int) ≤ Int.gcd x ring.modulus := by
  have := (gcd_and_step h x).1
  omega

/-! ## The two combinations -/

theorem leastCombination?_of_valid (h : ring.Valid) {a b : Int}
    (hne : Int.gcd (a % ring.modulus) (b % ring.modulus) ≠ 0) :
    ∃ best : Combination, ring.leastCombination? a b =
        .ok (if best.gcd < ring.modulus then some best else none) ∧
      ring.IsFirstLeast (a % ring.modulus) (b % ring.modulus) 0
        (a % ring.modulus / Int.gcd (a % ring.modulus) (b % ring.modulus)).toNat
        ⟨ring.modulus, 0⟩ best := by
  obtain ⟨best, hscan, hbest⟩ := scan_ok h
    (min (a % ring.modulus / Int.gcd (a % ring.modulus) (b % ring.modulus))
      (ring.modulus / Int.gcd (b % ring.modulus) ring.modulus)).toNat 0 ⟨ring.modulus, 0⟩
    fun c => one_le_gcd h _
  rw [Nat.zero_add] at hbest
  refine ⟨best, ?_, hbest.uncap (modulus_pos h) (by omega) (by omega)⟩
  unfold leastCombination?
  rw [residue_of_valid h, residue_of_valid h, Checked.ok_bind, Checked.ok_bind, gcd_residues h,
    Checked.ok_bind, if_neg (by omega), Word.quot_of_pos (by omega),
    Int.tdiv_eq_ediv_of_nonneg (emod_bounds h a).1, Checked.ok_bind, period_of_valid h,
    Checked.ok_bind]
  dsimp only
  rw [word_of_valid h, hscan]
  rfl

theorem leastCombination?_of_zeros (h : ring.Valid) {a b : Int}
    (hzero : Int.gcd (a % ring.modulus) (b % ring.modulus) = 0) :
    ring.leastCombination? a b = .ok none := by
  unfold leastCombination?
  rw [residue_of_valid h, residue_of_valid h, Checked.ok_bind, Checked.ok_bind, gcd_residues h,
    Checked.ok_bind, hzero]
  rfl

theorem leastCombination?_of_residue_eq_zero (h : ring.Valid) {a : Int} (b : Int)
    (hzero : a % ring.modulus = 0) : ring.leastCombination? a b = .ok none := by
  by_cases hcommon : Int.gcd (a % ring.modulus) (b % ring.modulus) = 0
  · exact leastCombination?_of_zeros h hcommon
  · obtain ⟨best, hbest, hfound⟩ := leastCombination?_of_valid h hcommon
    rw [hzero, Int.zero_ediv] at hfound
    -- No multiplier lies below `a / gcd(a, b)`, so that the modulus stays the best.
    rcases hfound.eq_or_lt with rfl | ⟨-, hlt, -⟩
    · rw [hbest, if_neg (Int.lt_irrefl _)]
    · exact absurd hlt (Nat.not_lt_zero _)

/-- The search for a least combination finds none exactly where `a` vanishes. What it finds is
the first least one of all multipliers below `a / gcd(a, b)`: it makes no difference whether the
scan goes through all of them or through one period only, nor whether it ends at a gcd of one. -/
theorem leastCombination_uncapped (ring : ResidueRing) (a b : Int) (h : ring.Valid) :
    ∃ found, ring.leastCombination? a b = .ok found ∧
      (found = none ↔ a % ring.modulus = 0) ∧
      ∀ best, found = some best →
        best.gcd < ring.modulus ∧
        ring.IsLeastBelow (a % ring.modulus) (b % ring.modulus)
          (a % ring.modulus / Int.gcd (a % ring.modulus) (b % ring.modulus)) best ∧
        ∀ (target : Int) (count : Nat), target ≤ 1 →
          min (a % ring.modulus / Int.gcd (a % ring.modulus) (b % ring.modulus))
            (ring.modulus / Int.gcd (b % ring.modulus) ring.modulus) ≤ (count : Int) →
          count ≤ a % ring.modulus / Int.gcd (a % ring.modulus) (b % ring.modulus) →
          ring.scan (a % ring.modulus) (b % ring.modulus) target count 0 ⟨ring.modulus, 0⟩ =
            .ok best := by
  obtain ⟨hge, hlt⟩ := emod_bounds h a
  by_cases hzero : a % ring.modulus = 0
  · exact ⟨none, leastCombination?_of_residue_eq_zero h b hzero, by simp [hzero], by simp⟩
  · have hcommon : Int.gcd (a % ring.modulus) (b % ring.modulus) ≠ 0 := by
      rw [Ne, Int.gcd_eq_zero_iff]
      exact fun hboth => hzero hboth.1
    have hcount : 0 < a % ring.modulus / Int.gcd (a % ring.modulus) (b % ring.modulus) :=
      Int.ediv_pos_of_pos_of_dvd (by omega) (by omega) (Int.gcd_dvd_left _ _)
    obtain ⟨best, hbest, hfound⟩ := leastCombination?_of_valid h hcommon
    obtain ⟨hgcd, hleast⟩ := hfound.isLeastBelow (by omega) hlt hcount
    refine ⟨some best, by rw [hbest, if_pos hgcd], by simp [hzero], ?_⟩
    rintro _ ⟨⟩
    refine ⟨hgcd, hleast, ?_⟩
    -- Any other scan finds a first least multiplier too, and there is only one.
    intro target count htarget hperiod hle
    have hreach (c : Nat) :
        target ≤ Int.gcd (a % ring.modulus + c * (b % ring.modulus)) ring.modulus :=
      htarget.trans (one_le_gcd h _)
    obtain ⟨other, hscan, hother⟩ := scan_ok h count 0 ⟨ring.modulus, 0⟩ hreach
    rw [Nat.zero_add] at hother
    have huncapped := hother.uncap (modulus_pos h) hperiod (by omega)
    obtain ⟨-, hsame⟩ := huncapped.isLeastBelow (by omega) hlt hcount
    rw [hscan, hleast.unique hsame]

theorem leastCombination_uncapped_mod_six :
    leastCombination? ⟨6⟩ (-2) 9 = .ok (some ⟨1, 1⟩) ∧ IsLeastBelow ⟨6⟩ 4 3 4 ⟨1, 1⟩ ∧
      scan ⟨6⟩ 4 3 0 4 0 ⟨6, 0⟩ = .ok ⟨1, 1⟩ := by
  have hvalid : (⟨6⟩ : ResidueRing).Valid := by decide
  have hone : IsLeastBelow ⟨6⟩ 4 3 4 ⟨1, 1⟩ := by
    refine ⟨by decide, by decide, fun c _ => one_le_gcd hvalid _, ?_⟩
    intro c hc
    obtain rfl : c = 0 := Nat.lt_one_iff.1 hc
    decide
  obtain ⟨found, hfound, hnone, hbest⟩ := leastCombination_uncapped ⟨6⟩ (-2) 9 hvalid
  cases found with
  | none => exact absurd (hnone.1 rfl) (by decide)
  | some best =>
      obtain ⟨-, hleast, hscan⟩ := hbest best rfl
      obtain rfl : best = ⟨1, 1⟩ := hleast.unique hone
      exact ⟨hfound, hone, hscan 0 4 (by decide) (by decide) (by decide)⟩

/-- Over a whole period the gcd of `a`, `b` and the modulus is reached. -/
theorem fullCombination_of_valid (h : ring.Valid) {a b : Int} (ha : 0 ≤ a)
    (hale : a ≤ Word.greatest) (hb : 0 ≤ b) (hble : b ≤ Word.greatest) :
    ∃ found, ring.fullCombination a b = .ok found ∧
      found.gcd = Int.gcd (a + found.multiplier * b) ring.modulus ∧
      found.gcd = Int.gcd (Int.gcd a b) ring.modulus ∧
      (found.multiplier : Int) < ring.modulus / Int.gcd b ring.modulus ∧
      ∀ c : Nat, c < found.multiplier → found.gcd < Int.gcd (a + c * b) ring.modulus := by
  have hpos := modulus_pos h
  obtain ⟨hgcdb, hperiod, -, -⟩ := gcd_and_step h b
  have hgcdle : (Int.gcd a b : Int) ≤ Word.greatest :=
    Euclid.gcd_le_of_natAbs_le (by omega) (by omega)
  have htarget (c : Nat) :
      (Int.gcd (Int.gcd a b) ring.modulus : Int) ≤ Int.gcd (a + c * b) ring.modulus := by
    have hdvd := gcd_dvd_gcd_add_mul a b ring.modulus c
    have hgcd := (gcd_and_step h (a + c * b)).1
    exact_mod_cast Nat.le_of_dvd (by omega) hdvd
  obtain ⟨found, hscan, hfound⟩ := scan_ok h
    ((ring.modulus / Int.gcd b ring.modulus : Int).toNat - 1) 1 ⟨Int.gcd a ring.modulus, 0⟩
    htarget
  have hhigh : 1 + ((ring.modulus / Int.gcd b ring.modulus : Int).toNat - 1) =
      (ring.modulus / Int.gcd b ring.modulus : Int).toNat := by omega
  rw [hhigh] at hfound
  obtain ⟨hlt, hval, hle, hfirst⟩ := hfound.from_zero (by omega)
  rw [Int.toNat_of_nonneg (Int.le_of_lt hperiod)] at hlt
  simp only [Euclid.gcd_emod_left] at hval hle hfirst
  refine ⟨found, ?_, hval, ?_, hlt, hfirst⟩
  · unfold fullCombination
    rw [Euclid.gcd_of_nonneg ha hb hale hble, Checked.ok_bind, word_of_valid h,
      Euclid.gcd_of_nonneg (by omega) (by omega) hgcdle h.2, Checked.ok_bind,
      commonDivisor_of_valid h, Checked.ok_bind, period_of_valid h, Checked.ok_bind, hscan]
  · obtain ⟨c, hc⟩ := exists_gcd_add_mul a b hpos
    have hreached := hle (c % (ring.modulus / Int.gcd b ring.modulus : Int).toNat)
      (Int.ofNat_lt.2 (Nat.mod_lt _ (by omega)))
    rw [gcd_add_mul_mod a b hpos, hc] at hreached
    have htarget := htarget found.multiplier
    omega

end LinearCongruence.ResidueRing
