import LinearCongruence.Proofs.Augmented.Residuals
import LinearCongruence.Proofs.Tableau.Steps
import Mathlib.Algebra.BigOperators.Intervals
import Mathlib.Algebra.BigOperators.Ring.Finset
import Mathlib.Tactic.Ring
/-!
# The system that a tableau stands for

A vector over the unknowns is brought into the order of the columns; a tableau represents a
matrix where its rows hold at the arranged vector exactly when the equations hold at the
vector itself. Main facts:

* `Reduced.solves_iff` : the rows in terms of the entries;
* `BlockSteps.represents` : no step changes what is represented;
* `represents_padded` : the tableau of a matrix represents it.
-/

namespace LinearCongruence

open Augmented

namespace Augmented

theorem dot_eq_sum (row x : List Int) :
    dot row x = ∑ c ∈ Finset.range x.length, row[c]?.getD 0 * x[c]?.getD 0 := by
  induction x generalizing row with
  | nil => cases row <;> rfl
  | cons v x ih =>
      cases row with
      | nil => simp [dot]
      | cons a row =>
          rw [dot, ih, List.length_cons, Finset.sum_range_succ', Int.add_comm]
          simp

theorem holds_iff_sum {modulus n : Nat} {row x : List Int} (hrow : row.length = n + 1)
    (hx : x.length = n) :
    Holds modulus row x ↔
      (modulus : Int) ∣ ∑ c ∈ Finset.range n, row[c]?.getD 0 * x[c]?.getD 0 - row[n]?.getD 0 := by
  unfold Holds
  rw [dot_eq_sum, hx, getElem?_eq_getLastD hrow, Option.getD_some]

end Augmented

namespace Tableau

variable {t u : Tableau} {i : Nat} {matrix : Augmented}

def arrange (t : Tableau) (x : List Int) : List Int :=
  t.order.map fun unknown => x[unknown]?.getD 0

def Solves (t : Tableau) (y : List Int) : Prop :=
  ∀ row ∈ t.rows, Holds t.ring.modulus row y

/-- The rows hold at an arranged vector where the equations hold at the vector itself. -/
def Represents (t : Tableau) (matrix : Augmented) : Prop :=
  ∀ x, x.length = t.unknowns →
    (t.Solves (t.arrange x) ↔ ∀ row ∈ matrix, Holds t.ring.modulus row x)

def residual (t : Tableau) (y : List Int) (r : Nat) : Int :=
  ∑ c ∈ Finset.range t.unknowns, t.valueAt ⟨r, c⟩ * y[c]?.getD 0 - t.valueAt ⟨r, t.unknowns⟩

theorem Reduced.length_order (h : t.Reduced) : t.order.length = t.unknowns := by
  rw [h.order_perm.length_eq, List.length_range]

theorem Reduced.length_arrange (h : t.Reduced) (x : List Int) :
    (t.arrange x).length = t.unknowns := by
  unfold arrange
  rw [List.length_map, h.length_order]

theorem Reduced.solves_iff (h : t.Reduced) {y : List Int} (hy : y.length = t.unknowns) :
    t.Solves y ↔ ∀ r, (t.ring.modulus : Int) ∣ t.residual y r := by
  constructor
  · intro hsolves r
    by_cases hr : r < t.height
    · obtain ⟨row, hrow, hmem, hlen⟩ := h.getElem?_row hr
      have hholds := (holds_iff_sum hlen hy).1 (hsolves row hmem)
      simpa only [residual, valueAt_of_row hrow] using hholds
    · simp [residual, valueAt_of_height_le (Nat.le_of_not_lt hr)]
  · intro hresidual row hmem
    obtain ⟨r, hr, rfl⟩ := List.getElem_of_mem hmem
    have hdvd := hresidual r
    simp only [residual, valueAt_of_row (List.getElem?_eq_getElem hr)] at hdvd
    exact (holds_iff_sum (h.length_eq _ hmem) hy).2 hdvd

/-! ## Steps -/

theorem sum_range_swap {n a b : Nat} (ha : a < n) (hb : b < n) (f : Nat → Int) :
    ∑ c ∈ Finset.range n, f (Equiv.swap a b c) = ∑ c ∈ Finset.range n, f c := by
  apply Finset.sum_equiv (Equiv.swap a b)
  · intro c
    rw [Finset.mem_range, Finset.mem_range, Equiv.swap_apply_def]
    split
    · omega
    · split <;> omega
  · intro c _
    rfl

theorem residual_swapColumns {a b : Nat} {y y' : List Int} (hshape : SameShape t u)
    (ha : a < t.unknowns) (hb : b < t.unknowns)
    (hval : ∀ p, u.valueAt p = t.valueAt ⟨p.row, Equiv.swap a b p.col⟩)
    (hy : ∀ c : Nat, y'[c]? = y[Equiv.swap a b c]?) (r : Nat) :
    u.residual y' r = t.residual y r := by
  unfold residual
  rw [hshape.unknowns_eq, hval]
  simp only [Equiv.swap_apply_of_ne_of_ne (Nat.ne_of_gt ha) (Nat.ne_of_gt hb)]
  rw [← sum_range_swap ha hb fun c => t.valueAt ⟨r, c⟩ * y[c]?.getD 0]
  simp only [hval, hy]

theorem residual_addMultiple {target source : Nat} {factor : Int} (y : List Int)
    (hshape : SameShape t u)
    (hval : ∀ c, u.valueAt ⟨target, c⟩ =
      (t.valueAt ⟨target, c⟩ + factor * t.valueAt ⟨source, c⟩) % t.ring.modulus) :
    ∃ k, u.residual y target =
      t.residual y target + factor * t.residual y source + t.ring.modulus * k := by
  let quotient (c : Nat) : Int :=
    (t.valueAt ⟨target, c⟩ + factor * t.valueAt ⟨source, c⟩) / t.ring.modulus
  refine ⟨quotient t.unknowns -
    ∑ c ∈ Finset.range t.unknowns, quotient c * y[c]?.getD 0, ?_⟩
  have hterm (c : Nat) : u.valueAt ⟨target, c⟩ * y[c]?.getD 0 =
      t.valueAt ⟨target, c⟩ * y[c]?.getD 0 +
        factor * (t.valueAt ⟨source, c⟩ * y[c]?.getD 0) -
        t.ring.modulus * (quotient c * y[c]?.getD 0) := by
    rw [hval, Int.emod_def]
    ring
  simp only [residual, hshape.unknowns_eq, hterm, Finset.sum_sub_distrib, Finset.sum_add_distrib,
    ← Finset.mul_sum]
  rw [hval, Int.emod_def]
  ring

theorem BlockStep.solves_iff (step : BlockStep i t u) (h : t.Reduced) (x : List Int) :
    u.Solves (u.arrange x) ↔ t.Solves (t.arrange x) := by
  obtain ⟨hred, hshape, heffect⟩ := step.cases h
  rw [hred.solves_iff (hred.length_arrange x), h.solves_iff (h.length_arrange x),
    hshape.ring_eq]
  cases heffect with
  | rows a b _ _ horder hval =>
      have hresidual (r : Nat) : u.residual (u.arrange x) r =
          t.residual (t.arrange x) (Equiv.swap a b r) := by
        simp only [residual, arrange, hval, horder, hshape.unknowns_eq]
      simp only [hresidual]
      exact (Equiv.swap a b).forall_congr_right (q := fun r => _ ∣ t.residual (t.arrange x) r)
  | columns a b _ _ hau hbu horder hval =>
      have harrange (c : Nat) : (u.arrange x)[c]? = (t.arrange x)[Equiv.swap a b c]? := by
        simp only [arrange, List.getElem?_map, horder]
      simp only [residual_swapColumns hshape hau hbu hval harrange]
  | combination target source factor _ _ hne horder hval =>
      have harrange : u.arrange x = t.arrange x := by
        unfold arrange
        rw [horder]
      have hother (r : Nat) (hr : r ≠ target) :
          u.residual (t.arrange x) r = t.residual (t.arrange x) r := by
        simp only [residual, hval, if_neg hr, hshape.unknowns_eq]
      obtain ⟨k, hk⟩ := residual_addMultiple (t.arrange x) hshape fun c =>
        (hval ⟨target, c⟩).trans (if_pos rfl)
      have hsource (hdvd : (t.ring.modulus : Int) ∣ t.residual (t.arrange x) source) :
          (t.ring.modulus : Int) ∣ u.residual (t.arrange x) target ↔
            (t.ring.modulus : Int) ∣ t.residual (t.arrange x) target := by
        rw [hk, Int.add_assoc]
        exact Int.dvd_add_left
          (Int.dvd_add (Dvd.dvd.mul_left hdvd factor) (Int.dvd_mul_right _ _))
      rw [harrange]
      constructor
      · intro hall r
        have hdvd := hother source hne.symm ▸ hall source
        by_cases hr : r = target
        · exact hr ▸ (hsource hdvd).1 (hall target)
        · exact hother r hr ▸ hall r
      · intro hall r
        by_cases hr : r = target
        · exact hr ▸ (hsource (hall source)).2 (hall target)
        · exact (hother r hr).symm ▸ hall r

theorem BlockStep.represents (step : BlockStep i t u) (h : t.Reduced)
    (hrep : t.Represents matrix) : u.Represents matrix := by
  intro x hx
  obtain ⟨-, hshape, -⟩ := step.cases h
  rw [step.solves_iff h x, hshape.ring_eq]
  exact hrep x (hx.trans hshape.unknowns_eq)

theorem BlockSteps.represents (steps : BlockSteps i t u) (h : t.Reduced)
    (hrep : t.Represents matrix) : u.Represents matrix :=
  steps.induct (Represents · matrix) (fun _ _ hred step => step.represents hred) h hrep

/-! ## The tableau of a matrix -/

theorem holds_zeros (modulus count : Nat) (x : List Int) :
    Holds modulus (List.replicate count 0) x := by
  have hdot : dot (List.replicate count 0) x = 0 := by
    rw [dot_eq_sum]
    apply Finset.sum_eq_zero
    intro c _
    rw [List.getElem?_replicate]
    split <;> simp
  have hlast : (List.replicate count (0 : Int)).getLastD 0 = 0 := by
    rw [List.getLastD_eq_getLast?, List.getLast?_replicate]
    split <;> rfl
  unfold Holds
  rw [hdot, hlast]
  simp

def padded (ring : ResidueRing) (matrix : Augmented) (n : Nat) : Tableau :=
  ⟨ring, n, matrix.map (fun row => row.map (· % (ring.modulus : Int))) ++
    List.replicate (n - matrix.length) (List.replicate (n + 1) 0), List.range n⟩

section Padded

variable {ring : ResidueRing} {n : Nat}

theorem mem_rows_padded {row : List Int} (hrow : row ∈ (padded ring matrix n).rows) :
    (∃ row' ∈ matrix, row = row'.map (· % (ring.modulus : Int))) ∨
      row = List.replicate (n + 1) 0 := by
  rcases List.mem_append.1 hrow with hrow | hrow
  · obtain ⟨row', hrow', rfl⟩ := List.mem_map.1 hrow
    exact .inl ⟨row', hrow', rfl⟩
  · exact .inr (List.eq_of_mem_replicate hrow)

theorem ofAugmented_eq_padded (h : ring.Valid) (hmatrix : WellFormed matrix n) :
    ofAugmented ring matrix = .ok (padded ring matrix n) := by
  unfold ofAugmented
  rw [shape_of_wellFormed hmatrix, reduce_of_valid h]
  rfl

theorem reduced_padded (h : ring.Valid) (hmatrix : WellFormed matrix n) :
    (padded ring matrix n).Reduced := by
  refine ⟨⟨h, ?_, ?_⟩, hmatrix.unknowns_pos, ?_, .refl _⟩
  · intro row hrow
    rcases mem_rows_padded hrow with ⟨row', hrow', rfl⟩ | rfl
    · rw [List.length_map]
      exact hmatrix.length_eq row' hrow'
    · exact List.length_replicate
  · intro row hrow v hv
    rcases mem_rows_padded hrow with ⟨row', -, rfl⟩ | rfl
    · obtain ⟨w, -, rfl⟩ := List.mem_map.1 hv
      exact ResidueRing.emod_bounds h w
    · rw [List.eq_of_mem_replicate hv]
      exact ⟨Int.le_refl _, ResidueRing.modulus_pos h⟩
  · simp only [height, padded, List.length_append, List.length_map, List.length_replicate]
    omega

theorem valueAt_padded (r c : Nat) : (padded ring matrix n).valueAt ⟨r, c⟩ =
    (matrix[r]?.getD [])[c]?.getD 0 % (ring.modulus : Int) := by
  by_cases hr : r < matrix.length
  · have hrow : (padded ring matrix n).rows[r]? =
        some (matrix[r].map (· % (ring.modulus : Int))) := by
      simp [padded, List.getElem?_append_left, hr]
    rw [valueAt_of_row hrow, List.getElem?_eq_getElem hr, Option.getD_some, List.getElem?_map]
    cases matrix[r][c]? <;> simp
  · rw [List.getElem?_eq_none (Nat.le_of_not_lt hr)]
    cases hrow : (padded ring matrix n).rows[r]? with
    | none => simp [valueAt, hrow]
    | some row =>
        have hmem := hrow
        rw [padded, List.getElem?_append_right (by simpa using hr)] at hmem
        rw [valueAt_of_row hrow, List.eq_of_mem_replicate (List.mem_of_getElem? hmem),
          List.getElem?_replicate]
        split <;> simp

theorem exists_of_filled_padded {r : Nat} (hr : (padded ring matrix n).Filled r) :
    ∃ row, matrix[r]? = some row ∧ ∃ a ∈ row.take n, ¬(ring.modulus : Int) ∣ a := by
  obtain ⟨c, hc, hne⟩ := hr
  rw [valueAt_padded] at hne
  cases hrow : matrix[r]? with
  | none => simp [hrow] at hne
  | some row =>
    rw [hrow, Option.getD_some] at hne
    cases hentry : row[c]? with
    | none => simp [hentry] at hne
    | some a =>
      rw [hentry, Option.getD_some] at hne
      refine ⟨row, rfl, a, ?_, mt Int.emod_eq_zero_of_dvd hne⟩
      apply List.mem_of_getElem?
      rw [List.getElem?_take_of_lt (show c < n from hc), hentry]

theorem arrange_padded {x : List Int} (hx : x.length = n) :
    (padded ring matrix n).arrange x = x := by
  apply List.ext_getElem?
  intro c
  simp only [arrange, padded, List.getElem?_map]
  by_cases hc : c < n
  · have hc' : c < x.length := hx.symm ▸ hc
    simp [hc, hc']
  · have hc' : ¬c < x.length := hx.symm ▸ hc
    simp [hc, hc']

theorem represents_padded : (padded ring matrix n).Represents matrix := by
  intro x hx
  have harrange : (padded ring matrix n).arrange x = x := arrange_padded hx
  rw [harrange]
  constructor
  · intro hsolves row hrow
    have hmem : row.map (· % (ring.modulus : Int)) ∈ (padded ring matrix n).rows :=
      List.mem_append_left _ (List.mem_map_of_mem hrow)
    exact (holds_emod_iff _ _ _).1 (hsolves _ hmem)
  · intro hholds row hrow
    rcases mem_rows_padded hrow with ⟨row', hrow', rfl⟩ | rfl
    · exact (holds_emod_iff _ _ _).2 (hholds row' hrow')
    · exact holds_zeros _ _ _

end Padded

end Tableau

end LinearCongruence
