import LinearCongruence.Proofs.Tableau.BackSubstitution
import Mathlib.Algebra.Order.BigOperators.GroupWithZero.List
/-!
# Triangular tableaus

What a tableau with cleared columns is solved by: its redundant rows must be zero, and its
other rows are what back-substitution reads. The gcds on the diagonal bound the number of
solutions. Main facts:

* `checkRedundant_ok` : a redundant row other than zero contradicts every vector;
* `solves_iff_solvesFrom` : the rows hold where the partial solutions reach the first column;
* `multiplicity_ok` : the product of the gcds, as far as a word holds it.
-/

namespace LinearCongruence.Tableau

open Augmented

variable {t : Tableau}

/-! ## Redundant rows -/

def Consistent (t : Tableau) : Prop :=
  ∀ r, t.unknowns ≤ r → t.valueAt ⟨r, t.unknowns⟩ = 0

theorem Reduced.redundant_eq_zero_iff (h : t.Reduced) (hcleared : t.Cleared t.unknowns)
    {r : Nat} (hr : t.unknowns ≤ r) {row : List Int} (hrow : t.rows[r]? = some row) :
    (∀ v ∈ row, v = 0) ↔ t.valueAt ⟨r, t.unknowns⟩ = 0 := by
  have hlen := h.length_eq row (List.mem_of_getElem? hrow)
  constructor
  · intro hall
    exact hall _ (List.mem_of_getElem? (h.getElem?_of_row hrow (Nat.le_refl _)))
  · intro hzero v hv
    obtain ⟨c, hc, rfl⟩ := List.getElem_of_mem hv
    rw [(List.getElem_eq_iff hc).2 (h.getElem?_of_row hrow (by omega))]
    by_cases hlt : c < t.unknowns
    · exact hcleared c hlt r (by omega)
    · rwa [show c = t.unknowns by omega]

theorem Reduced.checkRedundant_ok (h : t.Reduced) (hcleared : t.Cleared t.unknowns) :
    t.checkRedundant = .ok () ∧ t.Consistent ∨
      ∃ r, t.checkRedundant = .error (.rankMismatch r) ∧ t.unknowns ≤ r ∧
        t.valueAt ⟨r, t.unknowns⟩ ≠ 0 := by
  have hmem (p : List Int × Nat) : p ∈ t.rows.zipIdx.drop t.unknowns ↔
      t.unknowns ≤ p.2 ∧ t.rows[p.2]? = some p.1 := by
    obtain ⟨row, r⟩ := p
    rw [List.mem_iff_getElem?]
    simp only [List.getElem?_drop, List.getElem?_zipIdx, Option.map_eq_some_iff, Prod.mk.injEq,
      Nat.zero_add]
    constructor
    · rintro ⟨k, entries, hk, rfl, rfl⟩
      exact ⟨Nat.le_add_right _ _, hk⟩
    · rintro ⟨hle, hrow⟩
      exact ⟨r - t.unknowns, row, by rwa [Nat.add_sub_cancel' hle], rfl, Nat.add_sub_cancel' hle⟩
  unfold checkRedundant
  cases hfind : (t.rows.zipIdx.drop t.unknowns).find? fun p => p.1.any (· ≠ 0) with
  | none =>
      refine .inl ⟨rfl, ?_⟩
      intro r hr
      by_cases hlt : r < t.height
      · obtain ⟨row, hrow, -⟩ := h.getElem?_row hlt
        have hzero := List.find?_eq_none.1 hfind (row, r) ((hmem _).2 ⟨hr, hrow⟩)
        exact (h.redundant_eq_zero_iff hcleared hr hrow).1 (by simpa using hzero)
      · exact valueAt_of_height_le (Nat.le_of_not_lt hlt) _
  | some p =>
      obtain ⟨hr, hrow⟩ := (hmem p).1 (List.mem_of_find?_eq_some hfind)
      refine .inr ⟨p.2, rfl, hr, ?_⟩
      intro hzero
      have hall := (h.redundant_eq_zero_iff hcleared hr hrow).2 hzero
      have hany := List.find?_some hfind
      rw [List.any_eq_true] at hany
      obtain ⟨v, hv, hne⟩ := hany
      exact absurd (hall v hv) (of_decide_eq_true hne)

theorem Reduced.consistent_of_solves (h : t.Reduced) (hcleared : t.Cleared t.unknowns)
    {y : List Int} (hy : y.length = t.unknowns) (hsolves : t.Solves y) : t.Consistent := by
  intro r hr
  have hresidual := (h.solves_iff hy).1 hsolves r
  have hsum : ∑ c ∈ Finset.range t.unknowns, t.valueAt ⟨r, c⟩ * y[c]?.getD 0 = 0 := by
    apply Finset.sum_eq_zero
    intro c hc
    have hlt := Finset.mem_range.1 hc
    rw [hcleared c hlt r (by omega), Int.zero_mul]
  unfold residual at hresidual
  rw [hsum, Int.zero_sub, Int.dvd_neg] at hresidual
  have hbounds := h.valueAt_bounds ⟨r, t.unknowns⟩
  exact Int.eq_zero_of_dvd_of_nonneg_of_lt hbounds.1 hbounds.2 hresidual

/-! ## The other rows -/

theorem dot_drop {row y : List Int} {r : Nat} (hzero : ∀ c < r, row[c]?.getD 0 = 0) :
    dot (row.drop r) (y.drop r) = dot row y := by
  induction r generalizing row y with
  | zero => rfl
  | succ r ih =>
      cases row with
      | nil => cases y <;> simp [dot]
      | cons a row =>
          cases y with
          | nil =>
              rw [List.drop_nil]
              cases (a :: row).drop (r + 1) <;> rfl
          | cons x y =>
              have ha : a = 0 := hzero 0 (Nat.zero_lt_succ r)
              rw [List.drop_succ_cons, List.drop_succ_cons, dot, ha, Int.zero_mul, Int.zero_add]
              exact ih fun c hc => hzero (c + 1) (Nat.succ_lt_succ hc)

theorem Reduced.holds_drop_diagonal_iff (h : t.Reduced) (hcleared : t.Cleared t.unknowns)
    {r : Nat} (hr : r < t.unknowns) {row : List Int} (hrow : t.rows[r]? = some row)
    (y : List Int) :
    Holds t.ring.modulus (row.drop r) (y.drop r) ↔ Holds t.ring.modulus row y := by
  have hzero (c : Nat) (hc : c < r) : row[c]?.getD 0 = 0 := by
    rw [← valueAt_of_row hrow]
    exact hcleared c (by omega) r hc
  have hlast : row.getLastD 0 = t.valueAt ⟨r, t.unknowns⟩ :=
    h.getLastD_drop hrow (Nat.zero_le _)
  unfold Holds
  rw [dot_drop hzero, h.getLastD_drop hrow (Nat.le_of_lt hr), hlast]

theorem Reduced.solves_iff_solvesFrom (h : t.Reduced) (hcleared : t.Cleared t.unknowns)
    (hconsistent : t.Consistent) {y : List Int}
    (hy : IsResidues t.ring.modulus t.unknowns y) : t.Solves y ↔ t.SolvesFrom 0 y := by
  constructor
  · intro hsolves
    refine ⟨hy, ?_⟩
    intro r _ hr row hrow
    rw [Nat.sub_zero, h.holds_drop_diagonal_iff hcleared hr hrow]
    exact hsolves row (List.mem_of_getElem? hrow)
  · rintro ⟨-, hholds⟩ row hmem
    obtain ⟨r, hlt, rfl⟩ := List.getElem_of_mem hmem
    have hrow := List.getElem?_eq_getElem hlt
    by_cases hr : r < t.unknowns
    · have hdrop := hholds r (Nat.zero_le r) hr _ hrow
      rwa [Nat.sub_zero, h.holds_drop_diagonal_iff hcleared hr hrow] at hdrop
    · have hall := (h.redundant_eq_zero_iff hcleared (Nat.le_of_not_lt hr) hrow).2
        (hconsistent r (Nat.le_of_not_lt hr))
      rw [List.eq_replicate_of_mem hall]
      exact holds_zeros _ _ _

/-! ## The gcds on the diagonal -/

theorem Reduced.pivotGcds_ok (h : t.Reduced) :
    t.pivotGcds = .ok ((List.range t.unknowns).map fun c => t.gcdOf ⟨c, c⟩) := by
  apply Checked.mapM_eq_ok_map
  intro c hc
  have hlt := List.mem_range.1 hc
  rw [h.entry_eq (h.lt_height hlt) (Nat.le_of_lt hlt), Checked.ok_bind,
    ResidueRing.commonDivisor_of_valid h.valid]
  rfl

/-- A product that saturates on the way does so at its end. -/
theorem foldl_saturatingMul {gcds : List Nat} {start : Nat} (hpos : ∀ g ∈ gcds, 0 < g)
    (hstart : start ≤ Word.greatestUnsigned) :
    gcds.foldl saturatingMul start = min (start * gcds.prod) Word.greatestUnsigned := by
  induction gcds generalizing start with
  | nil => simpa using hstart
  | cons g gcds ih =>
      have hrest : ∀ k ∈ gcds, 0 < k := fun k hk => hpos k (by simp [hk])
      have hprod : 0 < gcds.prod := List.prod_pos hrest
      rw [List.foldl_cons, saturatingMul, ih hrest (Nat.min_le_right _ _), List.prod_cons,
        ← Nat.mul_assoc]
      by_cases hle : start * g ≤ Word.greatestUnsigned
      · rw [Nat.min_eq_left hle]
      · have hge : Word.greatestUnsigned ≤ start * g := by omega
        rw [Nat.min_eq_right hge, Nat.min_eq_right (Nat.le_mul_of_pos_right _ hprod),
          Nat.min_eq_right (hge.trans (Nat.le_mul_of_pos_right _ hprod))]

theorem Reduced.multiplicity_ok (h : t.Reduced) :
    t.multiplicity = .ok (min (∏ c ∈ Finset.range t.unknowns, t.gcdOf ⟨c, c⟩)
      Word.greatestUnsigned) := by
  have hpos : ∀ g ∈ (List.range t.unknowns).map fun c => t.gcdOf ⟨c, c⟩, 0 < g := by
    intro g hg
    obtain ⟨c, -, rfl⟩ := List.mem_map.1 hg
    exact (h.gcdOf_bounds _).1
  have hone : 1 ≤ Word.greatestUnsigned := by decide
  unfold multiplicity
  rw [h.pivotGcds_ok, Checked.ok_bind, foldl_saturatingMul hpos hone, Nat.one_mul]
  rfl

end LinearCongruence.Tableau
