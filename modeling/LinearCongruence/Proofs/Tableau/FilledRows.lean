import LinearCongruence.Proofs.Tableau.Steps
import Mathlib.Data.Finset.Card
/-!
# Rows with coefficients

A row without coefficients is never filled in: combinations of rows add to rows that have
some, and exchanges only move them. The number of filled rows therefore never grows, and it
bounds the number of pivots that a triangular tableau has on its diagonal.
-/

namespace LinearCongruence.Tableau

variable {t u : Tableau} {i r : Nat}

def filledRows (t : Tableau) : Finset Nat := (Finset.range t.height).filter t.Filled

theorem Filled.lt_height (h : t.Filled r) : r < t.height := by
  obtain ⟨c, -, hne⟩ := h
  by_contra hr
  exact hne (valueAt_of_height_le (Nat.le_of_not_lt hr) c)

@[simp] theorem mem_filledRows : r ∈ t.filledRows ↔ t.Filled r := by
  unfold filledRows
  rw [Finset.mem_filter, Finset.mem_range]
  exact and_iff_right_of_imp Filled.lt_height

theorem RowSteps.card_filledRows_le (steps : RowSteps i t u) (h : t.Rectangular) :
    u.filledRows.card ≤ t.filledRows.card := by
  apply Finset.card_le_card
  intro r hr
  rw [mem_filledRows] at hr ⊢
  exact steps.filled_of_filled h hr

theorem card_filledRows_le_of_swaps {a b c d : Nat} (hshape : SameShape t u)
    (hc : c < t.unknowns) (hd : d < t.unknowns)
    (hval : ∀ p, u.valueAt p = t.valueAt ⟨Equiv.swap a b p.row, Equiv.swap c d p.col⟩) :
    u.filledRows.card ≤ t.filledRows.card := by
  apply Finset.card_le_card_of_injOn (Equiv.swap a b)
  · intro r hr
    obtain ⟨k, hk, hne⟩ := mem_filledRows.1 hr
    rw [hshape.unknowns_eq] at hk
    rw [hval] at hne
    exact mem_filledRows.2 ⟨_, swap_lt hc hd hk, hne⟩
  · exact (Equiv.swap a b).injective.injOn

theorem le_card_filledRows {count : Nat} (hcount : count ≤ t.unknowns)
    (hdiagonal : ∀ c < count, t.valueAt ⟨c, c⟩ ≠ 0) : count ≤ t.filledRows.card := by
  have hsubset : Finset.range count ⊆ t.filledRows := by
    intro c hc
    have hlt := Finset.mem_range.1 hc
    exact mem_filledRows.2 ⟨c, hlt.trans_le hcount, hdiagonal c hlt⟩
  have hcard := Finset.card_le_card hsubset
  rwa [Finset.card_range] at hcard

end LinearCongruence.Tableau
