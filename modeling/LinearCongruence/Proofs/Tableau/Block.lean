import LinearCongruence.Proofs.Tableau.Entries
import LinearCongruence.Tableau.Block
/-!
# The positions of a block

What the lists of a block hold, and its entries and gcds, which are there to be read.
-/

namespace LinearCongruence.Tableau

variable {t u : Tableau} {i j : Nat} {p : Position}

@[simp] theorem mem_rowsFrom {k : Nat} : k ∈ t.rowsFrom i ↔ i ≤ k ∧ k < t.height := by
  unfold rowsFrom
  rw [List.mem_range'_1]
  omega

@[simp] theorem mem_columnsFrom {k : Nat} : k ∈ t.columnsFrom j ↔ j ≤ k ∧ k < t.unknowns := by
  unfold columnsFrom
  rw [List.mem_range'_1]
  omega

theorem mem_block :
    p ∈ t.block i j ↔ (i ≤ p.row ∧ p.row < t.height) ∧ j ≤ p.col ∧ p.col < t.unknowns := by
  obtain ⟨row, col⟩ := p
  simp [block]

theorem Reduced.mem_block_diagonal (h : t.Reduced) (hi : i < t.unknowns) :
    (⟨i, i⟩ : Position) ∈ t.block i i :=
  mem_block.2 ⟨⟨Nat.le_refl i, h.lt_height hi⟩, Nat.le_refl i, hi⟩

theorem mem_pairings {k : Nat} :
    (p, k) ∈ t.pairings i j ↔ p ∈ t.block i j ∧ p.row < k ∧ k < t.height := by
  obtain ⟨row, col⟩ := p
  simp only [pairings, List.mem_flatMap, List.mem_map, mem_rowsFrom, mem_columnsFrom, mem_block,
    Prod.mk.injEq, Position.mk.injEq]
  constructor
  · rintro ⟨row', hrow, partner, hpartner, col', hcol, ⟨rfl, rfl⟩, rfl⟩
    exact ⟨⟨hrow, hcol⟩, by omega, hpartner.2⟩
  · rintro ⟨⟨hrow, hcol⟩, hlt, hk⟩
    exact ⟨row, hrow, k, ⟨by omega, hk⟩, col, hcol, ⟨rfl, rfl⟩, rfl⟩

theorem SameShape.block_eq (h : SameShape t u) (i j : Nat) : u.block i j = t.block i j := by
  simp only [block, rowsFrom, columnsFrom, h.height_eq, h.unknowns_eq]

theorem SameShape.pairings_eq (h : SameShape t u) (i j : Nat) :
    u.pairings i j = t.pairings i j := by
  simp only [pairings, rowsFrom, columnsFrom, h.height_eq, h.unknowns_eq]

theorem SameShape.rowsFrom_eq (h : SameShape t u) (i : Nat) : u.rowsFrom i = t.rowsFrom i := by
  rw [rowsFrom, rowsFrom, h.height_eq]

theorem Rectangular.entryAt_eq (h : t.Rectangular) (hp : p ∈ t.block i j) :
    t.entryAt p = .ok (t.valueAt p) := by
  obtain ⟨hrow, hcol⟩ := mem_block.1 hp
  exact h.entry_eq hrow.2 (by omega)

theorem Rectangular.gcdAt_eq (h : t.Rectangular) (hp : p ∈ t.block i j) :
    t.gcdAt p = .ok (t.gcdOf p : Int) := by
  unfold gcdAt
  rw [h.entryAt_eq hp, Checked.ok_bind, ResidueRing.commonDivisor_of_valid h.valid]
  rfl

end LinearCongruence.Tableau
