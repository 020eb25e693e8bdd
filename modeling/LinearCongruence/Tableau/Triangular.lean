import LinearCongruence.Augmented.Solution
import LinearCongruence.Tableau.Basic
/-!
# Rectangular, reduced and triangular tableaus

What the rows of a tableau are promised to be while it is worked on, and what a triangular
tableau says about the columns from some column on.
-/

namespace LinearCongruence.Tableau

/-- Rows of residues over a valid ring, each of a coefficient for every unknown and a right-hand
side. -/
structure Rectangular (t : Tableau) : Prop where
  valid : t.ring.Valid
  length_eq : ∀ row ∈ t.rows, row.length = t.unknowns + 1
  range : ∀ row ∈ t.rows, ∀ v ∈ row, 0 ≤ v ∧ v < t.ring.modulus

/-- A tableau of residues over a valid ring, with a row for every unknown and every unknown
in one column. -/
structure Reduced (t : Tableau) : Prop extends Rectangular t where
  unknowns_pos : 0 < t.unknowns
  unknowns_le : t.unknowns ≤ t.height
  order_perm : t.order.Perm (List.range t.unknowns)

/-- Residues for the columns from `col` on at which the rows from `col` on hold, where each
row's terms left of the diagonal are left out. -/
def SolvesFrom (t : Tableau) (col : Nat) (values : List Int) : Prop :=
  Augmented.IsResidues t.ring.modulus (t.unknowns - col) values ∧
    ∀ row, col ≤ row → row < t.unknowns → ∀ entries, t.rows[row]? = some entries →
      Augmented.Holds t.ring.modulus (entries.drop row) (values.drop (row - col))

/-- No entry of the first `count` columns below the diagonal is other than zero. -/
def ClearedBelow (t : Tableau) (count : Nat) : Prop :=
  ∀ col < count, ∀ row, col < row → row < t.height → t.entry row col = .ok 0

end LinearCongruence.Tableau
