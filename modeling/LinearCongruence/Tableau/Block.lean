import LinearCongruence.Tableau.Basic
/-!
# Blocks

The block from a position on holds the rows from it down and the coefficient columns from it
to the right. Its positions, and its positions each with a row below, are listed in the
order in which a search meets them.
-/

namespace LinearCongruence

structure Position where
  row : Nat
  col : Nat
  deriving DecidableEq

namespace Tableau

def rowsFrom (t : Tableau) (i : Nat) : List Nat := List.range' i (t.height - i)

def columnsFrom (t : Tableau) (j : Nat) : List Nat := List.range' j (t.unknowns - j)

/-- The positions of the block from row `i` and column `j` on, row by row. -/
def block (t : Tableau) (i j : Nat) : List Position :=
  (t.rowsFrom i).flatMap fun row => (t.columnsFrom j).map fun col => ⟨row, col⟩

/-- Each position of the block with every row below it, by row, row below and column. -/
def pairings (t : Tableau) (i j : Nat) : List (Position × Nat) :=
  (t.rowsFrom i).flatMap fun row => (t.rowsFrom (row + 1)).flatMap fun partner =>
    (t.columnsFrom j).map fun col => (⟨row, col⟩, partner)

def entryAt (t : Tableau) (p : Position) : Checked Int := t.entry p.row p.col

def gcdAt (t : Tableau) (p : Position) : Checked Int := do
  t.ring.commonDivisor (← t.entryAt p)

end Tableau

end LinearCongruence
