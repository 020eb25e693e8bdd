import LinearCongruence.ResidueRing.Linear
import LinearCongruence.Tableau.Basic
/-!
# Back-substitution

The solutions of a triangular tableau, from the last column to the first. A partial solution
holds the values of the columns from some column on; a column whose pivot is no unit extends
it in several ways or in none.
-/

namespace LinearCongruence.Tableau

/-- The right-hand side of row `col` less its terms in the columns after it. -/
def remainder (t : Tableau) (col : Nat) (later : List Int) : Checked Int := do
  let row ← Checked.nth t.rows col
  let right ← Checked.nth row t.unknowns
  ((row.drop (col + 1)).zip later).foldlM
    (fun b (a, x) => do t.ring.sub b (← t.ring.mul a x)) right

/-- The partial solutions that extend `later` to column `col`, by ascending values. -/
def extensions (t : Tableau) (col : Nat) (later : List Int) : Checked (List (List Int)) := do
  let values ← t.ring.solutions (← t.entry col col) (← t.remainder col later)
  pure (values.map (· :: later))

/-- The extensions of every partial solution to column `col`. -/
def extendAll (t : Tableau) (col : Nat) (frontier : List (List Int)) :
    Checked (List (List Int)) := do
  pure (← frontier.mapM (t.extensions col)).flatten

/-- Extends partial solutions to the first `count` columns; refuses at the column where none
is left. -/
def extendThrough (t : Tableau) : Nat → List (List Int) → Outcome (List (List Int))
  | 0, frontier => pure frontier
  | count + 1, frontier => do
    let extended ← t.extendAll count frontier
    if extended.isEmpty then
      throw (.refused (.noValueAtColumn count))
    else
      t.extendThrough count extended

/-- The solutions of a triangular tableau, as vectors over the unknowns of the system. -/
def solutions (t : Tableau) : Outcome (List (List Int)) := do
  let found ← t.extendThrough t.unknowns [[]]
  (found.mapM t.unpermute : Checked (List (List Int)))

end LinearCongruence.Tableau
