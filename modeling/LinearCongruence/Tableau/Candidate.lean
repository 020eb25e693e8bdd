import LinearCongruence.ResidueRing.Progression
import LinearCongruence.Tableau.Block
/-!
# Candidates for a pivot

The first unit of a block is its pivot. Where there is none, the entry of least gcd with the
modulus is looked for: among the entries as they are, and among those that arise when a
multiple of a row is added to a row above it. Of equal gcds the first stands.
-/

namespace LinearCongruence

/-- The entry at `position` with `multiplier` times the entry of row `partner` added, and
the gcd with the modulus that it has. -/
structure Candidate where
  gcd : Int
  multiplier : Nat
  position : Position
  partner : Nat
  deriving DecidableEq

namespace Tableau

def firstUnit? (t : Tableau) (i j : Nat) : Checked (Option Position) :=
  (t.block i j).findM? fun p => do t.ring.isUnit (← t.entryAt p)

def betterEntry (t : Tableau) (best : Candidate) (p : Position) : Checked Candidate := do
  let g ← t.gcdAt p
  pure (if g < best.gcd then ⟨g, 0, p, p.row⟩ else best)

/-- The better of `best` and the entry at `p` with a multiple of `partner` added. Nothing is
better than a unit. -/
def betterCombination (t : Tableau) (best : Candidate) :
    Position × Nat → Checked Candidate
  | (p, partner) =>
    if best.gcd = 1 then pure best
    else do
      match ← t.ring.leastCombination? (← t.entryAt p) (← t.entry partner p.col) with
      | none => pure best
      | some found =>
        pure (if found.gcd < best.gcd then ⟨found.gcd, found.multiplier, p, partner⟩ else best)

/-- The first candidate of least gcd in a block without a unit; one whose gcd is the modulus
stands for a block of zeros. -/
def bestCandidate (t : Tableau) (i j : Nat) : Checked Candidate := do
  let best ← (t.block i j).foldlM t.betterEntry ⟨t.ring.word, 0, ⟨i, j⟩, i⟩
  (t.pairings i j).foldlM t.betterCombination best

/-- Finds the first unit of the block, or else makes the best candidate an entry. -/
def search (t : Tableau) (i j : Nat) : Checked (Tableau × Option Position) := do
  match ← t.firstUnit? i j with
  | some p => pure (t, some p)
  | none =>
    let best ← t.bestCandidate i j
    if best.gcd = t.ring.word then
      pure (t, none)
    else if best.multiplier = 0 then
      pure (t, some best.position)
    else
      let t ← t.addMultiple best.position.row best.partner best.multiplier
      pure (t, some best.position)

end Tableau

end LinearCongruence
