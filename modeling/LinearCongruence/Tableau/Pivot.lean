import LinearCongruence.Tableau.Candidate
/-!
# Pivots

A pivot of a block is an entry whose gcd with the modulus divides every entry below it in
its column. The best candidate need not be one: while some entry of its column is undivided,
a multiple of that entry's row is added, which lowers the gcd, and the search starts anew.
-/

namespace LinearCongruence.Tableau

/-- The first row from `i` on whose entry at column `col` is no multiple of `g`. -/
def blocker? (t : Tableau) (i col : Nat) (g : Int) : Checked (Option Nat) :=
  (t.rowsFrom i).findM? fun k => do
    pure ((← Word.rem (← t.entry k col) g) ≠ 0)

/-- Lowers the gcd of the entry at `p` until it divides its column. Each round lowers it, so
that the modulus bounds the number of rounds. -/
def refine (i j : Nat) : Nat → Tableau → Position → Checked (Tableau × Option Position)
  | 0, t, p => pure (t, some p)
  | rounds + 1, t, p => do
    let g ← t.gcdAt p
    match ← t.blocker? i p.col g with
    | none => pure (t, some p)
    | some k =>
      let better ← t.ring.fullCombination (← t.entryAt p) (← t.entry k p.col)
      if g ≤ better.gcd then
        pure (t, some p)
      else
        let t ← t.addMultiple p.row k better.multiplier
        match ← t.search i j with
        | (t, none) => pure (t, none)
        | (t, some p) => refine i j rounds t p

/-- A pivot of the block from row `i` and column `j` on, and the tableau that has it as an
entry; none where the block is zero. -/
def choosePivot (t : Tableau) (i j : Nat) : Checked (Tableau × Option Position) := do
  match ← t.search i j with
  | (t, none) => pure (t, none)
  | (t, some p) => refine i j t.ring.modulus t p

end LinearCongruence.Tableau
