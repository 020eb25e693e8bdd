import LinearCongruence.ResidueRing.Linear
import LinearCongruence.Tableau.Pivot
/-!
# The sweep to triangular form

A sweep over the unknowns: each step moves a pivot to the diagonal and clears the entries
below it. A sweep that stops early leaves the tableau as far as it got.
-/

namespace LinearCongruence

/-- The tableau that a sweep leaves, and why it stopped if it did. -/
structure Sweep where
  tableau : Tableau
  stopped : Option Refusal
  deriving DecidableEq

/-- Goes on with the next step of a sweep that has not stopped. -/
def Sweep.andThen (s : Sweep) (step : Tableau → Checked Sweep) : Checked Sweep :=
  match s.stopped with
  | some _ => pure s
  | none => step s.tableau

namespace Tableau

/-- Clears the entry of row `k` at column `i` by a multiple of row `i`. -/
def clearEntry (i : Nat) (t : Tableau) (k : Nat) : Checked Sweep := do
  let target ← t.entry k i
  if target = 0 then
    pure ⟨t, none⟩
  else
    let pivot ← t.entry i i
    match ← t.ring.leastSolution? pivot target with
    | none => pure ⟨t, some (.undefinedMultiplier pivot target i k t.ring.modulus)⟩
    | some multiplier =>
      let factor ← t.ring.neg multiplier
      pure ⟨← t.addMultiple k i factor, none⟩

def clearBelow (t : Tableau) (i : Nat) : Checked Sweep :=
  (t.rowsFrom (i + 1)).foldlM (fun s k => s.andThen fun t => t.clearEntry i k) ⟨t, none⟩

/-- Moves the pivot at `p` to the diagonal and clears the column below it. -/
def pivotOn (t : Tableau) (i : Nat) (p : Position) : Checked Sweep := do
  let t ← t.swapRows i p.row
  let t ← t.swapColumns i p.col
  t.clearBelow i

/-- The step of unknown `i`. Where the remaining block is zero, its column is left free if
that is allowed, with the zero on the diagonal as its pivot. -/
def step (freeColumns : Bool) (t : Tableau) (i : Nat) : Checked Sweep := do
  match ← t.choosePivot i i with
  | (t, some p) => t.pivotOn i p
  | (t, none) =>
    if freeColumns then t.pivotOn i ⟨i, i⟩ else pure ⟨t, some (.noPivot i)⟩

def triangularize (t : Tableau) (freeColumns : Bool) : Checked Sweep :=
  (List.range t.unknowns).foldlM (fun s i => s.andThen fun t => t.step freeColumns i) ⟨t, none⟩

end Tableau

end LinearCongruence
