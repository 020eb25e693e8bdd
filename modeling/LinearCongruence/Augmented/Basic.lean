import LinearCongruence.ResidueRing.Basic
/-!
# Augmented matrices

A system of linear congruences, one row an equation: its coefficients, then its right-hand
side. A matrix has a shape where it has a row, at least one unknown, and rows of one length.
-/

namespace LinearCongruence

/-- The equations of a system. -/
abbrev Augmented := List (List Int)

structure Shape where
  equations : Nat
  unknowns : Nat
  deriving DecidableEq

namespace Augmented

/-- The shape of the matrix, or what is wrong with it; of several rows of another length
than the first, the topmost is named. -/
def shape (matrix : Augmented) : Except Refusal Shape :=
  match matrix with
  | [] => throw .noRows
  | first :: _ =>
    if first.length < 2 then throw (.tooFewColumns first.length)
    else
      match matrix.zipIdx.find? fun p => p.1.length ≠ first.length with
      | some (row, i) => throw (.raggedRow i row.length first.length)
      | none => pure ⟨matrix.length, first.length - 1⟩

/-- The matrix with every entry reduced to its residue, whatever its shape. -/
def reduce (ring : ResidueRing) (matrix : Augmented) : Checked Augmented :=
  matrix.mapM fun row => row.mapM ring.residue

def rowResidual (ring : ResidueRing) (x row : List Int) : Checked Int := do
  let left ← (row.zip x).foldlM (fun sum (a, xi) => do ring.add sum (← ring.mul a xi)) 0
  ring.sub left (← Checked.nth row x.length)

/-- The residual of every equation at `x`. -/
def residuals (ring : ResidueRing) (matrix : Augmented) (x : List Int) :
    Outcome (List Int) := do
  let shape ← matrix.shape
  if x.length ≠ shape.unknowns then
    throw (.refused (.vectorLength shape.unknowns x.length))
  else
    (matrix.mapM (rowResidual ring x) : Checked (List Int))

def solvedBy (ring : ResidueRing) (matrix : Augmented) (x : List Int) : Outcome Bool := do
  pure ((← residuals ring matrix x).all (· = 0))

end Augmented

end LinearCongruence
