import LinearCongruence.Augmented.Basic
/-!
# The working tableau

The rows of a system while it is solved. There is a row for every unknown, zero rows
included; rows are swapped and added to each other, and columns are swapped along with the
record of which unknown each holds.
-/

namespace LinearCongruence

/-- A system in work: each row holds `unknowns` coefficients and a right-hand side. -/
structure Tableau where
  ring : ResidueRing
  unknowns : Nat
  rows : List (List Int)
  /-- The unknown of the system that each column holds. -/
  order : List Nat
  deriving DecidableEq

namespace Tableau

/-- The tableau of a matrix: its residues, and zero rows up to the number of unknowns. -/
def ofAugmented (ring : ResidueRing) (matrix : Augmented) : Outcome Tableau := do
  let shape ← matrix.shape
  let rows ← matrix.reduce ring
  let zeroRow := List.replicate (shape.unknowns + 1) 0
  let padding := List.replicate (shape.unknowns - shape.equations) zeroRow
  pure ⟨ring, shape.unknowns, rows ++ padding, List.range shape.unknowns⟩

def height (t : Tableau) : Nat := t.rows.length

def entry (t : Tableau) (row col : Nat) : Checked Int := do
  Checked.nth (← Checked.nth t.rows row) col

/-- The tableau with `value` written at a position as it is. -/
def set (t : Tableau) (row col : Nat) (value : Int) : Checked Tableau := do
  let entries ← Checked.setAt (← Checked.nth t.rows row) col value
  pure { t with rows := ← Checked.setAt t.rows row entries }

def swapRows (t : Tableau) (a b : Nat) : Checked Tableau := do
  pure { t with rows := ← Checked.swapAt t.rows a b }

/-- The tableau with two columns exchanged in every row and in the order of the unknowns. No
entry is looked at where the two are equal. -/
def swapColumns (t : Tableau) (a b : Nat) : Checked Tableau :=
  if a = b then pure t
  else do
    let rows ← t.rows.mapM fun row => Checked.swapAt row a b
    let order ← Checked.swapAt t.order a b
    pure { t with rows := rows, order := order }

/-- The row `target + factor * source`. Entries of `target` beyond the last of `source` stay. -/
def addScaled (ring : ResidueRing) (target source : List Int) (factor : Int) :
    Checked (List Int) := do
  let sums ← (target.zip source).mapM fun (x, y) => do ring.add x (← ring.mul factor y)
  pure (sums ++ target.drop source.length)

def addMultiple (t : Tableau) (target source : Nat) (factor : Int) : Checked Tableau := do
  let sourceRow ← Checked.nth t.rows source
  let targetRow ← Checked.nth t.rows target
  let row ← addScaled t.ring targetRow sourceRow factor
  pure { t with rows := ← Checked.setAt t.rows target row }

/-- Refuses the tableau where a row beyond the last unknown is not zero. -/
def checkRedundant (t : Tableau) : Except Refusal Unit :=
  match (t.rows.zipIdx.drop t.unknowns).find? fun p => p.1.any (· ≠ 0) with
  | some (_, row) => throw (.rankMismatch row)
  | none => pure ()

def pivotGcds (t : Tableau) : Checked (List Nat) :=
  (List.range t.unknowns).mapM fun i => do
    pure (← t.ring.commonDivisor (← t.entry i i)).toNat

/-- The product of two unsigned words, or the greatest one where the product exceeds it. -/
def saturatingMul (a b : Nat) : Nat := min (a * b) Word.greatestUnsigned

/-- The number of solutions of a consistent triangular tableau at most. -/
def multiplicity (t : Tableau) : Checked Nat := do
  pure ((← t.pivotGcds).foldl saturatingMul 1)

/-- A vector over the columns as a vector over the unknowns of the system. -/
def unpermute (t : Tableau) (values : List Int) : Checked (List Int) :=
  let blank := List.replicate values.length 0
  (t.order.zip values).foldlM
    (fun restored (unknown, value) => Checked.setAt restored unknown value) blank

end Tableau

end LinearCongruence
