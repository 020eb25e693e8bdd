import LinearCongruence.Checked
/-!
# Refusals

Why a system, a modulus or an operand is refused, and the wording of each refusal. A refusal
is an answer about the input; a fault is the end of a computation. `Outcome` holds a value
or either.
-/

namespace LinearCongruence

/-- Why a request is refused. -/
inductive Refusal where
  /-- No entry of the remaining block can serve as the pivot of this step. -/
  | noPivot (step : Nat)
  /-- A redundant row is not zero after elimination. -/
  | rankMismatch (row : Nat)
  /-- There may be more solutions than the configured limit. -/
  | tooManySolutions (count limit : Nat)
  /-- No partial solution extends to this column. -/
  | noValueAtColumn (column : Nat)
  /-- An accepted pivot does not divide an entry below it. -/
  | internalInvariantViolation (text : String)
  | noInverse (text : String)
  | invalidModulus (text : String)
  | dimensionMismatch (text : String)
  deriving DecidableEq

namespace Refusal

def message : Refusal → String
  | noPivot step => s!"NoPivot: no pivot found at step {step}"
  | rankMismatch row => s!"RankMismatch: row {row} is nonzero after elimination"
  | tooManySolutions count limit =>
    s!"TooManySolutions: {count} solutions exceed the limit of {limit}"
  | noValueAtColumn column => s!"NoValueAtColumn: no admissible value at column {column}"
  | internalInvariantViolation text => "InternalInvariantViolation: " ++ text
  | noInverse text => "NoInverse: " ++ text
  | invalidModulus text => "InvalidModulus: " ++ text
  | dimensionMismatch text => "DimensionMismatch: " ++ text

/-- Whether the refusal describes the input, and not a broken invariant. -/
def describesInput : Refusal → Bool
  | internalInvariantViolation _ => false
  | _ => true

def zeroModulus : Refusal :=
  invalidModulus "Modulus must be positive, got 0"

def largeModulus (modulus : Nat) : Refusal :=
  invalidModulus s!"Modulus {modulus} does not fit into i64"

def notInvertible (value : Int) (modulus : Nat) (gcd : Int) : Refusal :=
  noInverse s!"Modular inverse does not exist for {value} mod {modulus} (gcd={gcd})"

def noRows : Refusal :=
  dimensionMismatch "Augmented matrix must have at least one row"

def tooFewColumns (columns : Nat) : Refusal :=
  dimensionMismatch
    s!"Augmented matrix needs at least one unknown and a right-hand side, got {columns} column(s)"

def raggedRow (row length expected : Nat) : Refusal :=
  dimensionMismatch s!"Row {row} has length {length} but expected {expected}"

def vectorLength (unknowns length : Nat) : Refusal :=
  dimensionMismatch s!"Matrix has {unknowns} unknowns but vector length is {length}"

def undefinedMultiplier (pivot target : Int) (step row modulus : Nat) : Refusal :=
  internalInvariantViolation
    s!"pivot {pivot} at step {step} cannot eliminate {target} in row {row} mod {modulus}"

end Refusal

/-- Why a computation has no value: it stopped at a fault, or the input is refused. -/
inductive Failure where
  | fault (fault : Fault)
  | refused (refusal : Refusal)
  deriving DecidableEq

/-- A computation that may stop at a fault or refuse its input. -/
abbrev Outcome := Except Failure

instance : MonadLift Checked Outcome where
  monadLift x := x.mapError .fault

instance : MonadLift (Except Refusal) Outcome where
  monadLift x := x.mapError .refused

end LinearCongruence
