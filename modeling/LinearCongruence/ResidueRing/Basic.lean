import LinearCongruence.Refusal
import LinearCongruence.Euclid
/-!
# The ring of residues

Arithmetic on words modulo a fixed modulus. Operands are any words; results are residues in
`[0, modulus)`. The modulus is an unsigned word. It is `Valid` where it is positive and a
signed word too: then no operation faults. A modulus beyond that is used as the word with
the same bits, except under a sum or a product, which are reduced at double width.
-/

namespace LinearCongruence

/-- The residues modulo `modulus`. -/
structure ResidueRing where
  modulus : Nat
  deriving DecidableEq

namespace ResidueRing

/-- The moduli over which every operation is exact. -/
def Valid (ring : ResidueRing) : Prop :=
  0 < ring.modulus ∧ (ring.modulus : Int) ≤ Word.greatest

instance (ring : ResidueRing) : Decidable ring.Valid := inferInstanceAs (Decidable (_ ∧ _))

def ofModulus (modulus : Nat) : Except Refusal ResidueRing :=
  if modulus = 0 then throw .zeroModulus
  else if Word.greatest < modulus then throw (.largeModulus modulus)
  else pure ⟨modulus⟩

def word (ring : ResidueRing) : Int := Word.wrap ring.modulus

def residue (ring : ResidueRing) (a : Int) : Checked Int :=
  Euclid.residue a ring.word

/-- The double-width value `x` reduced by the modulus. -/
def reduceWide (ring : ResidueRing) (x : Int) : Checked Int := do
  let r ← Word.wideRem (← Word.wide x) ring.modulus
  pure (Word.wrap r)

def add (ring : ResidueRing) (a b : Int) : Checked Int := do
  let a ← ring.residue a
  let b ← ring.residue b
  ring.reduceWide (a + b)

def mul (ring : ResidueRing) (a b : Int) : Checked Int := do
  let a ← ring.residue a
  let b ← ring.residue b
  ring.reduceWide (a * b)

def sub (ring : ResidueRing) (a b : Int) : Checked Int := do
  let a ← ring.residue a
  let b ← ring.residue b
  ring.residue (← Word.sub a b)

def neg (ring : ResidueRing) (a : Int) : Checked Int := ring.sub 0 a

/-- The greatest common divisor with the modulus; that of a multiple of the modulus is the
modulus. -/
def commonDivisor (ring : ResidueRing) (a : Int) : Checked Int := do
  Euclid.gcd (← ring.residue a) ring.word

def isUnit (ring : ResidueRing) (a : Int) : Checked Bool := do
  pure ((← ring.commonDivisor a) = 1)

/-- The inverse of `a`, or the refusal that names its gcd with the modulus. -/
def inverse (ring : ResidueRing) (a : Int) : Outcome Int := do
  match ← Euclid.inverse? a ring.word with
  | some x => pure x
  | none =>
    let value ← ring.residue a
    let gcd ← ring.commonDivisor a
    throw (.refused (.notInvertible value ring.modulus gcd))

theorem ofModulus_of_valid {modulus : Nat} (h : (⟨modulus⟩ : ResidueRing).Valid) :
    ofModulus modulus = .ok ⟨modulus⟩ := by
  have hpos : 0 < modulus := h.1
  have hle : (modulus : Int) ≤ Word.greatest := h.2
  rw [ofModulus, if_neg (by omega), if_neg (by omega)]
  rfl

theorem valid_of_ofModulus {modulus : Nat} {ring : ResidueRing}
    (h : ofModulus modulus = .ok ring) : ring.Valid := by
  unfold ofModulus at h
  split at h
  · cases h
  · split at h
    · cases h
    · cases h
      constructor <;> simp only <;> omega

theorem word_of_valid {ring : ResidueRing} (h : ring.Valid) : ring.word = ring.modulus := by
  have hle : (ring.modulus : Int) ≤ 0x7fffffffffffffff := h.2
  exact Word.wrap_of_fits (Word.fits_iff.2 (by omega))

end ResidueRing

end LinearCongruence
