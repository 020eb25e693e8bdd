import LinearCongruence.ResidueRing.Basic
/-!
# Gcds along a progression

Among the residues `a + c * b` for `c = 0, 1, …` the one whose gcd with the modulus is
least. The residues repeat with period `modulus / gcd(b, modulus)`, so no scan goes beyond
it.
-/

namespace LinearCongruence.ResidueRing

/-- A multiplier `c` and the gcd with the modulus that `a + c * b` has. -/
structure Combination where
  gcd : Int
  multiplier : Nat
  deriving DecidableEq

def gcdAt (ring : ResidueRing) (a b : Int) (c : Nat) : Checked Int := do
  ring.commonDivisor (← ring.add a (← ring.mul c b))

/-- The first least gcd among `best` and the next `count` multipliers from `c` on. The scan
ends early where `target` is reached, below which no gcd can be. -/
def scan (ring : ResidueRing) (a b target : Int) : Nat → Nat → Combination → Checked Combination
  | 0, _, best => pure best
  | count + 1, c, best => do
    let g ← ring.gcdAt a b c
    let best := if g < best.gcd then ⟨g, c⟩ else best
    if g = target then pure best else scan ring a b target count (c + 1) best

/-- The number of distinct multiples of `b`. -/
def period (ring : ResidueRing) (b : Int) : Checked Int := do
  Word.quot ring.word (← ring.commonDivisor b)

/-- The first least gcd of `a + c * b` for `c` below `a / gcd(a, b)`, where it is less than
the modulus. -/
def leastCombination? (ring : ResidueRing) (a b : Int) : Checked (Option Combination) := do
  let a ← ring.residue a
  let b ← ring.residue b
  let common ← Euclid.gcd a b
  if common = 0 then
    pure none
  else
    let count := min (← Word.quot a common) (← ring.period b)
    let best ← ring.scan a b 1 count.toNat 0 ⟨ring.word, 0⟩
    pure (if best.gcd < ring.word then some best else none)

/-- The first least gcd of `a + c * b` over a whole period of `c`; no gcd lies below that of
`a`, `b` and the modulus. -/
def fullCombination (ring : ResidueRing) (a b : Int) : Checked Combination := do
  let target ← Euclid.gcd (← Euclid.gcd a b) ring.word
  let start ← ring.commonDivisor a
  let count ← ring.period b
  ring.scan a b target (count.toNat - 1) 1 ⟨start, 0⟩

end LinearCongruence.ResidueRing
