import LinearCongruence.ResidueRing.Basic
/-!
# One linear congruence

The solutions of `a * x ≡ b` in one unknown. With `g = gcd(a, modulus)` they exist where `g`
divides `b`; they are then the least one and those that follow it in steps of `modulus / g`.
-/

namespace LinearCongruence.ResidueRing

/-- The least solution of `a * x ≡ b`: the inverse of `a` times `b` where `a` is a unit,
else that of the congruence divided by `gcd(a, modulus)`. -/
def leastSolution? (ring : ResidueRing) (a b : Int) : Checked (Option Int) := do
  let a ← ring.residue a
  let b ← ring.residue b
  let g ← Euclid.gcd a ring.word
  if g = 1 then
    match ← Euclid.inverse? a ring.word with
    | some x => pure (some (← ring.mul x b))
    | none => pure none
  else if (← Word.rem b g) ≠ 0 then
    pure none
  else
    let reduced ← Word.quot ring.word g
    match ← Euclid.inverse? (← Word.quot a g) reduced with
    | none => pure none
    | some x =>
      let product ← Word.wide (x * (← Word.quot b g))
      pure (some (Word.wrap (← Word.wideRem product reduced)))

def solutions (ring : ResidueRing) (a b : Int) : Checked (List Int) := do
  match ← ring.leastSolution? a b with
  | none => pure []
  | some least =>
    let g ← ring.commonDivisor a
    let step ← Word.quot ring.word g
    (List.range g.toNat).mapM fun (i : Nat) => do
      Word.add least (← Word.mul step i)

end LinearCongruence.ResidueRing
