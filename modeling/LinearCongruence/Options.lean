/-!
# Options

What a solve may do: how many solutions it may list, and whether an unknown that no equation
determines may range over every residue.
-/

namespace LinearCongruence

structure Options where
  /-- A system that may have more solutions is refused. -/
  maxSolutions : Nat := 100
  /-- Whether a block of zeros leaves its column free, and is not refused. -/
  freeColumns : Bool := false
  deriving DecidableEq

def Options.standard : Options := {}

end LinearCongruence
