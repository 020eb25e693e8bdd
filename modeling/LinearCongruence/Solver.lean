import LinearCongruence.Options
import LinearCongruence.SolutionSet
import LinearCongruence.Tableau.BackSubstitution
import LinearCongruence.Tableau.Sweep
/-!
# Solving a system

A system is brought into triangular form; what is left of redundant equations must vanish;
the pivots bound the number of solutions; then all of them are listed.
-/

namespace LinearCongruence

/-- A ring to solve over and what the solve may do. -/
structure Solver where
  ring : ResidueRing
  options : Options
  deriving DecidableEq

namespace Solver

def ofModulus (modulus : Nat) (options : Options) : Except Refusal Solver := do
  pure ⟨← ResidueRing.ofModulus modulus, options⟩

/-- The solutions of a triangular tableau. -/
def collect (solver : Solver) (t : Tableau) : Outcome SolutionSet := do
  t.checkRedundant
  let multiplicity ← t.multiplicity
  if solver.options.maxSolutions < multiplicity then
    throw (.refused (.tooManySolutions multiplicity solver.options.maxSolutions))
  else
    pure (.ofVectors solver.ring.modulus multiplicity (← t.solutions))

/-- Every solution of the system that the matrix holds. -/
def solve (solver : Solver) (matrix : Augmented) : Outcome SolutionSet := do
  let t ← Tableau.ofAugmented solver.ring matrix
  let sweep ← t.triangularize solver.options.freeColumns
  match sweep.stopped with
  | some refusal => throw (.refused refusal)
  | none => solver.collect sweep.tableau

end Solver

/-- Every solution of a system modulo `modulus`, under the standard options. -/
def solve (modulus : Nat) (matrix : Augmented) : Outcome SolutionSet := do
  let solver ← Solver.ofModulus modulus .standard
  solver.solve matrix

end LinearCongruence
