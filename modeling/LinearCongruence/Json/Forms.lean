import LinearCongruence.Json.Record
import LinearCongruence.Solver
/-!
# JSON forms

The forms in which rings, options, solvers and solution sets are written, and what is read
back from them. Reading checks the range of machine words and nothing else: the modulus of a
ring is taken as it stands. The vectors of a solution set are put in order again.
-/

namespace LinearCongruence

namespace Json

def unsigned? (json : Json) : Option Nat := do
  let n ← json.integer?
  if 0 ≤ n ∧ n ≤ Word.greatestUnsigned then pure n.toNat else none

def signed? (json : Json) : Option Int := do
  let n ← json.integer?
  if Word.Fits n then pure n else none

def bool? : Json → Option Bool
  | bool value => some value
  | _ => none

/-- The list that an array is, where each item is read by `item?`. -/
def list? {α : Type} (item? : Json → Option α) : Json → Option (List α)
  | array items => items.mapM item?
  | _ => none

def parse (text : String) : Option Json := Reader.document text.toList

end Json

namespace ResidueRing

def toJson (ring : ResidueRing) : Json :=
  .ofFields [("modulus", .ofNat ring.modulus)]

def ofJson? (json : Json) : Option ResidueRing := do
  match ← json.record? ["modulus"] with
  | [some modulus] => pure ⟨← modulus.unsigned?⟩
  | _ => none

end ResidueRing

namespace Options

def toJson (options : Options) : Json :=
  .ofFields [("max_solutions", .ofNat options.maxSolutions),
    ("free_columns", .bool options.freeColumns)]

/-- Options; a missing field has its standard value. -/
def ofJson? (json : Json) : Option Options := do
  match ← json.record? ["max_solutions", "free_columns"] with
  | [maxSolutions, freeColumns] =>
    let maxSolutions ← (maxSolutions.map Json.unsigned?).getD (some standard.maxSolutions)
    let freeColumns ← (freeColumns.map Json.bool?).getD (some standard.freeColumns)
    pure ⟨maxSolutions, freeColumns⟩
  | _ => none

end Options

namespace Solver

def toJson (solver : Solver) : Json :=
  .ofFields [("ring", solver.ring.toJson), ("config", solver.options.toJson)]

def ofJson? (json : Json) : Option Solver := do
  match ← json.record? ["ring", "config"] with
  | [some ring, some options] => pure ⟨← ResidueRing.ofJson? ring, ← Options.ofJson? options⟩
  | _ => none

end Solver

namespace SolutionSet

/-- The form of a set of vectors as they are given, in any order. -/
def formOf (modulus multiplicity : Nat) (vectors : List (List Int)) : Json :=
  .ofFields [("modulus", .ofNat modulus), ("multiplicity", .ofNat multiplicity),
    ("solutions", .array (vectors.map fun vector => .array (vector.map .ofInt)))]

def toJson (s : SolutionSet) : Json := formOf s.modulus s.multiplicity s.solutions

def ofJson? (json : Json) : Option SolutionSet := do
  match ← json.record? ["modulus", "multiplicity", "solutions"] with
  | [some modulus, some multiplicity, some solutions] =>
    let modulus ← modulus.unsigned?
    let multiplicity ← multiplicity.unsigned?
    let vectors ← solutions.list? (Json.list? Json.signed?)
    pure (ofVectors modulus multiplicity vectors)
  | _ => none

end SolutionSet

end LinearCongruence
