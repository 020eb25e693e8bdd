/-!
# Solution sets

The answer to a system: its vectors in ascending order, each once. Vectors are compared
entry by entry from the first; of two where one begins the other, the shorter comes first.
-/

namespace LinearCongruence

/-- The solutions of a system and the bound on their number that the pivots give. -/
structure SolutionSet where
  modulus : Nat
  multiplicity : Nat
  solutions : List (List Int)
  deriving DecidableEq

namespace SolutionSet

def dropRepeats : List (List Int) → List (List Int)
  | x :: y :: rest => if x = y then dropRepeats (y :: rest) else x :: dropRepeats (y :: rest)
  | xs => xs

/-- Whether `x` may stand before `y` in a list in ascending order. -/
def inOrder (x y : List Int) : Bool := !decide (y < x)

/-- The set of the given vectors, in whatever order and however often they are given. -/
def ofVectors (modulus multiplicity : Nat) (vectors : List (List Int)) : SolutionSet :=
  ⟨modulus, multiplicity, dropRepeats (vectors.mergeSort inOrder)⟩

/-- Looks a vector up in an ascending list; it cannot stand behind a greater one. -/
def lookup (x : List Int) : List (List Int) → Bool
  | [] => false
  | y :: rest => if y < x then lookup x rest else x = y

def contains (s : SolutionSet) (x : List Int) : Bool := lookup x s.solutions

def size (s : SolutionSet) : Nat := s.solutions.length

def isEmpty (s : SolutionSet) : Bool := s.solutions.isEmpty

end SolutionSet

end LinearCongruence
