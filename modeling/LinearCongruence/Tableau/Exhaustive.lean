import LinearCongruence.Tableau.Candidate
/-!
# The exhaustive search

Everything that a search for a pivot could choose from, in the order in which it comes: the
entries of a block, then each entry with each multiple of each row below it, as many as
could lower its gcd. Gcds and entries are those of plain integers, without limits or short
cuts.
-/

namespace LinearCongruence.Tableau

/-- The entry at a position, or zero outside the tableau. -/
def valueAt (t : Tableau) (p : Position) : Int := ((t.rows[p.row]?).getD [])[p.col]?.getD 0

def entryCandidates (t : Tableau) (i j : Nat) : List Candidate :=
  (t.block i j).map fun p => ⟨Int.gcd (t.valueAt p) t.ring.modulus, 0, p, p.row⟩

/-- The entry `a` at `p` with each multiple of the entry `b` below it in row `partner`
added, up to `a / gcd(a, b)` of them. -/
def combinationCandidates (t : Tableau) (p : Position) (partner : Nat) : List Candidate :=
  let a := t.valueAt p
  let b := t.valueAt ⟨partner, p.col⟩
  (List.range (a / Int.gcd a b).toNat).map fun (c : Nat) =>
    ⟨Int.gcd (a + c * b) t.ring.modulus, c, p, partner⟩

def candidates (t : Tableau) (i j : Nat) : List Candidate :=
  t.entryCandidates i j ++
    (t.pairings i j).flatMap fun p => t.combinationCandidates p.1 p.2

/-- The first candidate of least gcd. -/
def firstLeast : List Candidate → Option Candidate
  | [] => none
  | c :: rest =>
    match firstLeast rest with
    | none => some c
    | some least => if least.gcd < c.gcd then some least else some c

end LinearCongruence.Tableau
