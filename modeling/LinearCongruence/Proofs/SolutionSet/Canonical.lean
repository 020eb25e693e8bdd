import LinearCongruence.Proofs.SolutionSet
import LinearCongruence.Proofs.Json.Forms
/-!
# Sets are canonical

Whatever the order and the number of times in which vectors are given, and whether they are given
in a list or in a text, they make one and the same set.
-/

namespace LinearCongruence.SolutionSet

structure IsSetOf (vectors : List (List Int)) (s : SolutionSet) : Prop where
  ascending : s.solutions.Pairwise (List.Lex (· < ·))
  mem_iff : ∀ x, x ∈ s.solutions ↔ x ∈ vectors
  contains_iff : ∀ x, s.contains x = true ↔ x ∈ vectors
  size_eq : s.size = {x | x ∈ vectors}.ncard

theorem isSetOf_ofVectors (modulus multiplicity : Nat) (vectors : List (List Int)) :
    IsSetOf vectors (ofVectors modulus multiplicity vectors) where
  ascending := pairwise_ofVectors modulus multiplicity vectors
  mem_iff _ := mem_ofVectors modulus multiplicity vectors
  contains_iff _ := contains_ofVectors modulus multiplicity vectors
  size_eq := size_ofVectors_eq_ncard modulus multiplicity vectors

/-- The set of a list of vectors holds exactly these vectors, in ascending order. Lists of the same
vectors make equal sets, and the list that a set holds makes this set again. A text that gives the
vectors in any order, with any repeats, is read as their set, and nothing else is read. -/
theorem ofVectors_canonical :
    (∀ modulus multiplicity vectors, IsSetOf vectors (ofVectors modulus multiplicity vectors)) ∧
    (∀ modulus multiplicity vectors others,
      ofVectors modulus multiplicity vectors = ofVectors modulus multiplicity others ↔
        ∀ x, x ∈ vectors ↔ x ∈ others) ∧
    (∀ modulus multiplicity vectors,
      ofVectors modulus multiplicity (ofVectors modulus multiplicity vectors).solutions =
        ofVectors modulus multiplicity vectors) ∧
    (∀ modulus multiplicity vectors, modulus ≤ Word.greatestUnsigned →
      multiplicity ≤ Word.greatestUnsigned → (∀ vector ∈ vectors, ∀ v ∈ vector, Word.Fits v) →
      (Json.parse (formOf modulus multiplicity vectors).toText).bind ofJson? =
        some (ofVectors modulus multiplicity vectors)) ∧
    ∀ text s, (Json.parse text).bind ofJson? = some s ↔
      ∃ json modulus multiplicity vectors, Json.parse text = some json ∧
        Gives json modulus multiplicity vectors ∧
        s = ofVectors modulus multiplicity vectors ∧ IsSetOf vectors s := by
  refine ⟨isSetOf_ofVectors, ?_, ?_, ?_, ?_⟩
  · intro modulus multiplicity vectors others
    constructor
    · intro heq x
      rw [← mem_ofVectors modulus multiplicity vectors, heq, mem_ofVectors]
    · exact ofVectors_congr modulus multiplicity others
  · intro modulus multiplicity vectors
    exact ofVectors_congr modulus multiplicity vectors fun x =>
      mem_ofVectors modulus multiplicity vectors
  · intro modulus multiplicity vectors hmodulus hmultiplicity hvectors
    exact read_formOf hmodulus hmultiplicity hvectors
  · intro text s
    rw [Option.bind_eq_some_iff]
    constructor
    · rintro ⟨json, hjson, hs⟩
      obtain ⟨modulus, multiplicity, vectors, hgives, rfl⟩ := ofJson?_eq_some_iff.1 hs
      exact ⟨json, modulus, multiplicity, vectors, hjson, hgives, rfl,
        isSetOf_ofVectors modulus multiplicity vectors⟩
    · rintro ⟨json, modulus, multiplicity, vectors, hjson, hgives, rfl, -⟩
      exact ⟨json, hjson, ofJson?_eq_some_iff.2 ⟨modulus, multiplicity, vectors, hgives, rfl⟩⟩

theorem ofVectors_canonical_of_ragged :
    (Json.parse
      "\x7b\"modulus\":7,\"multiplicity\":3,\"solutions\":[[3,1],[2],[3],[2]]\x7d").bind ofJson? =
      some ⟨7, 3, [[2], [3], [3, 1]]⟩ := by
  obtain ⟨hset, -, -, hread, -⟩ := ofVectors_canonical
  have hheld := hset 7 3 [[3, 1], [2], [3], [2]]
  have hsolutions :
      (ofVectors 7 3 [[3, 1], [2], [3], [2]]).solutions = [[2], [3], [3, 1]] := by
    apply eq_of_pairwise hheld.ascending (by decide)
    intro x
    rw [hheld.mem_iff]
    simp only [List.mem_cons, List.not_mem_nil, or_false]
    tauto
  calc
    _ = (Json.parse (formOf 7 3 [[3, 1], [2], [3], [2]]).toText).bind ofJson? := rfl
    _ = some (ofVectors 7 3 [[3, 1], [2], [3], [2]]) :=
      hread 7 3 _ (by decide) (by decide) (by decide)
    _ = some ⟨7, 3, [[2], [3], [3, 1]]⟩ :=
      congrArg (fun solutions => some (SolutionSet.mk 7 3 solutions)) hsolutions

end LinearCongruence.SolutionSet
