import LinearCongruence.Proofs.SolutionSet
import LinearCongruence.Proofs.Json.Forms
/-!
# Round trips

Rings, options, solvers and solution sets are read back from the texts that they are written to,
whatever words they hold. A ring need not be valid for that, and vectors may come in any order.
Main facts:

* `Restores.read` : from a value over its form and its text back to the value;
* `restores` : the forms of rings, options, solvers and sets, one lemma for each;
* `forms_round_trip` : their texts, and texts of vectors in any order.
-/

namespace LinearCongruence

namespace Json

/-- The form of `x` is read as `x`. It holds no escapes, so that its text holds it. -/
structure Restores {α : Type} (toJson : α → Json) (ofJson? : Json → Option α) (x : α) : Prop where
  plain : Plain (toJson x)
  ofJson?_toJson : ofJson? (toJson x) = some x

theorem Restores.read {α : Type} {toJson : α → Json} {ofJson? : Json → Option α} {x : α}
    (h : Restores toJson ofJson? x) : (parse (toJson x).toText).bind ofJson? = some x := by
  rw [parse_toText h.plain, Option.bind_some, h.ofJson?_toJson]

end Json

open Json

/-! ## The forms -/

theorem ResidueRing.restores {ring : ResidueRing} (h : ring.modulus ≤ Word.greatestUnsigned) :
    Restores toJson ofJson? ring where
  plain := by
    apply plain_ofFields (show _ = ["modulus"] from rfl) (by decide)
    rw [List.forall_mem_singleton]
    exact Plain.integer ring.modulus
  ofJson?_toJson := by
    have hfields : ring.toJson.record? ["modulus"] = some [some (.ofNat ring.modulus)] :=
      record?_ofFields rfl (by decide) (by decide)
    rw [ofJson?, hfields]
    simp [unsigned?_ofNat h]

theorem Options.restores {options : Options} (h : options.maxSolutions ≤ Word.greatestUnsigned) :
    Restores toJson ofJson? options where
  plain := by
    apply plain_ofFields (show _ = ["max_solutions", "free_columns"] from rfl) (by decide)
    rw [List.forall_mem_cons, List.forall_mem_singleton]
    exact ⟨Plain.integer options.maxSolutions, Plain.bool options.freeColumns⟩
  ofJson?_toJson := by
    have hfields : options.toJson.record? ["max_solutions", "free_columns"] =
        some [some (.ofNat options.maxSolutions), some (.bool options.freeColumns)] :=
      record?_ofFields rfl (by decide) (by decide)
    rw [ofJson?, hfields]
    simp [unsigned?_ofNat h, bool?]

theorem Solver.restores {solver : Solver} (hmodulus : solver.ring.modulus ≤ Word.greatestUnsigned)
    (hmaxSolutions : solver.options.maxSolutions ≤ Word.greatestUnsigned) :
    Restores toJson ofJson? solver := by
  have hring := ResidueRing.restores hmodulus
  have hoptions := Options.restores hmaxSolutions
  constructor
  · apply plain_ofFields (show _ = ["ring", "config"] from rfl) (by decide)
    rw [List.forall_mem_cons, List.forall_mem_singleton]
    exact ⟨hring.plain, hoptions.plain⟩
  · have hfields : solver.toJson.record? ["ring", "config"] =
        some [some solver.ring.toJson, some solver.options.toJson] :=
      record?_ofFields rfl (by decide) (by decide)
    rw [ofJson?, hfields]
    simp [hring.ofJson?_toJson, hoptions.ofJson?_toJson]

namespace SolutionSet

variable {modulus multiplicity : Nat} {vectors : List (List Int)}

theorem ofVectors_solutions (modulus multiplicity : Nat) (vectors : List (List Int)) :
    ofVectors modulus multiplicity (ofVectors modulus multiplicity vectors).solutions =
      ofVectors modulus multiplicity vectors :=
  ofVectors_congr modulus multiplicity vectors fun _ => mem_ofVectors modulus multiplicity vectors

theorem restores (hmodulus : modulus ≤ Word.greatestUnsigned)
    (hmultiplicity : multiplicity ≤ Word.greatestUnsigned)
    (hvectors : ∀ vector ∈ vectors, ∀ v ∈ vector, Word.Fits v) :
    Restores toJson ofJson? (ofVectors modulus multiplicity vectors) where
  plain := plain_formOf _ _ _
  ofJson?_toJson := by
    have hgives : Gives (ofVectors modulus multiplicity vectors).toJson modulus multiplicity
        (ofVectors modulus multiplicity vectors).solutions := by
      apply gives_formOf hmodulus hmultiplicity
      intro vector hvector
      exact hvectors vector ((mem_ofVectors modulus multiplicity vectors).1 hvector)
    rw [ofJson?_eq_some_iff]
    exact ⟨_, _, _, hgives, (ofVectors_solutions modulus multiplicity vectors).symm⟩

def rewrite? (text : String) : Option String :=
  ((parse text).bind ofJson?).map fun s => s.toJson.toText

theorem rewrite?_of_read {text : String} {s : SolutionSet}
    (h : (parse text).bind ofJson? = some s) : rewrite? text = some s.toJson.toText := by
  rw [rewrite?, h]
  rfl

end SolutionSet

/-! ## Round trips -/

open SolutionSet in
/-- What is written is read again, for all words: rings, options, solvers and sets. Vectors that a
text gives in any order, with any repeats, are read as their set, whose text is written again as it
stands. -/
theorem forms_round_trip :
    (∀ ring : ResidueRing, ring.modulus ≤ Word.greatestUnsigned →
      (parse ring.toJson.toText).bind ResidueRing.ofJson? = some ring) ∧
    (∀ options : Options, options.maxSolutions ≤ Word.greatestUnsigned →
      (parse options.toJson.toText).bind Options.ofJson? = some options) ∧
    (∀ solver : Solver, solver.ring.modulus ≤ Word.greatestUnsigned →
      solver.options.maxSolutions ≤ Word.greatestUnsigned →
      (parse solver.toJson.toText).bind Solver.ofJson? = some solver) ∧
    (∀ modulus multiplicity vectors, modulus ≤ Word.greatestUnsigned →
      multiplicity ≤ Word.greatestUnsigned → (∀ vector ∈ vectors, ∀ v ∈ vector, Word.Fits v) →
      (parse (ofVectors modulus multiplicity vectors).toJson.toText).bind SolutionSet.ofJson? =
        some (ofVectors modulus multiplicity vectors) ∧
      (parse (formOf modulus multiplicity vectors).toText).bind SolutionSet.ofJson? =
        some (ofVectors modulus multiplicity vectors)) ∧
    ∀ text json modulus multiplicity vectors, parse text = some json →
      Gives json modulus multiplicity vectors →
      (parse text).bind SolutionSet.ofJson? = some (ofVectors modulus multiplicity vectors) ∧
      rewrite? text = some (ofVectors modulus multiplicity vectors).toJson.toText ∧
      rewrite? (ofVectors modulus multiplicity vectors).toJson.toText =
        some (ofVectors modulus multiplicity vectors).toJson.toText := by
  refine ⟨fun ring h => (ResidueRing.restores h).read, fun options h => (Options.restores h).read,
    fun solver hmodulus hmax => (Solver.restores hmodulus hmax).read, ?_, ?_⟩
  · intro modulus multiplicity vectors hmodulus hmultiplicity hvectors
    exact ⟨(SolutionSet.restores hmodulus hmultiplicity hvectors).read,
      read_formOf hmodulus hmultiplicity hvectors⟩
  · intro text json modulus multiplicity vectors hjson hgives
    obtain ⟨hmodulus, hmultiplicity, hvectors⟩ := hgives.range
    have hread : (parse text).bind SolutionSet.ofJson? =
        some (ofVectors modulus multiplicity vectors) := by
      rw [hjson, Option.bind_some, ofJson?_eq_some_iff]
      exact ⟨_, _, _, hgives, rfl⟩
    have hagain := (SolutionSet.restores hmodulus hmultiplicity hvectors).read
    exact ⟨hread, rewrite?_of_read hread, rewrite?_of_read hagain⟩

/-- The greatest modulus of all, which no ring may have, and the extreme words in a set with an
empty vector that is given twice. -/
theorem forms_round_trip_of_extremes :
    (parse ("\x7b\"ring\":\x7b\"modulus\":18446744073709551615\x7d," ++
      "\"config\":\x7b\"max_solutions\":0,\"free_columns\":true\x7d\x7d")).bind Solver.ofJson? =
      some ⟨⟨18446744073709551615⟩, ⟨0, true⟩⟩ ∧
    SolutionSet.rewrite? ("\x7b\"modulus\":18446744073709551615,\"multiplicity\":0," ++
      "\"solutions\":[[9223372036854775807,-9223372036854775808],[],[]]\x7d") =
      some ("\x7b\"modulus\":18446744073709551615,\"multiplicity\":0," ++
        "\"solutions\":[[],[9223372036854775807,-9223372036854775808]]\x7d") := by
  obtain ⟨-, -, hsolver, -, htext⟩ := forms_round_trip
  constructor
  · exact hsolver ⟨⟨18446744073709551615⟩, ⟨0, true⟩⟩ (by decide) (by decide)
  · have hsolutions : (SolutionSet.ofVectors 18446744073709551615 0
        [[9223372036854775807, -9223372036854775808], [], []]).solutions =
        [[], [9223372036854775807, -9223372036854775808]] := by
      apply SolutionSet.eq_of_pairwise (SolutionSet.pairwise_ofVectors _ _ _) (by decide)
      intro x
      rw [SolutionSet.mem_ofVectors]
      simp only [List.mem_cons, List.not_mem_nil, or_false]
      tauto
    have hjson := parse_toText (SolutionSet.plain_formOf 18446744073709551615 0
      [[9223372036854775807, -9223372036854775808], [], []])
    have hgives : SolutionSet.Gives _ 18446744073709551615 0
        [[9223372036854775807, -9223372036854775808], [], []] :=
      SolutionSet.gives_formOf (by decide) (by decide) (by decide)
    obtain ⟨-, hwritten, -⟩ := htext _ _ _ _ _ hjson hgives
    rw [SolutionSet.toJson, hsolutions] at hwritten
    exact hwritten

end LinearCongruence
