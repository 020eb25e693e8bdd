import LinearCongruence.Augmented.Basic
/-!
# Solutions of a system

What it means to solve a system, said over the integers and without its residues: an
equation holds where its two sides differ by a multiple of the modulus.
-/

namespace LinearCongruence.Augmented

/-- The sum of the products of two vectors, as far as both go. -/
def dot : List Int → List Int → Int
  | a :: as, x :: xs => a * x + dot as xs
  | _, _ => 0

def Holds (modulus : Nat) (row x : List Int) : Prop :=
  (modulus : Int) ∣ dot row x - row.getLastD 0

instance (modulus : Nat) (row x : List Int) : Decidable (Holds modulus row x) :=
  inferInstanceAs (Decidable (_ ∣ _))

/-- A matrix of equations in `unknowns` unknowns. -/
structure WellFormed (matrix : Augmented) (unknowns : Nat) : Prop where
  nonempty : matrix ≠ []
  unknowns_pos : 0 < unknowns
  length_eq : ∀ row ∈ matrix, row.length = unknowns + 1

structure IsResidues (modulus count : Nat) (x : List Int) : Prop where
  length_eq : x.length = count
  range : ∀ v ∈ x, 0 ≤ v ∧ v < modulus

/-- A vector of residues at which every equation holds. -/
structure IsSolution (modulus unknowns : Nat) (matrix : Augmented) (x : List Int) : Prop where
  residues : IsResidues modulus unknowns x
  holds : ∀ row ∈ matrix, Holds modulus row x

theorem shape_of_wellFormed {matrix : Augmented} {unknowns : Nat}
    (h : WellFormed matrix unknowns) :
    matrix.shape = .ok ⟨matrix.length, unknowns⟩ := by
  obtain ⟨hne, hpos, hlen⟩ := h
  cases matrix with
  | nil => exact absurd rfl hne
  | cons first rest =>
    have hfirst : first.length = unknowns + 1 := hlen first (by simp)
    have hfind : ((first :: rest).zipIdx.find? fun p => p.1.length ≠ first.length) = none := by
      rw [List.find?_eq_none]
      intro p hp
      have := hlen p.1 (List.fst_mem_of_mem_zipIdx hp)
      simp [this, hfirst]
    rw [shape, if_neg (by omega), hfind, hfirst]
    rfl

theorem wellFormed_of_shape {matrix : Augmented} {shape : Shape}
    (h : matrix.shape = .ok shape) :
    shape.equations = matrix.length ∧ WellFormed matrix shape.unknowns := by
  cases matrix with
  | nil => cases h
  | cons first rest =>
    rw [Augmented.shape] at h
    split at h
    · cases h
    · rename_i hlt
      split at h
      · cases h
      · rename_i hfind
        cases h
        refine ⟨rfl, by simp, by simp only; omega, ?_⟩
        intro row hrow
        rw [List.find?_eq_none] at hfind
        obtain ⟨i, hi, heq⟩ := List.getElem_of_mem hrow
        have hmem : (row, i) ∈ (first :: rest).zipIdx := by
          rw [List.mem_zipIdx_iff_getElem?, List.getElem?_eq_getElem hi, heq]
        have hlen := hfind _ hmem
        simp only [decide_not, Bool.not_eq_eq_eq_not, Bool.not_true, decide_eq_false_iff_not,
          Decidable.not_not] at hlen
        simp only
        omega

end LinearCongruence.Augmented
