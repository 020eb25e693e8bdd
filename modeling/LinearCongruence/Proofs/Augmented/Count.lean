import LinearCongruence.Augmented.Solution
import LinearCongruence.Proofs.SolutionSet
import Mathlib.Data.List.Perm.Lattice
/-!
# The number of solutions

The vectors of residues are finitely many, so that the solutions of a system can be counted
by trying each. Every list of all solutions without repeats is as long.
-/

namespace LinearCongruence.Augmented

variable {modulus n : Nat} {matrix : Augmented} {x : List Int}

def residueVectors (modulus : Nat) : Nat → List (List Int)
  | 0 => [[]]
  | count + 1 => (List.range modulus).flatMap fun (v : Nat) =>
      (residueVectors modulus count).map ((v : Int) :: ·)

/-- The vectors of residues at which every equation holds, found by trying each. -/
def allSolutions (modulus n : Nat) (matrix : Augmented) : List (List Int) :=
  (residueVectors modulus n).filter fun x => ∀ row ∈ matrix, Holds modulus row x

def solutionCount (modulus n : Nat) (matrix : Augmented) : Nat :=
  (allSolutions modulus n matrix).length

theorem mem_residueVectors : x ∈ residueVectors modulus n ↔ IsResidues modulus n x := by
  induction n generalizing x with
  | zero =>
      rw [residueVectors, List.mem_singleton]
      constructor
      · rintro rfl
        exact ⟨rfl, by simp⟩
      · intro hx
        exact List.length_eq_zero_iff.1 hx.length_eq
  | succ n ih =>
      simp only [residueVectors, List.mem_flatMap, List.mem_range, List.mem_map, ih]
      constructor
      · rintro ⟨v, hv, later, hlater, rfl⟩
        refine ⟨by rw [List.length_cons, hlater.length_eq], ?_⟩
        intro w hw
        rcases List.mem_cons.1 hw with rfl | hw
        · exact ⟨Int.natCast_nonneg v, by exact_mod_cast hv⟩
        · exact hlater.range w hw
      · rintro ⟨hlen, hrange⟩
        obtain ⟨w, later, rfl⟩ := List.exists_cons_of_length_eq_add_one hlen
        obtain ⟨hge, hlt⟩ := hrange w (by simp)
        refine ⟨w.toNat, by omega, later, ⟨by simpa using hlen, ?_⟩, ?_⟩
        · exact fun v hv => hrange v (by simp [hv])
        · rw [Int.toNat_of_nonneg hge]

theorem nodup_residueVectors (modulus n : Nat) : (residueVectors modulus n).Nodup := by
  induction n with
  | zero => exact List.nodup_singleton _
  | succ n ih =>
      rw [residueVectors, List.nodup_flatMap]
      constructor
      · intro v _
        exact ih.map (List.cons_injective)
      · apply List.nodup_range.imp
        intro v w hne x hv hw
        obtain ⟨later, -, rfl⟩ := List.mem_map.1 hv
        obtain ⟨later', -, heq⟩ := List.mem_map.1 hw
        exact hne (by exact_mod_cast (List.cons.inj heq).1.symm)

theorem mem_allSolutions : x ∈ allSolutions modulus n matrix ↔ IsSolution modulus n matrix x := by
  rw [allSolutions, List.mem_filter, mem_residueVectors, decide_eq_true_iff]
  exact ⟨fun hx => ⟨hx.1, hx.2⟩, fun hx => ⟨hx.residues, hx.holds⟩⟩

theorem nodup_allSolutions (modulus n : Nat) (matrix : Augmented) :
    (allSolutions modulus n matrix).Nodup :=
  (nodup_residueVectors modulus n).filter _

theorem length_eq_solutionCount {l : List (List Int)} (hnodup : l.Nodup)
    (hmem : ∀ x, x ∈ l ↔ IsSolution modulus n matrix x) :
    l.length = solutionCount modulus n matrix := by
  apply List.Perm.length_eq
  rw [List.perm_ext_iff_of_nodup hnodup (nodup_allSolutions modulus n matrix)]
  intro x
  rw [hmem, mem_allSolutions]

theorem ncard_isSolution (modulus n : Nat) (matrix : Augmented) :
    Set.ncard {x | IsSolution modulus n matrix x} = solutionCount modulus n matrix :=
  SolutionSet.ncard_eq_length (nodup_allSolutions modulus n matrix) fun _ => mem_allSolutions

theorem solutionCount_eq_zero_iff :
    solutionCount modulus n matrix = 0 ↔ ∀ x, ¬IsSolution modulus n matrix x := by
  rw [solutionCount, List.length_eq_zero_iff, List.eq_nil_iff_forall_not_mem]
  simp only [mem_allSolutions]

theorem exists_unique_of_solutionCount (h : solutionCount modulus n matrix = 1) :
    ∃ x, ∀ y, IsSolution modulus n matrix y ↔ y = x := by
  obtain ⟨x, hx⟩ := List.length_eq_one_iff.1 h
  refine ⟨x, fun y => ?_⟩
  rw [← mem_allSolutions, hx, List.mem_singleton]

end LinearCongruence.Augmented
