import LinearCongruence.Proofs.Solver.Verdict
/-!
# Correctness of a solve

What the answer to a system says about its solutions. Main facts:

* `solve_exact` : an accepted system is answered by all of its solutions, each once;
* `solve_decides` : a system without solutions is recognised as such, and no other one is;
* `solve_of_unique` : a system with one solution is answered by it, whatever the limit.
-/

namespace LinearCongruence.Solver

open Augmented Tableau

variable {solver : Solver} {matrix : Augmented} {n : Nat}

/-! ## Accepted systems -/

/-- The ascending list of all solutions answers an accepted system. -/
theorem solve_exact (solver : Solver) (matrix : Augmented) (n : Nat) (s : SolutionSet)
    (hvalid : solver.ring.Valid) (hmatrix : WellFormed matrix n)
    (hsolve : solver.solve matrix = .ok s) :
    s.solutions ≠ [] ∧ s.solutions.Pairwise (· < ·) ∧
      ∀ x, x ∈ s.solutions ↔ IsSolution solver.ring.modulus n matrix x := by
  have hended := solve_ok hvalid hmatrix
  rw [hsolve] at hended
  cases hended with
  | collected t form _ hcollected =>
      cases hcollected with
      | solved vectors hne hmem hle =>
          refine ⟨?_, SolutionSet.pairwise_ofVectors _ _ _, ?_⟩
          · obtain ⟨x, hx⟩ := List.exists_mem_of_ne_nil vectors hne
            exact List.ne_nil_of_mem ((SolutionSet.mem_ofVectors _ _ _).2 hx)
          · intro x
            rw [SolutionSet.mem_ofVectors, hmem]

theorem solve_exact_mod_six :
    [[2, 1], [2, 3], [2, 5], [5, 1], [5, 3], [5, 5]] ≠ ([] : List (List Int)) ∧
      [[2, 1], [2, 3], [2, 5], [5, 1], [5, 3], [5, 5]].Pairwise (fun x y : List Int => x < y) ∧
      ∀ x, x ∈ [[2, 1], [2, 3], [2, 5], [5, 1], [5, 3], [5, 5]] ↔
        IsSolution 6 2 [[2, 3, 1], [4, 0, 2]] x :=
  solve_exact ⟨⟨6⟩, ⟨100, true⟩⟩ [[2, 3, 1], [4, 0, 2]] 2
    ⟨6, 12, [[2, 1], [2, 3], [2, 5], [5, 1], [5, 3], [5, 5]]⟩ (by decide)
    ⟨by decide, by decide, by decide⟩ (by cbv)

/-! ## Systems without solutions -/

theorem Ended.solvable {s : SolutionSet} (hended : Ended solver matrix n (.ok s)) :
    ∃ x, IsSolution solver.ring.modulus n matrix x := by
  cases hended with
  | collected t form _ hcollected =>
      cases hcollected with
      | solved vectors hne hmem hle =>
          obtain ⟨x, hx⟩ := List.exists_mem_of_ne_nil vectors hne
          exact ⟨x, (hmem x).1 hx⟩

theorem Ended.unsolvable {e : Refusal} (hended : Ended solver matrix n (.error (.refused e)))
    (he : (∃ row, e = .rankMismatch row) ∨ ∃ column, e = .noValueAtColumn column) :
    ¬∃ x, IsSolution solver.ring.modulus n matrix x := by
  rw [not_exists]
  rcases he with ⟨row, rfl⟩ | ⟨column, rfl⟩
  · cases hended with
    | collected t form _ hcollected =>
        cases hcollected with
        | rankMismatch _ hnone => exact hnone
  · cases hended with
    | collected t form _ hcollected =>
        cases hcollected with
        | noValueAtColumn _ hnone => exact hnone

theorem Ended.decided {outcome : Outcome SolutionSet} (hended : Ended solver matrix n outcome)
    (hfree : solver.options.freeColumns = true)
    (hlimit : solver.options.maxSolutions = Word.greatestUnsigned) :
    (∃ s, outcome = .ok s) ∨ ∃ e, outcome = .error (.refused e) ∧
      ((∃ row, e = .rankMismatch row) ∨ ∃ column, e = .noValueAtColumn column) := by
  cases hended with
  | noPivot t i form hi hnotFree hdiagonal =>
      rw [hfree] at hnotFree
      cases hnotFree
  | collected t form _ hcollected =>
      cases hcollected with
      | rankMismatch row hnone => exact .inr ⟨_, rfl, .inl ⟨row, rfl⟩⟩
      | tooManySolutions hover =>
          -- The bound is a word itself, so that it cannot exceed the greatest limit.
          rw [hlimit] at hover
          exact absurd hover (Nat.not_lt.2 (Nat.min_le_right _ _))
      | noValueAtColumn column hnone => exact .inr ⟨_, rfl, .inr ⟨column, rfl⟩⟩
      | solved vectors hne hmem hle => exact .inl ⟨_, rfl⟩

/-- A refusal for want of a solution is right, whatever the options. Where every column may
be left free and the limit is the greatest there is, a system is solved or so refused. -/
theorem solve_decides (ring : ResidueRing) (matrix : Augmented) (n : Nat) (hvalid : ring.Valid)
    (hmatrix : WellFormed matrix n) :
    (∀ options e, Solver.solve ⟨ring, options⟩ matrix = .error (.refused e) →
      ((∃ row, e = .rankMismatch row) ∨ ∃ column, e = .noValueAtColumn column) →
        ¬∃ x, IsSolution ring.modulus n matrix x) ∧
    ((∃ s, Solver.solve ⟨ring, ⟨Word.greatestUnsigned, true⟩⟩ matrix = .ok s) ↔
      ∃ x, IsSolution ring.modulus n matrix x) ∧
    ((∃ e, Solver.solve ⟨ring, ⟨Word.greatestUnsigned, true⟩⟩ matrix = .error (.refused e) ∧
      ((∃ row, e = .rankMismatch row) ∨ ∃ column, e = .noValueAtColumn column)) ↔
        ¬∃ x, IsSolution ring.modulus n matrix x) := by
  have hended (options : Options) :
      Ended ⟨ring, options⟩ matrix n (Solver.solve ⟨ring, options⟩ matrix) :=
    solve_ok hvalid hmatrix
  have hunsolvable (options : Options) (e : Refusal)
      (hsolve : Solver.solve ⟨ring, options⟩ matrix = .error (.refused e))
      (he : (∃ row, e = .rankMismatch row) ∨ ∃ column, e = .noValueAtColumn column) :
      ¬∃ x, IsSolution ring.modulus n matrix x :=
    (hsolve ▸ hended options).unsolvable he
  have hsolvable (s : SolutionSet)
      (hsolve : Solver.solve ⟨ring, ⟨Word.greatestUnsigned, true⟩⟩ matrix = .ok s) :
      ∃ x, IsSolution ring.modulus n matrix x :=
    (hsolve ▸ hended _).solvable
  have hdecided := (hended ⟨Word.greatestUnsigned, true⟩).decided rfl rfl
  refine ⟨hunsolvable, ?_, ?_⟩
  · constructor
    · rintro ⟨s, hsolve⟩
      exact hsolvable s hsolve
    · intro hx
      rcases hdecided with hok | ⟨e, hsolve, he⟩
      · exact hok
      · exact absurd hx (hunsolvable _ e hsolve he)
  · constructor
    · rintro ⟨e, hsolve, he⟩
      exact hunsolvable _ e hsolve he
    · intro hnone
      rcases hdecided with ⟨s, hsolve⟩ | hrefused
      · exact absurd (hsolvable s hsolve) hnone
      · exact hrefused

theorem solve_decides_mod_four :
    (¬∃ x, IsSolution 4 2 [[2, 2, 1], [0, 1, 3]] x) ∧
      ∃ s, Solver.solve ⟨⟨4⟩, ⟨Word.greatestUnsigned, true⟩⟩ [[2, 2, 2], [0, 1, 3]] = .ok s := by
  constructor
  · have h := solve_decides ⟨4⟩ [[2, 2, 1], [0, 1, 3]] 2 (by decide)
      ⟨by decide, by decide, by decide⟩
    exact h.1 .standard (.noValueAtColumn 1) (by cbv) (.inr ⟨1, rfl⟩)
  · have h := solve_decides ⟨4⟩ [[2, 2, 2], [0, 1, 3]] 2 (by decide)
      ⟨by decide, by decide, by decide⟩
    exact h.2.1.2 ⟨[0, 3], ⟨by decide, by decide⟩, by decide⟩

/-! ## Systems with one solution -/

theorem Ended.unique {outcome : Outcome SolutionSet} (hended : Ended solver matrix n outcome)
    (hlimit : 1 ≤ solver.options.maxSolutions) {x : List Int}
    (hunique : ∀ y, IsSolution solver.ring.modulus n matrix y ↔ y = x) :
    outcome = .ok ⟨solver.ring.modulus, 1, [x]⟩ := by
  have hbound {t : Tableau} (form : TriangularForm solver.ring matrix n t) :
      min (bound t) Word.greatestUnsigned = 1 := by
    have hone : bound t = 1 := Finset.prod_eq_one fun c hc =>
      form.gcdOf_diagonal_of_unique hunique (Finset.mem_range.1 hc)
    rw [hone]
    decide
  have hx := (hunique x).2 rfl
  cases hended with
  | noPivot t i form hi hnotFree hdiagonal =>
      exact absurd (form.gcdOf_diagonal_of_unique hunique (form.unknowns_eq.symm ▸ hi)) hdiagonal
  | collected t form _ hcollected =>
      cases hcollected with
      | rankMismatch row hnone => exact absurd hx (hnone x)
      | tooManySolutions hover =>
          rw [hbound form] at hover
          omega
      | noValueAtColumn column hnone => exact absurd hx (hnone x)
      | solved vectors hne hmem hle =>
          have hlist : (SolutionSet.ofVectors solver.ring.modulus
              (min (bound t) Word.greatestUnsigned) vectors).solutions = [x] := by
            apply SolutionSet.eq_singleton_of_pairwise (SolutionSet.pairwise_ofVectors _ _ _)
            intro y
            rw [SolutionSet.mem_ofVectors, hmem, hunique]
          rw [hbound form] at hlist ⊢
          rw [← hlist]
          rfl

theorem Ended.size_eq_one {s : SolutionSet} (hended : Ended solver matrix n (.ok s))
    (hone : s.multiplicity = 1) : s.size = 1 := by
  cases hended with
  | collected t form _ hcollected =>
      cases hcollected with
      | solved vectors hne hmem hle =>
          have hgreatest : 1 < Word.greatestUnsigned := by decide
          have hbound : min (bound t) Word.greatestUnsigned = 1 := hone
          have hsize := SolutionSet.size_ofVectors_le solver.ring.modulus
            (min (bound t) Word.greatestUnsigned) vectors
          obtain ⟨x, hx⟩ := List.exists_mem_of_ne_nil vectors hne
          have hpos : 0 < (SolutionSet.ofVectors solver.ring.modulus
              (min (bound t) Word.greatestUnsigned) vectors).size :=
            List.length_pos_of_mem ((SolutionSet.mem_ofVectors _ _ _).2 hx)
          omega

/-- A system with one solution is answered by it under every limit but zero, and where the
answer says that there is one at most, it lists one. -/
theorem solve_of_unique (solver : Solver) (matrix : Augmented) (n : Nat)
    (hvalid : solver.ring.Valid) (hmatrix : WellFormed matrix n) :
    (1 ≤ solver.options.maxSolutions →
      ∀ x, (∀ y, IsSolution solver.ring.modulus n matrix y ↔ y = x) →
        solver.solve matrix = .ok ⟨solver.ring.modulus, 1, [x]⟩) ∧
    ∀ s, solver.solve matrix = .ok s → s.multiplicity = 1 → s.size = 1 := by
  have hended := solve_ok hvalid hmatrix
  constructor
  · intro hlimit x hunique
    exact hended.unique hlimit hunique
  · intro s hsolve hone
    rw [hsolve] at hended
    exact hended.size_eq_one hone

theorem solve_of_unique_mod_six :
    Solver.solve ⟨⟨6⟩, ⟨1, false⟩⟩ [[2, 2], [3, 3]] = .ok ⟨6, 1, [[1]]⟩ ∧
      SolutionSet.size ⟨6, 1, [[1]]⟩ = 1 := by
  have h := solve_of_unique ⟨⟨6⟩, ⟨1, false⟩⟩ [[2, 2], [3, 3]] 1 (by decide)
    ⟨by decide, by decide, by decide⟩
  have hunique (y : List Int) : IsSolution 6 1 [[2, 2], [3, 3]] y ↔ y = [1] := by
    constructor
    · rintro ⟨⟨hlen, hrange⟩, hholds⟩
      obtain ⟨v, rfl⟩ := List.length_eq_one_iff.1 hlen
      have hv := hrange v (by simp)
      have htwo : (6 : Int) ∣ 2 * v + 0 - 2 := hholds [2, 2] (by simp)
      have hthree : (6 : Int) ∣ 3 * v + 0 - 3 := hholds [3, 3] (by simp)
      rw [show v = 1 by omega]
    · rintro rfl
      exact ⟨⟨by decide, by decide⟩, by decide⟩
  exact ⟨h.1 (by decide) [1] hunique, h.2 _ (by cbv) (by decide)⟩

end LinearCongruence.Solver
