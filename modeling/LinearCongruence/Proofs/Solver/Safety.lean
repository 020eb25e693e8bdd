import LinearCongruence.Proofs.Solver.Verdict
/-!
# A solve never faults

Over a valid modulus every operation of a solve succeeds, whatever the matrix, and a solve is
refused for reasons that lie in the system only. Main facts:

* `leastSolution?_of_isPivot` : a pivot that a choice accepts clears its column;
* `solve_never_faults` : the ways in which the solve of any matrix ends.
-/

namespace LinearCongruence

open Augmented Tableau

/-- The refusals that lie in the system and in the options of the solve. -/
inductive Refusal.OfSystem : Refusal → Prop
  | dimensionMismatch (text : String) : OfSystem (.dimensionMismatch text)
  | noPivot (step : Nat) : OfSystem (.noPivot step)
  | rankMismatch (row : Nat) : OfSystem (.rankMismatch row)
  | tooManySolutions (count limit : Nat) : OfSystem (.tooManySolutions count limit)
  | noValueAtColumn (column : Nat) : OfSystem (.noValueAtColumn column)

theorem Augmented.shape_refusal {matrix : Augmented} {e : Refusal}
    (h : matrix.shape = .error e) : e.OfSystem := by
  obtain ⟨text, rfl⟩ := exists_text_of_shape_error h
  exact .dimensionMismatch text

namespace Tableau

variable {t u : Tableau} {i : Nat} {p : Position}

theorem ofAugmented_of_shape_error {ring : ResidueRing} {matrix : Augmented} {e : Refusal}
    (h : matrix.shape = .error e) : ofAugmented ring matrix = .error (.refused e) := by
  rw [ofAugmented, h]
  rfl

theorem reduced_of_ofAugmented {ring : ResidueRing} {matrix : Augmented} (hvalid : ring.Valid)
    (h : ofAugmented ring matrix = .ok t) : t.Reduced := by
  cases hshape : matrix.shape with
  | error e =>
      rw [ofAugmented_of_shape_error hshape] at h
      cases h
  | ok shape =>
      have hmatrix := (wellFormed_of_shape hshape).2
      rw [ofAugmented_eq_padded hvalid hmatrix] at h
      cases h
      exact reduced_padded hvalid hmatrix

theorem Reduced.leastSolution?_of_isPivot (h : t.Reduced) (hpivot : IsPivot i i t u p) {k : Nat}
    (hik : i ≤ k) (hk : k < u.height) :
    ∃ pivot target x, u.entryAt p = .ok pivot ∧ u.entry k p.col = .ok target ∧
      u.ring.leastSolution? pivot target = .ok (some x) := by
  have hsteps := hpivot.steps.blockSteps
  have hu := hsteps.reduced h
  have hp : p ∈ u.block i i := (hsteps.sameShape h).block_eq i i ▸ hpivot.mem_block
  obtain ⟨x, hleast, -⟩ :=
    ResidueRing.leastSolution?_of_dvd hu.valid (hpivot.dividesColumn k hik)
  exact ⟨_, _, x, hu.entryAt_eq hp, hu.entry_eq hk (Nat.le_of_lt (mem_block.1 hp).2.2), hleast⟩

end Tableau

namespace Solver

variable {solver : Solver} {matrix : Augmented} {n : Nat}

theorem Ended.refusal {outcome : Outcome SolutionSet} (hended : Ended solver matrix n outcome) :
    (∃ s, outcome = .ok s) ∨ ∃ e, Refusal.OfSystem e ∧ outcome = .error (.refused e) := by
  cases hended with
  | noPivot t i form hi hnotFree hdiagonal => exact .inr ⟨_, .noPivot i, rfl⟩
  | collected t form _ hcollected =>
      cases hcollected with
      | rankMismatch row hnone => exact .inr ⟨_, .rankMismatch row, rfl⟩
      | tooManySolutions hover => exact .inr ⟨_, .tooManySolutions _ _, rfl⟩
      | noValueAtColumn column hnone => exact .inr ⟨_, .noValueAtColumn column, rfl⟩
      | solved vectors hne hmem hle => exact .inl ⟨_, rfl⟩

theorem solve_of_valid (hvalid : solver.ring.Valid) (matrix : Augmented) :
    (∃ s, solver.solve matrix = .ok s) ∨
      ∃ e, Refusal.OfSystem e ∧ solver.solve matrix = .error (.refused e) := by
  cases hshape : matrix.shape with
  | error e =>
      refine .inr ⟨e, shape_refusal hshape, ?_⟩
      unfold solve
      rw [ofAugmented_of_shape_error hshape, Checked.error_bind]
  | ok shape => exact (solve_ok hvalid (wellFormed_of_shape hshape).2).refusal

/-- The solve of any matrix over a valid modulus is answered, or refused for a reason that
lies in the system; and a pivot chosen at any step of its sweep has a multiplier for every
entry of its column from that step's row on. -/
theorem solve_never_faults (solver : Solver) (matrix : Augmented) (hvalid : solver.ring.Valid) :
    ((∃ s, solver.solve matrix = .ok s) ∨
      ∃ e, Refusal.OfSystem e ∧ solver.solve matrix = .error (.refused e)) ∧
    ∀ t, ofAugmented solver.ring matrix = .ok t → ∀ i < t.unknowns, ∀ u,
      t.sweepTo solver.options.freeColumns i = .ok ⟨u, none⟩ →
        ∀ v p, u.choosePivot i i = .ok (v, some p) → ∀ k, i ≤ k → k < v.height →
          ∃ pivot target x, v.entryAt p = .ok pivot ∧ v.entry k p.col = .ok target ∧
            v.ring.leastSolution? pivot target = .ok (some x) := by
  refine ⟨solve_of_valid hvalid matrix, ?_⟩
  intro t htableau i hi u hsweep v p hchoose k hik hk
  have ht := reduced_of_ofAugmented hvalid htableau
  obtain ⟨s, hsweep', hs⟩ := ht.sweepTo_ok solver.options.freeColumns (Nat.le_of_lt hi)
  cases hsweep.symm.trans hsweep'
  cases hs with
  | done _ hsteps hcleared =>
      have hu := hsteps.reduced ht
      rcases hu.choosePivot_ok i i with ⟨hchoose', -⟩ | ⟨v', p', hchoose', hpivot⟩
      · cases hchoose.symm.trans hchoose'
      · cases hchoose.symm.trans hchoose'
        exact hu.leastSolution?_of_isPivot hpivot hik hk

theorem solve_never_faults_mod_six :
    ∃ pivot target x,
      entryAt ⟨⟨6⟩, 1, [[5, 5], [3, 3]], [0]⟩ ⟨0, 0⟩ = .ok pivot ∧
        entry ⟨⟨6⟩, 1, [[5, 5], [3, 3]], [0]⟩ 1 0 = .ok target ∧
          ResidueRing.leastSolution? ⟨6⟩ pivot target = .ok (some x) :=
  (solve_never_faults ⟨⟨6⟩, .standard⟩ [[2, 2], [3, 3]] (by decide)).2
    ⟨⟨6⟩, 1, [[2, 2], [3, 3]], [0]⟩ (by cbv) 0 (by decide) ⟨⟨6⟩, 1, [[2, 2], [3, 3]], [0]⟩ (by cbv)
    ⟨⟨6⟩, 1, [[5, 5], [3, 3]], [0]⟩ ⟨0, 0⟩ (by cbv) 1 (by decide) (by decide)

end Solver

end LinearCongruence
