import LinearCongruence.Proofs.Solver.Multiplicity
import LinearCongruence.Proofs.Tableau.Coefficients
import Mathlib.Data.Int.ModEq
/-!
# Systems with the same coefficients

What a solve does to the coefficients of a system, and how many solutions it finds if it finds
any, does not depend on the right-hand sides: the tableaus of two systems with congruent
coefficients are swept alike, and the solutions of both are shifts by the same kernel. Main
facts:

* `sameCoefficients_padded` : the tableaus of the two systems;
* `coefficients_decide_sweep` : the sweeps and the answers of both.
-/

namespace LinearCongruence

open Augmented Tableau

variable {ring : ResidueRing} {matrix matrix' : Augmented} {n : Nat}

/-- As many equations in both, whose first `n` entries are congruent one by one. -/
def Augmented.CongruentCoefficients (modulus n : Nat) (matrix matrix' : Augmented) : Prop :=
  List.Forall₂ (fun row row' => List.Forall₂ (Int.ModEq modulus) (row.take n) (row'.take n))
    matrix matrix'

namespace Tableau

theorem valueAt_eq_of_map_take {t t' : Tableau}
    (htake : t'.rows.map (·.take n) = t.rows.map (·.take n)) {p : Position} (hp : p.col < n) :
    t'.valueAt p = t.valueAt p := by
  have hread (t : Tableau) :
      t.valueAt p = (((t.rows.map (·.take n))[p.row]?).getD [])[p.col]?.getD 0 := by
    rw [valueAt, List.getElem?_map]
    cases t.rows[p.row]? with
    | none => rfl
    | some row => simp [hp]
  rw [hread t, hread t', htake]

theorem sameCoefficients_padded (h : ring.Valid) (hmatrix : WellFormed matrix n)
    (hmatrix' : WellFormed matrix' n)
    (hcongruent : CongruentCoefficients ring.modulus n matrix matrix') :
    SameCoefficients (padded ring matrix n) (padded ring matrix n) (padded ring matrix' n) := by
  have hlength : matrix.length = matrix'.length := hcongruent.length_eq
  have hrows : matrix.map (fun row => (row.take n).map (· % (ring.modulus : Int))) =
      matrix'.map fun row => (row.take n).map (· % (ring.modulus : Int)) :=
    Checked.map_eq_of_forall₂ hcongruent fun row row' hrow =>
      Checked.map_eq_of_forall₂ hrow fun _ _ hmod => hmod
  have htake : (padded ring matrix' n).rows.map (·.take n) =
      (padded ring matrix n).rows.map (·.take n) := by
    simp only [padded, List.map_append, List.map_map, Function.comp_def, ← List.map_take, hrows,
      hlength]
  refine ⟨reduced_padded h hmatrix, reduced_padded h hmatrix', .refl _, ⟨rfl, rfl, ?_⟩, rfl, ?_⟩
  · simp [padded, height, hlength]
  · exact fun p hp => valueAt_eq_of_map_take htake hp

end Tableau

namespace Solver

/-- The sweeps of two systems with congruent coefficients stop at the same step, if they stop,
and leave the same order of the unknowns and the same coefficients. Where both systems are
answered, as many solutions are found. -/
theorem coefficients_decide_sweep (ring : ResidueRing) (matrix matrix' : Augmented) (n : Nat)
    (hvalid : ring.Valid) (hmatrix : WellFormed matrix n) (hmatrix' : WellFormed matrix' n)
    (hcongruent : CongruentCoefficients ring.modulus n matrix matrix') :
    (∃ t t', ofAugmented ring matrix = .ok t ∧ ofAugmented ring matrix' = .ok t' ∧
      ∀ freeColumns, ∃ u u' stopped multiplicity,
        t.triangularize freeColumns = .ok ⟨u, stopped⟩ ∧
        t'.triangularize freeColumns = .ok ⟨u', stopped⟩ ∧
        (stopped = none ∨ ∃ i, stopped = some (.noPivot i)) ∧
        u'.order = u.order ∧ u'.rows.map (·.take n) = u.rows.map (·.take n) ∧
        u.multiplicity = .ok multiplicity ∧ u'.multiplicity = .ok multiplicity) ∧
    ∀ options found found', Solver.solve ⟨ring, options⟩ matrix = .ok found →
      Solver.solve ⟨ring, options⟩ matrix' = .ok found' →
        found'.size = found.size ∧ found'.multiplicity = found.multiplicity := by
  have ht := reduced_padded hvalid hmatrix
  have same := sameCoefficients_padded hvalid hmatrix hmatrix' hcongruent
  constructor
  · refine ⟨_, _, ofAugmented_eq_padded hvalid hmatrix, ofAugmented_eq_padded hvalid hmatrix', ?_⟩
    intro freeColumns
    obtain ⟨⟨u, stopped⟩, hsweep, hs⟩ := ht.sweepTo_ok freeColumns (Nat.le_refl _)
    have halike := same.triangularize_alike freeColumns
    rw [triangularize_eq_sweepTo, hsweep] at halike
    obtain ⟨⟨u', _⟩, hsweep', hu, rfl⟩ := halike.exists_ok
    refine ⟨u, u', _, _, hsweep, hsweep', ?_, hu.order_eq, hu.map_take_eq, hu.left.multiplicity_ok,
      hu.multiplicity_eq.trans hu.left.multiplicity_ok⟩
    cases hs with
    | done u hsteps hcleared => exact .inl rfl
    | stuck u i hi hfree hsteps hcleared hnone => exact .inr ⟨i, rfl⟩
  · intro options found found' hsolve hsolve'
    obtain ⟨s, hsweep, form, hended⟩ := solve_collected ⟨ring, options⟩ hvalid hmatrix
    obtain ⟨s', hsweep', form', hended'⟩ :=
      solve_collected ⟨ring, options⟩ hvalid hmatrix'
    have halike := same.triangularize_alike options.freeColumns
    rw [hsweep, hsweep'] at halike
    cases halike with
    | ok hs =>
      rw [hsolve] at hended
      rw [hsolve'] at hended'
      rcases hended with ⟨i, ⟨⟩⟩ | hcollected
      rcases hended' with ⟨i, ⟨⟩⟩ | hcollected'
      constructor
      · rw [hcollected.size_eq_card_kernel form, hcollected'.size_eq_card_kernel form',
          hs.coefficients.card_kernel_eq]
      · rw [hcollected.multiplicity_eq, hcollected'.multiplicity_eq, bound, bound,
          hs.coefficients.prod_gcdOf_eq]

theorem coefficients_decide_sweep_mod_six :
    (∃ u, triangularize ⟨⟨6⟩, 2, [[2, 3, 3], [4, 0, 0]], [0, 1]⟩ false =
      .ok ⟨u, some (.noPivot 1)⟩) ∧
    SolutionSet.size ⟨6, 12, [[0, 1], [0, 3], [0, 5], [3, 1], [3, 3], [3, 5]]⟩ =
      SolutionSet.size ⟨6, 12, [[2, 1], [2, 3], [2, 5], [5, 1], [5, 3], [5, 5]]⟩ := by
  have h := coefficients_decide_sweep ⟨6⟩ [[2, 3, 1], [4, 0, 2]] [[8, -3, 3], [4, 6, 0]] 2
    (by decide) ⟨by decide, by decide, by decide⟩ ⟨by decide, by decide, by decide⟩
    (.cons (.cons (by decide) (.cons (by decide) .nil))
      (.cons (.cons (by decide) (.cons (by decide) .nil)) .nil))
  constructor
  · obtain ⟨t, t', ht, ht', hsweeps⟩ := h.1
    have htableau : ofAugmented ⟨6⟩ [[2, 3, 1], [4, 0, 2]] =
        .ok ⟨⟨6⟩, 2, [[2, 3, 1], [4, 0, 2]], [0, 1]⟩ := by cbv
    have htableau' : ofAugmented ⟨6⟩ [[8, -3, 3], [4, 6, 0]] =
        .ok ⟨⟨6⟩, 2, [[2, 3, 3], [4, 0, 0]], [0, 1]⟩ := by cbv
    cases ht.symm.trans htableau
    cases ht'.symm.trans htableau'
    obtain ⟨u, u', stopped, k, hsweep, hsweep', -⟩ := hsweeps false
    have hstop : triangularize ⟨⟨6⟩, 2, [[2, 3, 1], [4, 0, 2]], [0, 1]⟩ false =
        .ok ⟨⟨⟨6⟩, 2, [[2, 3, 1], [0, 0, 0]], [0, 1]⟩, some (.noPivot 1)⟩ := by cbv
    cases hsweep.symm.trans hstop
    exact ⟨u', hsweep'⟩
  · exact (h.2 ⟨100, true⟩ _ _ (by cbv) (by cbv)).1

end Solver

end LinearCongruence
