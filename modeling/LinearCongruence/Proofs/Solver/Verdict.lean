import LinearCongruence.Proofs.SolutionSet
import LinearCongruence.Proofs.Tableau.Sweep
import LinearCongruence.Proofs.Tableau.Enumeration
import LinearCongruence.Proofs.Tableau.Triangular
import LinearCongruence.Proofs.Tableau.Uniqueness
import LinearCongruence.Solver
/-!
# The outcome of a solve

A sweep leaves a triangular form of the system, whether it stops or not. Collecting the
solutions of such a form ends in one of four ways, and each says something about the
solutions of the system. Main facts:

* `isSolution_iff_solvesFrom` : the solutions of a system in its triangular form;
* `collect_ok` : the ways in which collecting ends;
* `solve_ok` : the ways in which a solve ends.
-/

namespace LinearCongruence

open Augmented Tableau

variable {ring : ResidueRing} {matrix : Augmented} {n : Nat} {t : Tableau}

/-- A tableau in work for the matrix all of whose columns are cleared. -/
structure Tableau.TriangularForm (ring : ResidueRing) (matrix : Augmented) (n : Nat)
    (t : Tableau) : Prop extends WorkingForm ring matrix n t where
  cleared : t.Cleared t.unknowns

namespace Tableau.TriangularForm

theorem consistent_of_isSolution (h : TriangularForm ring matrix n t) {x : List Int}
    (hx : IsSolution ring.modulus n matrix x) : t.Consistent := by
  obtain ⟨-, hres, hsolves⟩ := h.isSolution_iff.1 hx
  exact h.reduced.consistent_of_solves h.cleared hres.length_eq hsolves

theorem isSolution_iff_solvesFrom (h : TriangularForm ring matrix n t)
    (hconsistent : t.Consistent) {x : List Int} :
    IsSolution ring.modulus n matrix x ↔
      x.length = t.unknowns ∧ t.SolvesFrom 0 (t.arrange x) := by
  rw [h.isSolution_iff]
  constructor
  · rintro ⟨hlen, hres, hsolves⟩
    exact ⟨hlen, (h.reduced.solves_iff_solvesFrom h.cleared hconsistent hres).1 hsolves⟩
  · rintro ⟨hlen, hfrom⟩
    exact ⟨hlen, hfrom.1, (h.reduced.solves_iff_solvesFrom h.cleared hconsistent hfrom.1).2 hfrom⟩

theorem gcdOf_diagonal_of_unique (h : TriangularForm ring matrix n t) {x : List Int}
    (hunique : ∀ y, IsSolution ring.modulus n matrix y ↔ y = x) {c : Nat} (hc : c < t.unknowns) :
    t.gcdOf ⟨c, c⟩ = 1 := by
  refine h.reduced.gcdOf_diagonal_of_unique h.cleared
    (h.bijOn_arrange.mapsTo ((hunique x).2 rfl)) ?_ hc
  intro y hy
  obtain ⟨x', hx', rfl⟩ := h.bijOn_arrange.surjOn hy
  rw [(hunique x').1 hx']

end Tableau.TriangularForm

theorem Tableau.SweptTo.triangularForm (h : ring.Valid) (hmatrix : WellFormed matrix n)
    {stop : Option Nat} (ht : SweptTo (padded ring matrix n) n t stop) :
    TriangularForm ring matrix n t := by
  have form := (workingForm_padded h hmatrix).of_steps ht.steps
  exact ⟨form, form.unknowns_eq.symm ▸ ht.cleared⟩

namespace Solver

variable {solver : Solver}

def bound (t : Tableau) : Nat := ∏ c ∈ Finset.range t.unknowns, t.gcdOf ⟨c, c⟩

inductive Collected (solver : Solver) (matrix : Augmented) (n : Nat) (t : Tableau) :
    Outcome SolutionSet → Prop
  | rankMismatch (row : Nat)
      (none : ∀ x, ¬IsSolution solver.ring.modulus n matrix x) :
      Collected solver matrix n t (.error (.refused (.rankMismatch row)))
  | tooManySolutions
      (limit : solver.options.maxSolutions < min (bound t) Word.greatestUnsigned) :
      Collected solver matrix n t (.error (.refused (.tooManySolutions
        (min (bound t) Word.greatestUnsigned) solver.options.maxSolutions)))
  | noValueAtColumn (column : Nat)
      (none : ∀ x, ¬IsSolution solver.ring.modulus n matrix x) :
      Collected solver matrix n t (.error (.refused (.noValueAtColumn column)))
  | solved (vectors : List (List Int)) (nonempty : vectors ≠ [])
      (mem_iff : ∀ x, x ∈ vectors ↔ IsSolution solver.ring.modulus n matrix x)
      (length_le : vectors.length ≤ bound t) :
      Collected solver matrix n t (.ok (.ofVectors solver.ring.modulus
        (min (bound t) Word.greatestUnsigned) vectors))

theorem collect_ok (h : TriangularForm solver.ring matrix n t) :
    Collected solver matrix n t (solver.collect t) := by
  unfold collect
  rcases h.reduced.checkRedundant_ok h.cleared with ⟨hcheck, hconsistent⟩ | ⟨r, hcheck, hr, hne⟩
  · rw [hcheck, Checked.lift_refusal_ok, Checked.ok_bind, h.reduced.multiplicity_ok,
      Checked.lift_ok, Checked.ok_bind]
    by_cases hlimit : solver.options.maxSolutions < min (bound t) Word.greatestUnsigned
    · rw [← bound, if_pos hlimit]
      exact .tooManySolutions hlimit
    · rw [← bound, if_neg hlimit]
      rcases h.reduced.solutions_ok with ⟨xs, hsolutions, hxs, hmem, hlen⟩ | ⟨c, herror, hnone⟩
      · rw [hsolutions, Checked.ok_bind]
        refine .solved xs hxs ?_ hlen
        intro x
        rw [hmem, h.isSolution_iff_solvesFrom hconsistent]
      · rw [herror, Checked.error_bind]
        refine .noValueAtColumn c ?_
        intro x hx
        exact hnone _ ((h.isSolution_iff_solvesFrom hconsistent).1 hx).2
  · rw [hcheck, Checked.lift_refusal_error, Checked.error_bind]
    refine .rankMismatch r ?_
    intro x hx
    exact hne (h.consistent_of_isSolution hx r hr)

/-- The ways in which the solve of a system ends: with a column that may not be left free, or
with what is collected from a triangular form. -/
inductive Ended (solver : Solver) (matrix : Augmented) (n : Nat) : Outcome SolutionSet → Prop
  | noPivot (t : Tableau) (i : Nat) (form : TriangularForm solver.ring matrix n t)
      (hi : i < n) (notFree : solver.options.freeColumns = false)
      (diagonal : t.gcdOf ⟨i, i⟩ ≠ 1) :
      Ended solver matrix n (.error (.refused (.noPivot i)))
  | collected (t : Tableau) (form : TriangularForm solver.ring matrix n t)
      (outcome : Outcome SolutionSet) (collected : Collected solver matrix n t outcome) :
      Ended solver matrix n outcome

theorem triangularForm_of_swept (h : ring.Valid) (hmatrix : WellFormed matrix n)
    {freeColumns : Bool} {s : Sweep} (hs : Swept freeColumns (padded ring matrix n) n s) :
    TriangularForm ring matrix n s.tableau := by
  have ht := workingForm_padded h hmatrix
  cases hs with
  | done u hsteps hcleared =>
      have hu := ht.of_steps hsteps
      exact ⟨hu, hu.unknowns_eq.symm ▸ hcleared⟩
  | stuck u i hi hfree hsteps hcleared hnone =>
      exact ⟨ht.of_steps hsteps, hnone.cleared hcleared⟩

theorem solve_eq (solver : Solver) (h : solver.ring.Valid) (hmatrix : WellFormed matrix n)
    {s : Sweep}
    (hsweep : (padded solver.ring matrix n).triangularize solver.options.freeColumns = .ok s) :
    solver.solve matrix =
      match s.stopped with
      | some refusal => .error (.refused refusal)
      | none => solver.collect s.tableau := by
  unfold solve
  rw [ofAugmented_eq_padded h hmatrix, Checked.ok_bind, hsweep, Checked.lift_ok, Checked.ok_bind]
  rfl

/-- A solve is a sweep and what is made of its end. -/
theorem solve_swept (solver : Solver) (h : solver.ring.Valid) (hmatrix : WellFormed matrix n) :
    ∃ s, (padded solver.ring matrix n).triangularize solver.options.freeColumns = .ok s ∧
      Swept solver.options.freeColumns (padded solver.ring matrix n) n s ∧
      TriangularForm solver.ring matrix n s.tableau ∧
      solver.solve matrix =
        match s.stopped with
        | some refusal => .error (.refused refusal)
        | none => solver.collect s.tableau := by
  obtain ⟨s, hsweep, hs⟩ :=
    (reduced_padded h hmatrix).sweepTo_ok solver.options.freeColumns (Nat.le_refl _)
  exact ⟨s, hsweep, hs, triangularForm_of_swept h hmatrix hs, solve_eq solver h hmatrix hsweep⟩

theorem solve_strict (solver : Solver) (h : solver.ring.Valid) (hmatrix : WellFormed matrix n)
    (hstrict : solver.options.freeColumns = false) :
    ∃ u stop, SweptTo (padded solver.ring matrix n) n u stop ∧
      solver.solve matrix =
        match stop with
        | some i => .error (.refused (.noPivot i))
        | none => solver.collect u := by
  obtain ⟨u, stop, hu, -, hsweep⟩ := (reduced_padded h hmatrix).sweepTo_both (Nat.le_refl _)
  refine ⟨u, stop, hu, ?_⟩
  rw [solve_eq solver h hmatrix (hstrict ▸ hsweep)]
  cases stop <;> rfl

theorem solve_ok (h : solver.ring.Valid) (hmatrix : WellFormed matrix n) :
    Ended solver matrix n (solver.solve matrix) := by
  obtain ⟨s, -, hs, form, hsolve⟩ := solve_swept solver h hmatrix
  rw [hsolve]
  cases hs with
  | done u hsteps hcleared => exact .collected u form _ (collect_ok form)
  | stuck u i hi hfree hsteps hcleared hnone =>
      have hui : i < u.unknowns := form.unknowns_eq.symm ▸ hi
      obtain ⟨hzero, hmodulus⟩ := hnone ⟨i, i⟩ (form.reduced.mem_block_diagonal hui)
      refine .noPivot u i form hi hfree ?_
      rwa [(form.reduced.valueAt_eq_zero_iff _).1 hzero]

end Solver

end LinearCongruence
