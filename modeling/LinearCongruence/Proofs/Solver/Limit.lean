import LinearCongruence.Proofs.Solver.Multiplicity
/-!
# The limit on the number of solutions

The limit is held against the product of the gcds on the diagonal, before a solution is looked
for. Since no frontier of back-substitution is longer than its part of that product, no more
partial solutions than the limit are ever kept. The product is what is found where no partial
solution is dropped. Main facts:

* `frontier_le_limit` : every frontier of a run that the limit admits;
* `enumeration_within_limit` : the frontiers of any tableau, and those of a solve.
-/

namespace LinearCongruence.Solver

open Augmented Tableau

variable {solver : Solver} {t : Tableau}

theorem bound_eq_pivotProduct (t : Tableau) : bound t = t.pivotProduct 0 := by
  rw [bound, pivotProduct, Finset.range_eq_Ico]

theorem pivotProduct_le_bound (h : t.Rectangular) (col : Nat) :
    t.pivotProduct col ≤ bound t := by
  rw [bound_eq_pivotProduct]
  apply Finset.prod_le_prod_of_subset_of_one_le'
  · exact Finset.Ico_subset_Ico_left (Nat.zero_le col)
  · exact fun c _ _ => (h.gcdOf_bounds ⟨c, c⟩).1

/-- A limit that a word can exceed is held against the product itself. -/
theorem multiplicity_eq_bound (h : t.Reduced) {count : Nat} (hcount : t.multiplicity = .ok count)
    (hlt : count < Word.greatestUnsigned) : count = bound t := by
  rw [h.multiplicity_ok, ← bound, Except.ok.injEq] at hcount
  omega

theorem frontier_le_limit (h : t.Reduced) {count limit : Nat}
    (hcount : t.multiplicity = .ok count) (hle : count ≤ limit)
    (hlimit : limit < Word.greatestUnsigned) {col : Nat} {frontier : List (List Int)}
    (hreached : t.Reaches col frontier) : frontier.length ≤ limit :=
  calc frontier.length
      ≤ t.pivotProduct col := (hreached.spec h.toRectangular h.unknowns_le).length_le
    _ ≤ bound t := pivotProduct_le_bound h.toRectangular col
    _ = count := (multiplicity_eq_bound h hcount (hle.trans_lt hlimit)).symm
    _ ≤ limit := hle

theorem collect_eq_ok {found : SolutionSet} (hcollect : solver.collect t = .ok found) :
    ∃ count xs, t.multiplicity = .ok count ∧ t.solutions = .ok xs ∧
      found = .ofVectors solver.ring.modulus count xs := by
  unfold collect at hcollect
  obtain ⟨-, -, hcollect⟩ := Checked.bind_eq_ok.1 hcollect
  obtain ⟨count, hcount, hcollect⟩ := Checked.bind_eq_ok.1 hcollect
  split at hcollect
  · cases hcollect
  · obtain ⟨xs, hsolutions, hfound⟩ := Checked.bind_eq_ok.1 hcollect
    exact ⟨count, xs, Checked.lift_eq_ok.1 hcount, hsolutions, (Except.ok.inj hfound).symm⟩

/-- As many solutions are found as the diagonal allows exactly where none was dropped. -/
theorem size_eq_bound_iff (h : t.Reduced) {found : SolutionSet}
    (hcollect : solver.collect t = .ok found) : found.size = bound t ↔ t.NoneDropped 0 := by
  obtain ⟨count, xs, -, hsolutions, rfl⟩ := collect_eq_ok hcollect
  rcases h.solutions_reached with
    ⟨ys, xs', hreached, -, hsolutions', -, hnodup, hxs⟩ | ⟨c, -, -, herror⟩
  · cases hsolutions.symm.trans hsolutions'
    have hspec := hreached.spec h.toRectangular h.unknowns_le
    rw [SolutionSet.size_ofVectors _ _ _ hnodup, ← hxs.length_eq, bound_eq_pivotProduct,
      hspec.length_eq_iff]
  · cases hsolutions.symm.trans herror

/-- A frontier of back-substitution is no longer than the product of the gcds of the columns done,
and as long where no partial solution was dropped; a run goes through its frontiers one by one,
comes to every column unless it has ended, and ends where the frontier runs empty. In a solve that
the limit lets pass, no frontier exceeds the limit, and the multiplicity is the number of solutions
where none was dropped. -/
theorem enumeration_within_limit :
    (∀ t : Tableau, t.Rectangular → t.unknowns ≤ t.height →
      (∀ col ≤ t.unknowns, (∃ frontier, t.Reaches col frontier) ∨
        ∃ d, col < d ∧ t.Reaches d []) ∧
      ∀ col frontier, t.Reaches col frontier →
        (frontier ≠ [] → t.extendThrough t.unknowns [[]] = t.extendThrough col frontier) ∧
        (frontier = [] →
          t.extendThrough t.unknowns [[]] = .error (.refused (.noValueAtColumn col))) ∧
        frontier.length ≤ t.pivotProduct col ∧
        (frontier.length = t.pivotProduct col ↔ t.NoneDropped col)) ∧
    ∀ (solver : Solver) (matrix : Augmented) (n : Nat), solver.ring.Valid →
      WellFormed matrix n → solver.options.maxSolutions < Word.greatestUnsigned →
      ∃ t s, ofAugmented solver.ring matrix = .ok t ∧
        t.triangularize solver.options.freeColumns = .ok s ∧
        ∀ count, s.tableau.multiplicity = .ok count → count ≤ solver.options.maxSolutions →
          (∀ col frontier, s.tableau.Reaches col frontier →
            frontier.length ≤ solver.options.maxSolutions) ∧
          ∀ found, solver.solve matrix = .ok found → found.multiplicity = count ∧
            (found.size = found.multiplicity ↔ s.tableau.NoneDropped 0) := by
  constructor
  · intro t ht hheight
    constructor
    · intro col hcol
      rcases ht.exists_reaches hheight hcol with ⟨frontier, hreached, -⟩ | ⟨d, hd, -, hreached⟩
      · exact .inl ⟨frontier, hreached⟩
      · rcases Nat.eq_or_lt_of_le hd with rfl | hlt
        · exact .inl ⟨[], hreached⟩
        · exact .inr ⟨d, hlt, hreached⟩
    · intro col frontier hreached
      have hspec := hreached.spec ht hheight
      refine ⟨hreached.extendThrough_eq, ?_, hspec.length_le, hspec.length_eq_iff⟩
      rintro rfl
      exact hreached.extendThrough_refused
  · intro solver matrix n hvalid hmatrix hlimit
    obtain ⟨s, hsweep, -, form, hsolve⟩ := solve_swept solver hvalid hmatrix
    refine ⟨_, s, ofAugmented_eq_padded hvalid hmatrix, hsweep, ?_⟩
    intro count hcount hle
    refine ⟨fun col frontier => frontier_le_limit form.reduced hcount hle hlimit, ?_⟩
    intro found hfound
    rw [hsolve] at hfound
    cases hstopped : s.stopped with
    | some refusal =>
        rw [hstopped] at hfound
        cases hfound
    | none =>
        rw [hstopped] at hfound
        have hmultiplicity : found.multiplicity = count := by
          obtain ⟨count', xs, hcount', -, rfl⟩ := collect_eq_ok hfound
          exact Except.ok.inj (hcount'.symm.trans hcount)
        refine ⟨hmultiplicity, ?_⟩
        rw [hmultiplicity, multiplicity_eq_bound form.reduced hcount (hle.trans_lt hlimit)]
        exact size_eq_bound_iff form.reduced hfound

theorem enumeration_within_limit_mod_six :
    NoneDropped ⟨⟨6⟩, 2, [[2, 3, 1], [0, 0, 0]], [0, 1]⟩ 1 ∧
      ¬NoneDropped ⟨⟨6⟩, 2, [[2, 3, 1], [0, 0, 0]], [0, 1]⟩ 0 ∧
      ∀ col frontier, Reaches ⟨⟨6⟩, 2, [[2, 3, 1], [0, 0, 0]], [0, 1]⟩ col frontier →
        frontier.length ≤ 12 := by
  obtain ⟨htableau, hsolver⟩ := enumeration_within_limit
  constructor
  · have hreached : Reaches ⟨⟨6⟩, 2, [[2, 3, 1], [0, 0, 0]], [0, 1]⟩ 1
        [[0], [1], [2], [3], [4], [5]] := .extend .start (by decide) (by cbv)
    have hspec := (htableau ⟨⟨6⟩, 2, [[2, 3, 1], [0, 0, 0]], [0, 1]⟩
      ⟨by decide, by decide, by decide⟩ (by decide)).2 1 _ hreached
    exact hspec.2.2.2.1 rfl
  · have hsweep : triangularize ⟨⟨6⟩, 2, [[2, 3, 1], [4, 0, 2]], [0, 1]⟩ true =
        .ok ⟨⟨⟨6⟩, 2, [[2, 3, 1], [0, 0, 0]], [0, 1]⟩, none⟩ := by cbv
    have hpadded : ofAugmented ⟨6⟩ [[2, 3, 1], [4, 0, 2]] =
        .ok ⟨⟨6⟩, 2, [[2, 3, 1], [4, 0, 2]], [0, 1]⟩ := by cbv
    obtain ⟨t, s, ht, hs, hwithin⟩ := hsolver ⟨⟨6⟩, ⟨12, true⟩⟩ [[2, 3, 1], [4, 0, 2]] 2
      (by decide) ⟨by decide, by decide, by decide⟩ (by decide)
    cases ht.symm.trans hpadded
    cases hs.symm.trans hsweep
    obtain ⟨hlength, hsize⟩ := hwithin 12 (by cbv) (by decide)
    obtain ⟨-, hiff⟩ := hsize ⟨6, 12, [[2, 1], [2, 3], [2, 5], [5, 1], [5, 3], [5, 5]]⟩ (by cbv)
    exact ⟨fun hnone => absurd (hiff.2 hnone) (by decide), hlength⟩

end LinearCongruence.Solver
