import LinearCongruence.Proofs.Solver.Verdict
/-!
# What the options of a solve decide

The options refuse a system or let it pass, and never change an answer. Free columns do not
change what a sweep leaves, only whether it stops at the first zero on the diagonal; the limit
is compared with the product of the gcds before any solution is listed. Main facts:

* `stop_eq_some_iff` : the step at which a sweep without free columns stops;
* `collect_eq_of_not_gated` : what is collected where the limit lets it pass;
* `options_only_gate` : the sweeps and the solves of one system under all options.
-/

namespace LinearCongruence

open Augmented Tableau

namespace Tableau

variable {t u : Tableau} {stop : Option Nat}

/-- A sweep without free columns stops at the first zero that it leaves on the diagonal. Over
one residue the zero is a unit, and no sweep stops. -/
theorem SweptTo.stop_eq_some_iff (hu : SweptTo t t.unknowns u stop) (h : t.Reduced) (i : Nat) :
    stop = some i ↔ 2 ≤ t.ring.modulus ∧ i < t.unknowns ∧ u.valueAt ⟨i, i⟩ = 0 ∧
      ∀ c < i, u.valueAt ⟨c, c⟩ ≠ 0 := by
  have hpos : 0 < t.ring.modulus := h.valid.1
  have hshape := hu.steps.sameShape h
  -- The step that a sweep stops at has a zero on the diagonal, over more than one residue.
  have hstop (k : Nat) (hk : stop = some k) :
      k < t.unknowns ∧ u.valueAt ⟨k, k⟩ = 0 ∧ t.ring.modulus ≠ 1 := by
    obtain ⟨hlt, hnone⟩ := hu.noPivot k hk
    have hku : k < u.unknowns := hshape.unknowns_eq.symm ▸ hlt
    have hdiagonal := hnone _ ((hu.steps.reduced h).mem_block_diagonal hku)
    rw [hshape.ring_eq] at hdiagonal
    exact ⟨hlt, hdiagonal⟩
  constructor
  · rintro rfl
    obtain ⟨hlt, hzero, hmodulus⟩ := hstop i rfl
    refine ⟨by omega, hlt, hzero, ?_⟩
    intro c hc
    exact (hu.diagonal c hc).resolve_left hmodulus
  · rintro ⟨hmodulus, hlt, hzero, hfirst⟩
    have hle := hu.stop_le_of_diagonal_eq_zero hmodulus hzero
    cases stop with
    | none => exact absurd hlt (Nat.not_lt_of_le hle)
    | some k =>
        replace hle : k ≤ i := hle
        have hge : i ≤ k := Nat.le_of_not_lt fun hki => hfirst k hki (hstop k rfl).2.1
        rw [Nat.le_antisymm hle hge]

end Tableau

namespace Solver

variable {solver solver' : Solver} {matrix : Augmented} {n : Nat} {t : Tableau}

def Gated (outcome : Outcome SolutionSet) : Prop :=
  (∃ step, outcome = .error (.refused (.noPivot step))) ∨
    ∃ count limit, outcome = .error (.refused (.tooManySolutions count limit))

theorem collect_eq_of_not_gated (h : t.Reduced) (hring : solver.ring = solver'.ring)
    (hgate : ¬Gated (solver.collect t)) (hgate' : ¬Gated (solver'.collect t)) :
    solver.collect t = solver'.collect t := by
  unfold collect at hgate hgate' ⊢
  rw [h.multiplicity_ok] at hgate hgate' ⊢
  cases hcheck : t.checkRedundant with
  | error refusal => rfl
  | ok _ =>
      rw [hcheck] at hgate hgate'
      simp only [Checked.lift_ok, Checked.lift_refusal_ok, Checked.ok_bind] at hgate hgate' ⊢
      split at hgate
      · exact absurd (.inr ⟨_, _, rfl⟩) hgate
      · split at hgate'
        · exact absurd (.inr ⟨_, _, rfl⟩) hgate'
        · rename_i hle hle'
          rw [if_neg hle, if_neg hle', hring]

/-- The two sweeps of the tableau of a system leave the same tableau; the one with free
columns never stops, the other one stops exactly at the first zero on the diagonal over more
than one residue. Solves under any options that neither want a pivot nor meet their limit have
the same outcome. -/
theorem options_only_gate (ring : ResidueRing) (matrix : Augmented) (n : Nat)
    (hvalid : ring.Valid) (hmatrix : WellFormed matrix n) :
    (∃ t u stopped, ofAugmented ring matrix = .ok t ∧
      t.triangularize true = .ok ⟨u, none⟩ ∧ t.triangularize false = .ok ⟨u, stopped⟩ ∧
      (stopped = none ∨ ∃ i, stopped = some (.noPivot i)) ∧
      ∀ i, stopped = some (.noPivot i) ↔ 2 ≤ ring.modulus ∧ i < n ∧
        u.valueAt ⟨i, i⟩ = 0 ∧ ∀ c < i, u.valueAt ⟨c, c⟩ ≠ 0) ∧
    ∀ options options', ¬Gated (Solver.solve ⟨ring, options⟩ matrix) →
      ¬Gated (Solver.solve ⟨ring, options'⟩ matrix) →
        Solver.solve ⟨ring, options⟩ matrix = Solver.solve ⟨ring, options'⟩ matrix := by
  have ht := reduced_padded hvalid hmatrix
  obtain ⟨u, stop, hu, hfree, hstrict⟩ := ht.sweepTo_both (Nat.le_refl _)
  constructor
  · refine ⟨_, u, _, ofAugmented_eq_padded hvalid hmatrix, hfree, hstrict, ?_, ?_⟩
    · cases stop with
      | none => exact .inl rfl
      | some i => exact .inr ⟨i, rfl⟩
    · intro i
      refine Iff.trans ?_ (hu.stop_eq_some_iff ht i)
      simp
  · have hsolve (options : Options) (hgate : ¬Gated (Solver.solve ⟨ring, options⟩ matrix)) :
        Solver.solve ⟨ring, options⟩ matrix = Solver.collect ⟨ring, options⟩ u := by
      obtain ⟨limit, freeColumns⟩ := options
      cases freeColumns with
      | true => exact solve_eq ⟨ring, ⟨limit, true⟩⟩ hvalid hmatrix hfree
      | false =>
          have heq := solve_eq ⟨ring, ⟨limit, false⟩⟩ hvalid hmatrix hstrict
          cases stop with
          | none => exact heq
          | some i => exact absurd (.inl ⟨i, heq⟩) hgate
    intro options options' hgate hgate'
    have hcollect := hsolve options hgate
    have hcollect' := hsolve options' hgate'
    rw [hcollect] at hgate ⊢
    rw [hcollect'] at hgate' ⊢
    exact collect_eq_of_not_gated (hu.steps.reduced ht) rfl hgate hgate'

theorem options_only_gate_mod_four :
    triangularize ⟨⟨4⟩, 2, [[2, 2, 2], [0, 0, 0]], [0, 1]⟩ false =
      .ok ⟨⟨⟨4⟩, 2, [[2, 2, 2], [0, 0, 0]], [0, 1]⟩, some (.noPivot 1)⟩ ∧
    Solver.solve ⟨⟨4⟩, ⟨2, false⟩⟩ [[2, 2]] = Solver.solve ⟨⟨4⟩, ⟨100, true⟩⟩ [[2, 2]] := by
  constructor
  · obtain ⟨⟨t, u, stopped, ht, hfree, hstrict, -, hstop⟩, -⟩ :=
      options_only_gate ⟨4⟩ [[2, 2, 2]] 2 (by decide) ⟨by decide, by decide, by decide⟩
    have htableau : ofAugmented ⟨4⟩ [[2, 2, 2]] =
        .ok ⟨⟨4⟩, 2, [[2, 2, 2], [0, 0, 0]], [0, 1]⟩ := by cbv
    cases ht.symm.trans htableau
    have hsweep : triangularize ⟨⟨4⟩, 2, [[2, 2, 2], [0, 0, 0]], [0, 1]⟩ true =
        .ok ⟨⟨⟨4⟩, 2, [[2, 2, 2], [0, 0, 0]], [0, 1]⟩, none⟩ := by cbv
    cases hfree.symm.trans hsweep
    rw [hstrict, (hstop 1).2 (by decide)]
  · have h := options_only_gate ⟨4⟩ [[2, 2]] 1 (by decide) ⟨by decide, by decide, by decide⟩
    have hstrict : Solver.solve ⟨⟨4⟩, ⟨2, false⟩⟩ [[2, 2]] = .ok ⟨4, 2, [[1], [3]]⟩ := by cbv
    have hfree : Solver.solve ⟨⟨4⟩, ⟨100, true⟩⟩ [[2, 2]] = .ok ⟨4, 2, [[1], [3]]⟩ := by cbv
    have hpass (s : SolutionSet) : ¬Gated (.ok s) := by
      rintro (⟨_, ⟨⟩⟩ | ⟨_, _, ⟨⟩⟩)
    exact h.2 ⟨2, false⟩ ⟨100, true⟩ (hstrict ▸ hpass _) (hfree ▸ hpass _)

end Solver

end LinearCongruence
