import LinearCongruence.Proofs.Tableau.Sweep
/-!
# The shape that a sweep leaves

A sweep leaves cleared columns, also where it stops. Over more than one residue its pivots are
the first entries of the diagonal: they are not zero, and the rows after them have no
coefficient, so that a zero on the diagonal is followed by zeros only. Main facts:

* `stop_le_of_diagonal_eq_zero` : where a zero on the diagonal can stand;
* `triangularize_leaves_echelon` : both ends of a sweep.
-/

namespace LinearCongruence.Tableau

variable {t u : Tableau} {stop : Option Nat}

def ZeroFrom (t : Tableau) (i : Nat) : Prop :=
  ∀ row, i ≤ row → row < t.height → ∀ col < t.unknowns, t.entry row col = .ok 0

theorem Reduced.zeroFrom_of_not_filled (h : t.Reduced) {i : Nat}
    (hempty : ∀ r, i ≤ r → ¬t.Filled r) : t.ZeroFrom i := by
  intro row hrow hlt col hcol
  have hzero : t.valueAt ⟨row, col⟩ = 0 := by
    by_contra hne
    exact hempty row hrow ⟨col, hcol, hne⟩
  rw [h.entry_eq hlt hcol.le, hzero]

theorem SweptTo.zeroFrom (hu : SweptTo t t.unknowns u stop) (h : t.Reduced) {i : Nat}
    (hi : stop.getD t.unknowns ≤ i) : u.ZeroFrom i :=
  (hu.steps.reduced h).zeroFrom_of_not_filled fun _ hr => hu.not_filled h (hi.trans hr)

theorem SweptTo.clearedBelow (hu : SweptTo t t.unknowns u stop) (h : t.Reduced) {count : Nat}
    (hcount : count ≤ t.unknowns) : u.ClearedBelow count := by
  have hunknowns := (hu.steps.sameShape h).unknowns_eq
  rw [(hu.steps.reduced h).clearedBelow_iff (hunknowns.symm ▸ hcount)]
  exact fun c hc => hu.cleared c (hc.trans_le hcount)

/-- Every sweep of a reduced tableau comes to an end. One that does not stop leaves zeros below
the diagonal; over more than one residue a zero on the diagonal stands for a free column, and
no coefficient from its row on is other than zero. One that stops may not leave columns free; the
columns before the step that it stops at are cleared below entries other than zero, and
no coefficient from the row of that step on is other than zero. -/
theorem triangularize_leaves_echelon (t : Tableau) (freeColumns : Bool) (ht : t.Reduced) :
    ∃ s, t.triangularize freeColumns = .ok s ∧ SameShape t s.tableau ∧
      (s.stopped = none ∨ ∃ i, s.stopped = some (.noPivot i)) ∧
      (s.stopped = none → s.tableau.ClearedBelow t.unknowns ∧
        (2 ≤ t.ring.modulus → ∀ c < t.unknowns, s.tableau.entry c c = .ok 0 →
          freeColumns = true ∧ s.tableau.ZeroFrom c)) ∧
      ∀ i, s.stopped = some (.noPivot i) →
        freeColumns = false ∧ i < t.unknowns ∧ s.tableau.ClearedBelow i ∧
        (∀ c < i, ∃ v, s.tableau.entry c c = .ok v ∧ v ≠ 0) ∧ s.tableau.ZeroFrom i := by
  obtain ⟨u, stop, hu, hfree, hstrict⟩ := ht.sweepTo_both (Nat.le_refl _)
  have hred := hu.steps.reduced ht
  have hshape := hu.steps.sameShape ht
  have hdiagonal (c : Nat) (hc : c < t.unknowns) :
      u.entry c c = .ok (u.valueAt ⟨c, c⟩) := by
    have hcu : c < u.unknowns := hshape.unknowns_eq.symm ▸ hc
    exact hred.entry_eq (hred.lt_height hcu) hcu.le
  have hzero (hmodulus : 2 ≤ t.ring.modulus) (c : Nat) (hc : c < t.unknowns)
      (hentry : u.entry c c = .ok 0) : stop.getD t.unknowns ≤ c := by
    rw [hdiagonal c hc] at hentry
    exact hu.stop_le_of_diagonal_eq_zero hmodulus (Except.ok.inj hentry)
  cases freeColumns with
  | true =>
      refine ⟨_, hfree, hshape, .inl rfl, ?_, by simp⟩
      intro _
      refine ⟨hu.clearedBelow ht (Nat.le_refl _), ?_⟩
      intro hmodulus c hc hentry
      exact ⟨rfl, hu.zeroFrom ht (hzero hmodulus c hc hentry)⟩
  | false =>
      refine ⟨_, hstrict, hshape, ?_, ?_, ?_⟩
      · cases stop with
        | none => exact .inl rfl
        | some i => exact .inr ⟨i, rfl⟩
      · intro hstopped
        obtain rfl : stop = none := by simpa using hstopped
        refine ⟨hu.clearedBelow ht (Nat.le_refl _), ?_⟩
        intro hmodulus c hc hentry
        exact absurd (hzero hmodulus c hc hentry) (Nat.not_le_of_lt hc)
      · intro i hstopped
        obtain rfl : stop = some i := by simpa using hstopped
        obtain ⟨hi, hnone⟩ := hu.noPivot i rfl
        have hmodulus := (hnone _ (hred.mem_block_diagonal (hshape.unknowns_eq.symm ▸ hi))).2
        rw [hshape.ring_eq] at hmodulus
        refine ⟨rfl, hi, hu.clearedBelow ht hi.le, ?_, hu.zeroFrom ht (Nat.le_refl i)⟩
        intro c hc
        exact ⟨_, hdiagonal c (hc.trans hi), (hu.diagonal c hc).resolve_left hmodulus⟩

theorem triangularize_leaves_echelon_mod_six :
    (triangularize ⟨⟨6⟩, 2, [[2, 3, 1], [4, 0, 2]], [0, 1]⟩ true =
        .ok ⟨⟨⟨6⟩, 2, [[2, 3, 1], [0, 0, 0]], [0, 1]⟩, none⟩ ∧
      ClearedBelow ⟨⟨6⟩, 2, [[2, 3, 1], [0, 0, 0]], [0, 1]⟩ 2 ∧
      ZeroFrom ⟨⟨6⟩, 2, [[2, 3, 1], [0, 0, 0]], [0, 1]⟩ 1) ∧
    triangularize ⟨⟨6⟩, 2, [[2, 3, 1], [4, 0, 2]], [0, 1]⟩ false =
        .ok ⟨⟨⟨6⟩, 2, [[2, 3, 1], [0, 0, 0]], [0, 1]⟩, some (.noPivot 1)⟩ ∧
      ClearedBelow ⟨⟨6⟩, 2, [[2, 3, 1], [0, 0, 0]], [0, 1]⟩ 1 ∧
      ZeroFrom ⟨⟨6⟩, 2, [[2, 3, 1], [0, 0, 0]], [0, 1]⟩ 1 := by
  have ht : Reduced ⟨⟨6⟩, 2, [[2, 3, 1], [4, 0, 2]], [0, 1]⟩ :=
    ⟨⟨by decide, by decide, by decide⟩, by decide, by decide, by decide⟩
  have hfree : triangularize ⟨⟨6⟩, 2, [[2, 3, 1], [4, 0, 2]], [0, 1]⟩ true =
      .ok ⟨⟨⟨6⟩, 2, [[2, 3, 1], [0, 0, 0]], [0, 1]⟩, none⟩ := by cbv
  have hstrict : triangularize ⟨⟨6⟩, 2, [[2, 3, 1], [4, 0, 2]], [0, 1]⟩ false =
      .ok ⟨⟨⟨6⟩, 2, [[2, 3, 1], [0, 0, 0]], [0, 1]⟩, some (.noPivot 1)⟩ := by cbv
  constructor
  · obtain ⟨s, hs, -, -, hdone, -⟩ := triangularize_leaves_echelon _ true ht
    cases hs.symm.trans hfree
    obtain ⟨hcleared, hzero⟩ := hdone rfl
    exact ⟨hfree, hcleared, (hzero (by decide) 1 (by decide) rfl).2⟩
  · obtain ⟨s, hs, -, -, -, hstopped⟩ := triangularize_leaves_echelon _ false ht
    cases hs.symm.trans hstrict
    obtain ⟨-, -, hcleared, -, hzero⟩ := hstopped 1 rfl
    exact ⟨hstrict, hcleared, hzero⟩

end LinearCongruence.Tableau
