import LinearCongruence.Proofs.Tableau.FilledRows
import LinearCongruence.Proofs.Tableau.Pivot
import LinearCongruence.Tableau.Sweep
/-!
# The sweep

A step of a sweep clears one more column, or finds nothing but zeros left. Since a pivot
divides its column, every entry below it has a multiplier, and a sweep stops for want of a
pivot only. One that may leave columns free does not stop there, yet it changes nothing any
more. Main facts:

* `clearBelow_ok` : a pivot that divides its column clears it;
* `step_ok` : one step, with and without free columns;
* `sweepTo_both` : the first steps of both sweeps, which leave the same tableau;
* `sweepTo_ok` : the first steps of either sweep, and with them all of it.
-/

namespace LinearCongruence.Tableau

variable {t u : Tableau} {i k : Nat} {freeColumns : Bool}

/-! ## One column -/

theorem Reduced.clearEntry_ok (h : t.Reduced) (hi : i < t.unknowns) (hik : i < k)
    (hk : k < t.height) (hdvd : (t.gcdOf ⟨i, i⟩ : Int) ∣ t.valueAt ⟨k, i⟩) :
    ∃ u, t.clearEntry i k = .ok ⟨u, none⟩ ∧ RowSteps i t u ∧ SameShape t u ∧
      u.valueAt ⟨k, i⟩ = 0 ∧ ∀ p : Position, p.row ≠ k → u.valueAt p = t.valueAt p := by
  unfold clearEntry
  rw [h.entry_eq hk (Nat.le_of_lt hi), Checked.ok_bind]
  by_cases hzero : t.valueAt ⟨k, i⟩ = 0
  · rw [if_pos hzero]
    exact ⟨t, rfl, .refl, .refl t, hzero, fun _ _ => rfl⟩
  · obtain ⟨x, hleast, -, -, hx⟩ := ResidueRing.leastSolution?_of_dvd h.valid hdvd
    obtain ⟨u, hadd, -, hshape, -, hval⟩ :=
      h.addMultiple_ok (-x % t.ring.modulus) hk (hik.trans hk)
    have hstep : RowStep i t u := .addMultiple k i _ ⟨Nat.le_of_lt hik, Nat.le_refl i⟩
      ⟨hk, hik.trans hk⟩ (Nat.ne_of_gt hik) ⟨i, hi, hzero⟩ hadd
    rw [if_neg hzero, h.entry_eq (hik.trans hk) (Nat.le_of_lt hi), Checked.ok_bind, hleast,
      Checked.ok_bind]
    refine ⟨u, ?_, .single hstep, hshape, ?_, ?_⟩
    · dsimp only
      rw [ResidueRing.neg_of_valid h.valid, Checked.ok_bind, hadd]
      rfl
    · rw [hval, if_pos rfl]
      calc (t.valueAt ⟨k, i⟩ + -x % t.ring.modulus * t.valueAt ⟨i, i⟩) % t.ring.modulus
          = (t.valueAt ⟨k, i⟩ + -x * t.valueAt ⟨i, i⟩) % t.ring.modulus := by
            rw [Int.add_emod, Int.mul_emod, Int.emod_emod, ← Int.mul_emod, ← Int.add_emod]
        _ = -(t.valueAt ⟨i, i⟩ * x - t.valueAt ⟨k, i⟩) % t.ring.modulus := by
            congr 1
            ring
        _ = 0 := Int.emod_eq_zero_of_dvd (Int.dvd_neg.2 hx)
    · intro p hp
      rw [hval, if_neg hp]

/-- The rows before `k` are cleared at column `i`, and the pivot still divides the others. -/
structure ClearedTo (i k : Nat) (t u : Tableau) : Prop where
  steps : RowSteps i t u
  above : ∀ p : Position, p.row ≤ i → u.valueAt p = t.valueAt p
  dividesColumn : u.DividesColumn i ⟨i, i⟩
  zero : ∀ r, i < r → r < k → u.valueAt ⟨r, i⟩ = 0

theorem ClearedTo.clearEntry (hcleared : ClearedTo i k t u) (h : t.Reduced)
    (hi : i < t.unknowns) (hik : i < k) (hk : k < t.height) :
    ∃ v, u.clearEntry i k = .ok ⟨v, none⟩ ∧ ClearedTo i (k + 1) t v := by
  have hu := hcleared.steps.blockSteps
  have hshape := hu.sameShape h
  obtain ⟨v, hclear, hsteps, hvshape, hzero, hother⟩ := (hu.reduced h).clearEntry_ok
    (hshape.unknowns_eq ▸ hi) hik (hshape.height_eq ▸ hk)
    (hcleared.dividesColumn k (Nat.le_of_lt hik))
  have hgcd : v.gcdOf ⟨i, i⟩ = u.gcdOf ⟨i, i⟩ := by
    rw [gcdOf, gcdOf, hother ⟨i, i⟩ (Nat.ne_of_lt hik), hvshape.ring_eq]
  refine ⟨v, hclear, hcleared.steps.trans hsteps, ?_, ?_, ?_⟩
  · intro p hp
    rw [hother p (by omega), hcleared.above p hp]
  · intro r hr
    rw [hgcd]
    by_cases hrk : r = k
    · rw [hrk, hzero]
      exact Int.dvd_zero _
    · rw [hother ⟨r, i⟩ hrk]
      exact hcleared.dividesColumn r hr
  · intro r hir hr
    by_cases hrk : r = k
    · rw [hrk, hzero]
    · rw [hother ⟨r, i⟩ hrk]
      exact hcleared.zero r hir (by omega)

theorem Reduced.clearBelow_ok (h : t.Reduced) (hi : i < t.unknowns)
    (hdvd : t.DividesColumn i ⟨i, i⟩) :
    ∃ u, t.clearBelow i = .ok ⟨u, none⟩ ∧ RowSteps i t u ∧
      (∀ p : Position, p.row ≤ i → u.valueAt p = t.valueAt p) ∧
      ∀ r, i < r → u.valueAt ⟨r, i⟩ = 0 := by
  obtain ⟨s, hfold, u, rfl, hcleared⟩ := Checked.foldlM_range'_ok
    (f := fun (s : Sweep) k => s.andThen fun t => t.clearEntry i k) (b := ⟨t, none⟩)
    (i := i + 1) (n := t.height - (i + 1)) (fun k s => ∃ u, s = ⟨u, none⟩ ∧ ClearedTo i k t u)
    ⟨t, rfl, .refl, fun _ _ => rfl, hdvd, fun r hr hlt => absurd hlt (by omega)⟩ (by
      rintro k hik hk s ⟨u, rfl, hcleared⟩
      obtain ⟨v, hclear, hnext⟩ := hcleared.clearEntry h hi (by omega) (by omega)
      exact ⟨⟨v, none⟩, hclear, v, rfl, hnext⟩)
  refine ⟨u, hfold, hcleared.steps, hcleared.above, ?_⟩
  intro r hr
  by_cases hlt : r < t.height
  · exact hcleared.zero r hr (by omega)
  · have hshape := hcleared.steps.blockSteps.sameShape h
    exact valueAt_of_height_le (hshape.height_eq.trans_le (Nat.le_of_not_lt hlt)) i

/-! ## One step -/

theorem DividesColumn.of_swaps {p : Position} {v : Tableau} (hdvd : t.DividesColumn i p)
    (hp : i ≤ p.row) (hring : v.ring = t.ring)
    (hu : ∀ q, u.valueAt q = t.valueAt ⟨Equiv.swap i p.row q.row, q.col⟩)
    (hv : ∀ q, v.valueAt q = u.valueAt ⟨q.row, Equiv.swap i p.col q.col⟩) :
    v.DividesColumn i ⟨i, i⟩ := by
  have hcolumn (r : Nat) : v.valueAt ⟨r, i⟩ = t.valueAt ⟨Equiv.swap i p.row r, p.col⟩ := by
    rw [hv, hu, Equiv.swap_apply_left]
  intro r hr
  rw [gcdOf, hcolumn, hcolumn, hring, Equiv.swap_apply_left]
  exact hdvd _ (le_swap_of_le (Nat.le_refl i) hp hr)

/-- The pivot ends on the diagonal, above a cleared column. -/
theorem Reduced.pivotOn_ok (h : t.Reduced) (hi : i < t.unknowns) (hcleared : t.Cleared i)
    {p : Position} (hp : p ∈ t.block i i) (hdvd : t.DividesColumn i p) :
    ∃ u, t.pivotOn i p = .ok ⟨u, none⟩ ∧ BlockSteps i t u ∧ u.Cleared (i + 1) ∧
      u.valueAt ⟨i, i⟩ = t.valueAt p ∧ u.filledRows.card ≤ t.filledRows.card := by
  obtain ⟨hrow, hcol⟩ := mem_block.1 hp
  obtain ⟨u, hswapRows, hu, hushape, -, huval⟩ := h.swapRows_ok (h.lt_height hi) hrow.2
  have hui := hushape.unknowns_eq.symm ▸ hi
  have hucol := hushape.unknowns_eq.symm ▸ hcol.2
  obtain ⟨v, hswapColumns, hv, hvshape, -, hvval⟩ := hu.swapColumns_ok hui hucol
  have hsteps : BlockSteps i t v := .tail
    (.single (.swapRows i p.row ⟨Nat.le_refl i, hrow.1⟩ ⟨h.lt_height hi, hrow.2⟩ hswapRows))
    (.swapColumns i p.col ⟨Nat.le_refl i, hcol.1⟩ ⟨hui, hucol⟩ hswapColumns)
  have hshape := hushape.trans hvshape
  obtain ⟨w, hclear, hrows, habove, hzero⟩ := hv.clearBelow_ok (hshape.unknowns_eq.symm ▸ hi)
    (hdvd.of_swaps hrow.1 hshape.ring_eq huval hvval)
  have hall : BlockSteps i t w := hsteps.trans hrows.blockSteps
  refine ⟨w, ?_, hall, ?_, ?_, ?_⟩
  · rw [pivotOn, hswapRows, Checked.ok_bind, hswapColumns, Checked.ok_bind, hclear]
  · intro col hle row hlt
    rcases Nat.lt_succ_iff_lt_or_eq.1 hle with hbefore | rfl
    · exact hall.cleared h hcleared col hbefore row hlt
    · exact hzero row hlt
  · rw [habove _ (Nat.le_refl i), hvval, huval, Equiv.swap_apply_left, Equiv.swap_apply_left]
  · exact (hrows.card_filledRows_le hv.toRectangular).trans
      (card_filledRows_le_of_swaps hshape hi hcol.2 fun q => (hvval q).trans (huval _))

theorem NoPivot.cleared {i : Nat} (hnone : t.NoPivot i i) (hcleared : t.Cleared i) :
    t.Cleared t.unknowns := by
  intro c hc r hr
  by_cases hci : c < i
  · exact hcleared c hci r hr
  · exact hnone.valueAt_eq_zero (by omega) (by omega) hc

theorem NoPivot.not_filled {i r : Nat} (hnone : t.NoPivot i i) (hcleared : t.Cleared i)
    (hr : i ≤ r) : ¬t.Filled r := by
  rintro ⟨c, hc, hne⟩
  by_cases hci : c < i
  · exact hne (hcleared c hci r (hci.trans_le hr))
  · exact hne (hnone.valueAt_eq_zero hr (Nat.le_of_not_lt hci) hc)

theorem NoPivot.mono {j : Nat} (hnone : t.NoPivot i i) (hij : i ≤ j) : t.NoPivot j j := by
  intro p hp
  obtain ⟨hrow, hcol⟩ := mem_block.1 hp
  exact hnone p (mem_block.2 ⟨⟨by omega, hrow.2⟩, by omega, hcol.2⟩)

theorem Reduced.swapRows_self (h : t.Reduced) (hi : i < t.height) :
    t.swapRows i i = .ok t := by
  obtain ⟨row, hrow, -⟩ := h.getElem?_row hi
  obtain ⟨hlt, rfl⟩ := List.getElem?_eq_some_iff.1 hrow
  rw [swapRows, Checked.swapAt_of_getElem? hrow hrow, List.set_set, List.set_getElem_self]
  rfl

theorem NoPivot.pivotOn_eq (hnone : t.NoPivot i i) (h : t.Reduced) (hi : i < t.unknowns) :
    t.pivotOn i ⟨i, i⟩ = .ok ⟨t, none⟩ := by
  have hclear : t.clearBelow i = .ok ⟨t, none⟩ := by
    obtain ⟨s, hfold, rfl⟩ := Checked.foldlM_ok (l := t.rowsFrom (i + 1))
      (f := fun (s : Sweep) k => s.andThen fun t => t.clearEntry i k) (b := ⟨t, none⟩)
      (fun (_ : List Nat) s => s = ⟨t, none⟩) rfl (by
        rintro seen k rest hrows s rfl
        -- Zeros are left as they stand.
        have hk := mem_rowsFrom.1 (hrows ▸ List.mem_append_right seen (List.mem_cons_self ..))
        have hentry := h.entry_eq hk.2 (Nat.le_of_lt hi)
        rw [hnone.valueAt_eq_zero (by omega) (Nat.le_refl i) hi] at hentry
        refine ⟨_, ?_, rfl⟩
        simp only [Sweep.andThen, clearEntry]
        rw [hentry]
        rfl)
    exact hfold
  unfold pivotOn
  rw [h.swapRows_self (h.lt_height hi), Checked.ok_bind, swapColumns, if_pos rfl]
  exact hclear

theorem NoPivot.step_eq (hnone : t.NoPivot i i) (h : t.Reduced) (hi : i < t.unknowns)
    (freeColumns : Bool) :
    t.step freeColumns i = .ok ⟨t, if freeColumns then none else some (.noPivot i)⟩ := by
  unfold step
  rw [hnone.choosePivot_eq h.toRectangular, Checked.ok_bind]
  cases freeColumns with
  | false => rfl
  | true => exact hnone.pivotOn_eq h hi

/-- A step clears its column under a pivot, in the same way with and without free columns, or
it finds nothing but zeros and changes nothing. -/
theorem Reduced.step_ok (h : t.Reduced) (hi : i < t.unknowns) (hcleared : t.Cleared i) :
    (∃ u, (∀ freeColumns, t.step freeColumns i = .ok ⟨u, none⟩) ∧ BlockSteps i t u ∧
      u.Cleared (i + 1) ∧ (t.ring.modulus = 1 ∨ u.valueAt ⟨i, i⟩ ≠ 0) ∧
      u.filledRows.card ≤ t.filledRows.card) ∨
    t.NoPivot i i ∧ ∀ freeColumns, t.step freeColumns i =
      .ok ⟨t, if freeColumns then none else some (.noPivot i)⟩ := by
  rcases h.choosePivot_ok i i with ⟨-, hnone⟩ | ⟨u, p, hchoose, hpivot⟩
  · exact .inr ⟨hnone, hnone.step_eq h hi⟩
  · have hu := hpivot.steps.blockSteps
    have hured := hu.reduced h
    have hshape := hu.sameShape h
    obtain ⟨v, hpivotOn, hsteps, hv, hdiagonal, hfilled⟩ := hured.pivotOn_ok
      (hshape.unknowns_eq.symm ▸ hi) (hu.cleared h hcleared)
      (hshape.block_eq i i ▸ hpivot.mem_block) hpivot.dividesColumn
    refine .inl ⟨v, ?_, hu.trans hsteps, hv, ?_,
      hfilled.trans (hpivot.steps.card_filledRows_le h.toRectangular)⟩
    · intro freeColumns
      unfold step
      rw [hchoose, Checked.ok_bind]
      exact hpivotOn
    · rw [hdiagonal, Ne, hured.valueAt_eq_zero_iff, hshape.ring_eq]
      have := hpivot.gcdOf_lt
      omega

/-! ## The first steps of a sweep -/

def sweepTo (t : Tableau) (freeColumns : Bool) (count : Nat) : Checked Sweep :=
  (List.range count).foldlM (fun s i => s.andThen fun t => t.step freeColumns i) ⟨t, none⟩

theorem triangularize_eq_sweepTo (t : Tableau) (freeColumns : Bool) :
    t.triangularize freeColumns = t.sweepTo freeColumns t.unknowns := rfl

theorem sweepTo_succ (t : Tableau) (freeColumns : Bool) (count : Nat) :
    t.sweepTo freeColumns (count + 1) =
      t.sweepTo freeColumns count >>= fun s => s.andThen fun t => t.step freeColumns count := by
  unfold sweepTo
  rw [List.range_succ, List.foldlM_append]
  simp only [List.foldlM_cons, List.foldlM_nil, bind_pure]

/-- What the first steps of a sweep leave, with the first step `stop` that found nothing but
zeros, if there was one. -/
structure SweptTo (t : Tableau) (count : Nat) (u : Tableau) (stop : Option Nat) : Prop where
  steps : BlockSteps 0 t u
  cleared : u.Cleared count
  diagonal : ∀ c < stop.getD count, t.ring.modulus = 1 ∨ u.valueAt ⟨c, c⟩ ≠ 0
  noPivot : ∀ i, stop = some i → i < count ∧ u.NoPivot i i
  filled_le : u.filledRows.card ≤ t.filledRows.card

theorem SweptTo.stop_le {count : Nat} {stop : Option Nat} (hu : SweptTo t count u stop) :
    stop.getD count ≤ count := by
  cases stop with
  | none => exact Nat.le_refl count
  | some i => exact (hu.noPivot i rfl).1.le

/-- The pivots of a sweep are not zero, so that a zero on the diagonal comes after them. -/
theorem SweptTo.stop_le_of_diagonal_eq_zero {stop : Option Nat}
    (hu : SweptTo t t.unknowns u stop) (hmodulus : 2 ≤ t.ring.modulus) {c : Nat}
    (hzero : u.valueAt ⟨c, c⟩ = 0) : stop.getD t.unknowns ≤ c := by
  by_contra hlt
  rcases hu.diagonal c (Nat.lt_of_not_le hlt) with hone | hne
  · omega
  · exact hne hzero

theorem SweptTo.not_filled {stop : Option Nat} (hu : SweptTo t t.unknowns u stop)
    (h : t.Reduced) {r : Nat} (hr : stop.getD t.unknowns ≤ r) : ¬u.Filled r := by
  cases stop with
  | none =>
      have hunknowns := (hu.steps.sameShape h).unknowns_eq
      have hcleared : u.Cleared u.unknowns := hunknowns.symm ▸ hu.cleared
      exact hcleared.not_filled (hunknowns.trans_le hr)
  | some i =>
      obtain ⟨hi, hnone⟩ := hu.noPivot i rfl
      exact hnone.not_filled (fun c hc => hu.cleared c (hc.trans hi)) hr

/-- With and without free columns the first steps of a sweep leave the same tableau. -/
theorem Reduced.sweepTo_both (h : t.Reduced) {count : Nat} (hcount : count ≤ t.unknowns) :
    ∃ u stop, SweptTo t count u stop ∧ t.sweepTo true count = .ok ⟨u, none⟩ ∧
      t.sweepTo false count = .ok ⟨u, stop.map .noPivot⟩ := by
  induction count with
  | zero =>
      refine ⟨t, none, ⟨.refl, ?_, ?_, by simp, Nat.le_refl _⟩, rfl, rfl⟩
      · exact fun _ hcol => absurd hcol (Nat.not_lt_zero _)
      · exact fun _ hc => absurd hc (Nat.not_lt_zero _)
  | succ count ih =>
      obtain ⟨u, stop, hu, hfree, hstrict⟩ := ih (by omega)
      have hred := hu.steps.reduced h
      have hshape := hu.steps.sameShape h
      have hi : count < u.unknowns := by
        rw [hshape.unknowns_eq]
        omega
      simp only [sweepTo_succ, hfree, hstrict, Checked.ok_bind]
      cases stop with
      | some i =>
          -- Both sweeps have come to their end; the free one finds zeros at each later step.
          obtain ⟨hlt, hnone⟩ := hu.noPivot i rfl
          have hlater := hnone.mono (Nat.le_of_lt hlt)
          refine ⟨u, some i, ⟨hu.steps, ?_, hu.diagonal, ?_, hu.filled_le⟩, ?_, rfl⟩
          · exact fun col hcol => hnone.cleared
              (fun c hc => hu.cleared c (by omega)) col (by omega)
          · rintro j ⟨⟩
            exact ⟨by omega, hnone⟩
          · exact hlater.step_eq hred hi true
      | none =>
          simp only [Option.map_none, Sweep.andThen]
          rcases hred.step_ok hi hu.cleared with
            ⟨v, hstep, hv, hvcleared, hpivot, hfilled⟩ | ⟨hnone, hstep⟩
          · refine ⟨v, none, ⟨hu.steps.trans (hv.mono count.zero_le), hvcleared, ?_, by simp,
              hfilled.trans hu.filled_le⟩, hstep true, hstep false⟩
            intro c hc
            rcases Nat.lt_succ_iff_lt_or_eq.1 hc with hbefore | rfl
            · rw [hv.valueAt_of_lt hred hbefore hbefore]
              exact hu.diagonal c hbefore
            · rwa [← hshape.ring_eq]
          · refine ⟨u, some count, ⟨hu.steps, ?_, hu.diagonal, ?_, hu.filled_le⟩, hstep true,
              hstep false⟩
            · exact fun col hcol => hnone.cleared hu.cleared col (by omega)
            · rintro j ⟨⟩
              exact ⟨by omega, hnone⟩

inductive Swept (freeColumns : Bool) (t : Tableau) (count : Nat) : Sweep → Prop
  | done (u : Tableau) (steps : BlockSteps 0 t u) (cleared : u.Cleared count) :
      Swept freeColumns t count ⟨u, none⟩
  | stuck (u : Tableau) (i : Nat) (hi : i < count) (hfree : freeColumns = false)
      (steps : BlockSteps 0 t u) (cleared : u.Cleared i) (none : u.NoPivot i i) :
      Swept freeColumns t count ⟨u, some (.noPivot i)⟩

theorem Reduced.sweepTo_ok (h : t.Reduced) (freeColumns : Bool) {count : Nat}
    (hcount : count ≤ t.unknowns) :
    ∃ s, t.sweepTo freeColumns count = .ok s ∧ Swept freeColumns t count s := by
  obtain ⟨u, stop, hu, hfree, hstrict⟩ := h.sweepTo_both hcount
  cases freeColumns with
  | true => exact ⟨_, hfree, .done u hu.steps hu.cleared⟩
  | false =>
      refine ⟨_, hstrict, ?_⟩
      cases stop with
      | none => exact .done u hu.steps hu.cleared
      | some i =>
          obtain ⟨hi, hnone⟩ := hu.noPivot i rfl
          exact .stuck u i hi rfl hu.steps (fun c hc => hu.cleared c (by omega)) hnone

end LinearCongruence.Tableau
