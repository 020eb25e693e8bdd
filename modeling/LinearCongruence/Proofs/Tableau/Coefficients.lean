import LinearCongruence.Proofs.Tableau.Kernel
import LinearCongruence.Proofs.Tableau.Sweep
import LinearCongruence.Proofs.Tableau.Triangular
/-!
# What a sweep sees of a tableau

A sweep takes its decisions by the coefficients alone; the right-hand sides are carried along.
Two tableaus with the same coefficients therefore go through the same searches, exchanges and
combinations, and have the same coefficients at the end. Each operation is followed on both
tableaus at once (`Checked.Alike`). Main facts:

* `search_alike`, `refine_alike`, `choosePivot_alike` : the same pivot is found;
* `clearBelow_alike` : the same multiples of its row are added;
* `triangularize_alike` : the sweeps stop at the same step, if they stop.
-/

namespace LinearCongruence.Tableau

open Checked (Alike)

variable {base t t' : Tableau} {i j k : Nat} {p : Position}

/-- Reduced tableaus of the shape of `base` that differ in their right-hand sides only. -/
structure SameCoefficients (base t t' : Tableau) : Prop where
  left : t.Reduced
  right : t'.Reduced
  left_shape : SameShape base t
  right_shape : SameShape base t'
  order_eq : t'.order = t.order
  value_eq : ∀ p : Position, p.col < base.unknowns → t'.valueAt p = t.valueAt p

structure SameFound (base : Tableau) (i j : Nat) (found found' : Tableau × Option Position) :
    Prop where
  coefficients : SameCoefficients base found.1 found'.1
  position_eq : found'.2 = found.2
  mem_block : ∀ p ∈ found.2, p ∈ base.block i j

structure SameSweep (base : Tableau) (s s' : Sweep) : Prop where
  coefficients : SameCoefficients base s.tableau s'.tableau
  stopped_eq : s'.stopped = s.stopped

namespace SameCoefficients

/-! ## Reading entries -/

theorem ring_eq (same : SameCoefficients base t t') : t'.ring = t.ring :=
  same.right_shape.ring_eq.trans same.left_shape.ring_eq.symm

theorem lt_height (same : SameCoefficients base t t') (hi : i < base.unknowns) :
    i < base.height := by
  rw [← same.left_shape.height_eq]
  exact same.left.lt_height (same.left_shape.unknowns_eq.symm ▸ hi)

theorem entry_eq (same : SameCoefficients base t t') {r c : Nat} (hr : r < base.height)
    (hc : c < base.unknowns) : t'.entry r c = t.entry r c := by
  have hleft := same.left_shape
  have hright := same.right_shape
  rw [same.left.entry_eq (hleft.height_eq.symm ▸ hr) (hleft.unknowns_eq.symm ▸ hc.le),
    same.right.entry_eq (hright.height_eq.symm ▸ hr) (hright.unknowns_eq.symm ▸ hc.le),
    same.value_eq ⟨r, c⟩ hc]

theorem entryAt_eq (same : SameCoefficients base t t') (hp : p ∈ base.block i j) :
    t'.entryAt p = t.entryAt p := by
  obtain ⟨hrow, hcol⟩ := mem_block.1 hp
  exact same.entry_eq hrow.2 hcol.2

theorem gcdAt_eq (same : SameCoefficients base t t') (hp : p ∈ base.block i j) :
    t'.gcdAt p = t.gcdAt p := by
  rw [gcdAt, gcdAt, same.entryAt_eq hp, same.ring_eq]

/-! ## The search for a pivot -/

theorem firstUnit?_eq (same : SameCoefficients base t t') (i j : Nat) :
    t'.firstUnit? i j = t.firstUnit? i j := by
  unfold firstUnit?
  rw [same.left_shape.block_eq, same.right_shape.block_eq]
  apply Checked.findM?_congr
  intro p hp
  rw [same.entryAt_eq hp, same.ring_eq]

theorem bestCandidate_eq (same : SameCoefficients base t t') (i j : Nat) :
    t'.bestCandidate i j = t.bestCandidate i j := by
  have hentry (p : Position) (hp : p ∈ base.block i j) (best : Candidate) :
      t'.betterEntry best p = t.betterEntry best p := by
    rw [betterEntry, betterEntry, same.gcdAt_eq hp]
  have hcombination (q : Position × Nat) (hq : q ∈ base.pairings i j) (best : Candidate) :
      t'.betterCombination best q = t.betterCombination best q := by
    obtain ⟨p, partner⟩ := q
    obtain ⟨hp, -, hpartner⟩ := mem_pairings.1 hq
    rw [betterCombination, betterCombination, same.entryAt_eq hp,
      same.entry_eq hpartner (mem_block.1 hp).2.2, same.ring_eq]
  unfold bestCandidate
  rw [same.left_shape.block_eq, same.right_shape.block_eq, same.left_shape.pairings_eq,
    same.right_shape.pairings_eq, same.ring_eq, Checked.foldlM_congr hentry]
  exact bind_congr fun best => Checked.foldlM_congr hcombination best

theorem addMultiple_alike (same : SameCoefficients base t t') {target source : Nat}
    (htarget : target < base.height) (hsource : source < base.height) (factor : Int) :
    Alike (SameCoefficients base) (t.addMultiple target source factor)
      (t'.addMultiple target source factor) := by
  have hleft := same.left_shape
  have hright := same.right_shape
  obtain ⟨u, hadd, hu, hushape, huorder, huval⟩ := same.left.addMultiple_ok factor
    (hleft.height_eq.symm ▸ htarget) (hleft.height_eq.symm ▸ hsource)
  obtain ⟨u', hadd', hu', hushape', huorder', huval'⟩ := same.right.addMultiple_ok factor
    (hright.height_eq.symm ▸ htarget) (hright.height_eq.symm ▸ hsource)
  rw [hadd, hadd']
  refine .ok ⟨hu, hu', hleft.trans hushape, hright.trans hushape', ?_, ?_⟩
  · rw [huorder', same.order_eq, huorder]
  · intro p hp
    rw [huval', huval, same.value_eq p hp, same.value_eq ⟨source, p.col⟩ hp, same.ring_eq]

theorem found (same : SameCoefficients base t t') (hp : p ∈ base.block i j) :
    SameFound base i j (t, some p) (t', some p) :=
  ⟨same, rfl, fun _ hq => Option.some.inj hq ▸ hp⟩

theorem search_alike (same : SameCoefficients base t t') (i j : Nat) :
    Alike (SameFound base i j) (t.search i j) (t'.search i j) := by
  have hblock := same.left_shape.block_eq i j
  obtain ⟨best, hbest, -, -, hcandidate⟩ := same.left.bestCandidate_ok i j
  unfold search
  rw [same.firstUnit?_eq, same.bestCandidate_eq, same.ring_eq, same.left.firstUnit?_ok,
    Checked.ok_bind, Checked.ok_bind]
  cases hunit : (t.block i j).find? fun p => decide (t.gcdOf p = 1) with
  | some p => exact .ok (same.found (hblock ▸ List.mem_of_find?_eq_some hunit))
  | none =>
      dsimp only
      rw [hbest, Checked.ok_bind, Checked.ok_bind, ResidueRing.word_of_valid same.left.valid]
      by_cases hmodulus : best.gcd = t.ring.modulus
      · rw [if_pos hmodulus, if_pos hmodulus]
        exact .ok ⟨same, rfl, by simp⟩
      · have hcandidate := hcandidate.resolve_left hmodulus
        have hposition : best.position ∈ base.block i j := hblock ▸ hcandidate.mem_block
        rw [if_neg hmodulus, if_neg hmodulus]
        by_cases hzero : best.multiplier = 0
        · rw [if_pos hzero, if_pos hzero]
          exact .ok (same.found hposition)
        · rw [if_neg hzero, if_neg hzero]
          refine (same.addMultiple_alike (mem_block.1 hposition).1.2
            (same.left_shape.height_eq ▸ hcandidate.partner_lt) _).bind fun u u' hu => ?_
          exact .ok (hu.found hposition)

theorem blocker?_eq (same : SameCoefficients base t t') (hp : p ∈ base.block i j) (g : Int) :
    t'.blocker? i p.col g = t.blocker? i p.col g := by
  unfold blocker?
  rw [same.left_shape.rowsFrom_eq, same.right_shape.rowsFrom_eq]
  apply Checked.findM?_congr
  intro k hk
  rw [same.entry_eq (mem_rowsFrom.1 hk).2 (mem_block.1 hp).2.2]

theorem refine_alike (same : SameCoefficients base t t') (rounds : Nat)
    (hp : p ∈ base.block i j) :
    Alike (SameFound base i j) (refine i j rounds t p) (refine i j rounds t' p) := by
  induction rounds generalizing t t' p with
  | zero => exact .ok (same.found hp)
  | succ rounds ih =>
      have hblock : p ∈ t.block i j := (same.left_shape.block_eq i j).symm ▸ hp
      obtain ⟨hrow, hcol⟩ := mem_block.1 hp
      unfold refine
      rw [same.gcdAt_eq hp, same.left.gcdAt_eq hblock, Checked.ok_bind, Checked.ok_bind,
        same.blocker?_eq hp, same.left.blocker?_ok hblock, Checked.ok_bind, Checked.ok_bind]
      cases hfind : (t.rowsFrom i).find? fun k =>
          decide (t.valueAt ⟨k, p.col⟩ % (t.gcdOf p : Int) ≠ 0) with
      | none => exact .ok (same.found hp)
      | some k =>
          have hk := mem_rowsFrom.1 (List.mem_of_find?_eq_some hfind)
          rw [same.left_shape.height_eq] at hk
          dsimp only
          rw [same.entryAt_eq hp, same.entry_eq hk.2 hcol.2, same.ring_eq]
          refine Alike.bind_self _ fun a => Alike.bind_self _ fun b =>
            Alike.bind_self _ fun better => ?_
          split
          · exact .ok (same.found hp)
          · refine (same.addMultiple_alike hrow.2 hk.2 _).bind fun u u' hu => ?_
            refine (hu.search_alike i j).bind ?_
            rintro ⟨v, q⟩ ⟨v', q'⟩ ⟨hv, rfl, hq⟩
            -- The next round starts at the position that both searches found.
            cases q' with
            | none => exact .ok ⟨hv, rfl, hq⟩
            | some q => exact ih hv (hq q rfl)

theorem choosePivot_alike (same : SameCoefficients base t t') (i j : Nat) :
    Alike (SameFound base i j) (t.choosePivot i j) (t'.choosePivot i j) := by
  unfold choosePivot
  refine (same.search_alike i j).bind ?_
  rintro ⟨u, p⟩ ⟨u', p'⟩ ⟨hu, rfl, hp⟩
  cases p' with
  | none => exact .ok ⟨hu, rfl, hp⟩
  | some p =>
      dsimp only
      rw [hu.ring_eq]
      exact hu.refine_alike _ (hp p rfl)

/-! ## Clearing a column -/

theorem swapRows_alike (same : SameCoefficients base t t') {a b : Nat} (ha : a < base.height)
    (hb : b < base.height) :
    Alike (SameCoefficients base) (t.swapRows a b) (t'.swapRows a b) := by
  have hleft := same.left_shape
  have hright := same.right_shape
  obtain ⟨u, hswap, hu, hushape, huorder, huval⟩ := same.left.swapRows_ok
    (hleft.height_eq.symm ▸ ha) (hleft.height_eq.symm ▸ hb)
  obtain ⟨u', hswap', hu', hushape', huorder', huval'⟩ := same.right.swapRows_ok
    (hright.height_eq.symm ▸ ha) (hright.height_eq.symm ▸ hb)
  rw [hswap, hswap']
  refine .ok ⟨hu, hu', hleft.trans hushape, hright.trans hushape', ?_, ?_⟩
  · rw [huorder', same.order_eq, huorder]
  · intro p hp
    rw [huval', huval]
    exact same.value_eq ⟨_, p.col⟩ hp

theorem swapColumns_alike (same : SameCoefficients base t t') {a b : Nat}
    (ha : a < base.unknowns) (hb : b < base.unknowns) :
    Alike (SameCoefficients base) (t.swapColumns a b) (t'.swapColumns a b) := by
  have hleft := same.left_shape
  have hright := same.right_shape
  obtain ⟨u, hswap, hu, hushape, huorder, huval⟩ := same.left.swapColumns_ok
    (hleft.unknowns_eq.symm ▸ ha) (hleft.unknowns_eq.symm ▸ hb)
  obtain ⟨u', hswap', hu', hushape', huorder', huval'⟩ := same.right.swapColumns_ok
    (hright.unknowns_eq.symm ▸ ha) (hright.unknowns_eq.symm ▸ hb)
  rw [hswap, hswap']
  refine .ok ⟨hu, hu', hleft.trans hushape, hright.trans hushape', ?_, ?_⟩
  · apply List.ext_getElem?
    intro c
    rw [huorder', same.order_eq, huorder]
  · intro p hp
    rw [huval', huval]
    exact same.value_eq ⟨p.row, _⟩ (swap_lt ha hb hp)

theorem clearEntry_alike (same : SameCoefficients base t t') (hi : i < base.unknowns)
    (hk : k < base.height) :
    Alike (SameSweep base) (t.clearEntry i k) (t'.clearEntry i k) := by
  have hheight := same.lt_height hi
  unfold clearEntry
  rw [same.entry_eq hk hi, same.entry_eq hheight hi, same.ring_eq]
  refine Alike.bind_self _ fun target => ?_
  split
  · exact .ok ⟨same, rfl⟩
  · refine Alike.bind_self _ fun pivot => Alike.bind_self _ fun multiplier => ?_
    cases multiplier with
    | none => exact .ok ⟨same, rfl⟩
    | some multiplier =>
        refine Alike.bind_self _ fun factor => ?_
        exact (same.addMultiple_alike hk hheight factor).bind fun u u' hu => .ok ⟨hu, rfl⟩

end SameCoefficients

theorem SameSweep.andThen_alike {s s' : Sweep} (hs : SameSweep base s s')
    {step : Tableau → Checked Sweep}
    (hstep : ∀ t t', SameCoefficients base t t' → Alike (SameSweep base) (step t) (step t')) :
    Alike (SameSweep base) (s.andThen step) (s'.andThen step) := by
  unfold Sweep.andThen
  rw [hs.stopped_eq]
  cases s.stopped with
  | none => exact hstep _ _ hs.coefficients
  | some refusal => exact .ok hs

namespace SameCoefficients

theorem clearBelow_alike (same : SameCoefficients base t t') (hi : i < base.unknowns) :
    Alike (SameSweep base) (t.clearBelow i) (t'.clearBelow i) := by
  unfold clearBelow
  rw [same.left_shape.rowsFrom_eq, same.right_shape.rowsFrom_eq]
  apply Alike.foldlM
  · intro k hk s s' hs
    exact hs.andThen_alike fun u u' hu => hu.clearEntry_alike hi (mem_rowsFrom.1 hk).2
  · exact ⟨same, rfl⟩

theorem pivotOn_alike (same : SameCoefficients base t t') (hi : i < base.unknowns)
    (hp : p ∈ base.block i i) : Alike (SameSweep base) (t.pivotOn i p) (t'.pivotOn i p) := by
  obtain ⟨hrow, hcol⟩ := mem_block.1 hp
  unfold pivotOn
  refine (same.swapRows_alike (same.lt_height hi) hrow.2).bind fun u u' hu => ?_
  refine (hu.swapColumns_alike hi hcol.2).bind fun v v' hv => ?_
  exact hv.clearBelow_alike hi

/-! ## The sweep -/

theorem step_alike (same : SameCoefficients base t t') (freeColumns : Bool)
    (hi : i < base.unknowns) :
    Alike (SameSweep base) (t.step freeColumns i) (t'.step freeColumns i) := by
  unfold step
  refine (same.choosePivot_alike i i).bind ?_
  rintro ⟨u, p⟩ ⟨u', p'⟩ ⟨hu, rfl, hp⟩
  cases p' with
  | some p => exact hu.pivotOn_alike hi (hp p rfl)
  | none =>
      cases freeColumns with
      | false => exact .ok ⟨hu, rfl⟩
      | true =>
          have hdiagonal : (⟨i, i⟩ : Position) ∈ base.block i i :=
            mem_block.2 ⟨⟨Nat.le_refl i, same.lt_height hi⟩, Nat.le_refl i, hi⟩
          exact hu.pivotOn_alike hi hdiagonal

theorem triangularize_alike (same : SameCoefficients base t t') (freeColumns : Bool) :
    Alike (SameSweep base) (t.triangularize freeColumns) (t'.triangularize freeColumns) := by
  unfold triangularize
  rw [same.left_shape.unknowns_eq, same.right_shape.unknowns_eq]
  apply Alike.foldlM
  · intro i hi s s' hs
    exact hs.andThen_alike fun u u' hu => hu.step_alike freeColumns (List.mem_range.1 hi)
  · exact ⟨same, rfl⟩

/-! ## What depends on the coefficients alone -/

theorem map_take_eq (same : SameCoefficients base t t') :
    t'.rows.map (·.take base.unknowns) = t.rows.map (·.take base.unknowns) := by
  have hleft := same.left_shape
  have hright := same.right_shape
  apply List.ext_getElem?
  intro r
  rw [List.getElem?_map, List.getElem?_map]
  by_cases hr : r < base.height
  · obtain ⟨row, hrow, -⟩ := same.left.getElem?_row (hleft.height_eq.symm ▸ hr)
    obtain ⟨row', hrow', -⟩ := same.right.getElem?_row (hright.height_eq.symm ▸ hr)
    rw [hrow, hrow', Option.map_some, Option.map_some]
    congr 1
    apply List.ext_getElem?
    intro c
    rw [List.getElem?_take, List.getElem?_take]
    split
    · rename_i hc
      rw [same.left.getElem?_of_row hrow (hleft.unknowns_eq.symm ▸ hc.le),
        same.right.getElem?_of_row hrow' (hright.unknowns_eq.symm ▸ hc.le), same.value_eq _ hc]
    · rfl
  · rw [List.getElem?_eq_none (hleft.height_eq.trans_le (Nat.le_of_not_lt hr)),
      List.getElem?_eq_none (hright.height_eq.trans_le (Nat.le_of_not_lt hr))]

theorem prod_gcdOf_eq (same : SameCoefficients base t t') :
    ∏ c ∈ Finset.range t'.unknowns, t'.gcdOf ⟨c, c⟩ =
      ∏ c ∈ Finset.range t.unknowns, t.gcdOf ⟨c, c⟩ := by
  rw [same.left_shape.unknowns_eq, same.right_shape.unknowns_eq]
  apply Finset.prod_congr rfl
  intro c hc
  rw [gcdOf, gcdOf, same.value_eq ⟨c, c⟩ (Finset.mem_range.1 hc), same.ring_eq]

theorem multiplicity_eq (same : SameCoefficients base t t') :
    t'.multiplicity = t.multiplicity := by
  rw [same.left.multiplicity_ok, same.right.multiplicity_ok, same.prod_gcdOf_eq]

theorem card_kernel_eq (same : SameCoefficients base t t') :
    Nat.card t'.kernel = Nat.card t.kernel := by
  rw [card_kernel_eq_ncard, card_kernel_eq_ncard, same.ring_eq, same.left_shape.unknowns_eq,
    same.right_shape.unknowns_eq]
  apply congrArg Set.ncard
  exact annihilated_congr fun r c hc => same.value_eq ⟨r, c⟩ hc

end SameCoefficients

end LinearCongruence.Tableau
