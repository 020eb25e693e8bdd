import LinearCongruence.Proofs.Checked
import LinearCongruence.Proofs.ResidueRing.Linear
import LinearCongruence.Tableau.Exhaustive
import LinearCongruence.Tableau.Triangular
import Mathlib.Data.Int.Basic
import Mathlib.Order.Basic
import Mathlib.Logic.Equiv.Basic
/-!
# The entries of a tableau under its operations

A tableau is seen through its entries, which determine its rows. Each operation on rows or
columns succeeds within the tableau, keeps it reduced, and has one formula for the entries it
leaves; later proofs use these formulas and never open an operation. What reads or combines
rows only needs a rectangular tableau.
-/

namespace LinearCongruence

theorem Checked.swapAt_ok {α : Type} {l : List α} {a b : Nat} (ha : a < l.length)
    (hb : b < l.length) :
    ∃ ys, swapAt l a b = .ok ys ∧ ys.Perm l ∧ ∀ i, ys[i]? = l[Equiv.swap a b i]? := by
  refine ⟨(l.set a l[b]).set b l[a], ?_, List.set_set_perm ha hb, ?_⟩
  · exact swapAt_of_getElem? (List.getElem?_eq_getElem ha) (List.getElem?_eq_getElem hb)
  · intro i
    rw [List.getElem?_set, List.getElem?_set, List.length_set, Equiv.swap_apply_def]
    by_cases hib : b = i
    · subst hib
      by_cases hab : b = a
      · simp [hab, ha]
      · simp [hab, hb, ha]
    · by_cases hia : a = i
      · subst hia
        simp [hib, hb, ha]
      · simp [hib, hia, Ne.symm hia, Ne.symm hib]

namespace Tableau

variable {t u : Tableau}

structure SameShape (t u : Tableau) : Prop where
  ring_eq : u.ring = t.ring
  unknowns_eq : u.unknowns = t.unknowns
  height_eq : u.height = t.height

theorem SameShape.refl (t : Tableau) : SameShape t t := ⟨rfl, rfl, rfl⟩

theorem SameShape.trans {v : Tableau} (h : SameShape t u) (h' : SameShape u v) :
    SameShape t v :=
  ⟨h'.ring_eq.trans h.ring_eq, h'.unknowns_eq.trans h.unknowns_eq,
    h'.height_eq.trans h.height_eq⟩

/-! ## Reading entries -/

theorem Rectangular.modulus_pos (h : t.Rectangular) : (0 : Int) < t.ring.modulus :=
  ResidueRing.modulus_pos h.valid

theorem Reduced.lt_height (h : t.Reduced) {c : Nat} (hc : c < t.unknowns) : c < t.height :=
  hc.trans_le h.unknowns_le

theorem Rectangular.getElem?_row (h : t.Rectangular) {r : Nat} (hr : r < t.height) :
    ∃ row, t.rows[r]? = some row ∧ row ∈ t.rows ∧ row.length = t.unknowns + 1 := by
  have hmem : t.rows[r] ∈ t.rows := List.getElem_mem hr
  exact ⟨t.rows[r], List.getElem?_eq_getElem hr, hmem, h.length_eq _ hmem⟩

theorem valueAt_of_row {r : Nat} {row : List Int} (hrow : t.rows[r]? = some row) (c : Nat) :
    t.valueAt ⟨r, c⟩ = row[c]?.getD 0 := by
  rw [valueAt, hrow]
  rfl

theorem valueAt_of_height_le {r : Nat} (hr : t.height ≤ r) (c : Nat) :
    t.valueAt ⟨r, c⟩ = 0 := by
  rw [valueAt, List.getElem?_eq_none hr]
  rfl

theorem Rectangular.getElem?_of_row (h : t.Rectangular) {r c : Nat} {row : List Int}
    (hrow : t.rows[r]? = some row) (hc : c ≤ t.unknowns) : row[c]? = some (t.valueAt ⟨r, c⟩) := by
  have hlen := h.length_eq row (List.mem_of_getElem? hrow)
  rw [valueAt_of_row hrow, List.getElem?_eq_getElem (by omega), Option.getD_some]

theorem Rectangular.getLastD_drop (h : t.Rectangular) {r k : Nat} {row : List Int}
    (hrow : t.rows[r]? = some row) (hk : k ≤ t.unknowns) :
    (row.drop k).getLastD 0 = t.valueAt ⟨r, t.unknowns⟩ := by
  have hlen := h.length_eq row (List.mem_of_getElem? hrow)
  have hlast := h.getElem?_of_row hrow (Nat.le_refl _)
  rw [List.getLastD_eq_getLast?, List.getLast?_drop, if_neg (by omega),
    List.getLast?_eq_getElem?, hlen, Nat.add_sub_cancel, hlast, Option.getD_some]

theorem Rectangular.entry_eq (h : t.Rectangular) {r c : Nat} (hr : r < t.height)
    (hc : c ≤ t.unknowns) : t.entry r c = .ok (t.valueAt ⟨r, c⟩) := by
  obtain ⟨row, hrow, -⟩ := h.getElem?_row hr
  unfold entry
  rw [Checked.nth_of_getElem? hrow, Checked.ok_bind]
  exact Checked.nth_of_getElem? (h.getElem?_of_row hrow hc)

/-- A row is determined by its entries. -/
theorem Rectangular.getElem?_rows_eq (h : t.Rectangular) (hu : u.Rectangular)
    (hshape : SameShape t u) {r : Nat} (hval : ∀ c, u.valueAt ⟨r, c⟩ = t.valueAt ⟨r, c⟩) :
    u.rows[r]? = t.rows[r]? := by
  by_cases hr : r < t.height
  · obtain ⟨row, hrow, -, hlen⟩ := h.getElem?_row hr
    obtain ⟨row', hrow', -, hlen'⟩ := hu.getElem?_row (hshape.height_eq.symm ▸ hr)
    rw [hrow, hrow', Option.some_inj]
    apply List.ext_getElem (by rw [hlen, hlen', hshape.unknowns_eq])
    intro c hc' hc
    apply Option.some_inj.1
    rw [← List.getElem?_eq_getElem hc', ← List.getElem?_eq_getElem hc,
      h.getElem?_of_row hrow (by omega), hu.getElem?_of_row hrow' (by omega), hval]
  · have hle := Nat.le_of_not_lt hr
    rw [List.getElem?_eq_none hle, List.getElem?_eq_none (hshape.height_eq.trans_le hle)]

theorem Rectangular.valueAt_bounds (h : t.Rectangular) (p : Position) :
    0 ≤ t.valueAt p ∧ t.valueAt p < t.ring.modulus := by
  have hpos := h.modulus_pos
  rw [valueAt]
  cases hrow : t.rows[p.row]? with
  | none => simpa using hpos
  | some row =>
      cases hval : row[p.col]? with
      | none => simpa [hval] using hpos
      | some v =>
          simpa [hval] using
            h.range row (List.mem_of_getElem? hrow) v (List.mem_of_getElem? hval)

def gcdOf (t : Tableau) (p : Position) : Nat := Int.gcd (t.valueAt p) t.ring.modulus

theorem Rectangular.gcdOf_bounds (h : t.Rectangular) (p : Position) :
    0 < t.gcdOf p ∧ t.gcdOf p ≤ t.ring.modulus := by
  have hpos := h.modulus_pos
  have hle := Int.gcd_le_right (t.valueAt p) hpos
  exact ⟨Int.gcd_pos_of_ne_zero_right _ (Int.ne_of_gt hpos), by rw [gcdOf]; omega⟩

theorem Rectangular.valueAt_eq_zero_iff (h : t.Rectangular) (p : Position) :
    t.valueAt p = 0 ↔ t.gcdOf p = t.ring.modulus := by
  have hbounds := h.valueAt_bounds p
  constructor
  · intro hzero
    rw [gcdOf, hzero, Int.gcd_zero_left, Int.natAbs_natCast]
  · intro hgcd
    have hdvd : (t.ring.modulus : Int) ∣ t.valueAt p := by
      rw [← hgcd]
      exact Int.gcd_dvd_left _ _
    exact Int.eq_zero_of_dvd_of_nonneg_of_lt hbounds.1 hbounds.2 hdvd

/-! ## Operations -/

/-- A tableau is reduced with any rows of residues, as many and as long as before. -/
theorem Reduced.withRows (h : t.Reduced) {rows : List (List Int)}
    (hheight : rows.length = t.rows.length)
    (hlength : ∀ row ∈ rows, row.length = t.unknowns + 1)
    (hrange : ∀ row ∈ rows, ∀ v ∈ row, 0 ≤ v ∧ v < t.ring.modulus) :
    Reduced { t with rows := rows } :=
  ⟨⟨h.valid, hlength, hrange⟩, h.unknowns_pos, h.unknowns_le.trans_eq hheight.symm, h.order_perm⟩

theorem Reduced.swapRows_ok (h : t.Reduced) {a b : Nat} (ha : a < t.height)
    (hb : b < t.height) :
    ∃ u, t.swapRows a b = .ok u ∧ u.Reduced ∧ SameShape t u ∧ u.order = t.order ∧
      ∀ p, u.valueAt p = t.valueAt ⟨Equiv.swap a b p.row, p.col⟩ := by
  obtain ⟨rows, hswap, hperm, hget⟩ := Checked.swapAt_ok (l := t.rows) ha hb
  refine ⟨{ t with rows := rows }, ?_, ?_, ⟨rfl, rfl, hperm.length_eq⟩, rfl, ?_⟩
  · rw [swapRows, hswap]
    rfl
  · exact h.withRows hperm.length_eq (fun row hrow => h.length_eq row (hperm.mem_iff.1 hrow))
      fun row hrow => h.range row (hperm.mem_iff.1 hrow)
  · intro p
    simp only [valueAt, hget]

theorem Reduced.mapM_swapAt_ok (h : t.Reduced) {a b : Nat} (ha : a < t.unknowns)
    (hb : b < t.unknowns) :
    ∃ rows, t.rows.mapM (fun row => Checked.swapAt row a b) = .ok rows ∧
      Reduced { t with rows := rows } ∧ rows.length = t.rows.length ∧
      ∀ p, valueAt { t with rows := rows } p = t.valueAt ⟨p.row, Equiv.swap a b p.col⟩ := by
  obtain ⟨rows, hmap, hrows⟩ := Checked.mapM_ok (l := t.rows)
    (f := fun row => Checked.swapAt row a b)
    (fun row row' => row'.Perm row ∧ ∀ c : Nat, row'[c]? = row[Equiv.swap a b c]?) (by
      intro row hrow
      have := h.length_eq row hrow
      obtain ⟨row', hswap, hrow'⟩ := Checked.swapAt_ok (l := row) (a := a) (b := b)
        (by omega) (by omega)
      exact ⟨row', hswap, hrow'⟩)
  have hheight := hrows.length_eq
  refine ⟨rows, hmap, h.withRows hheight.symm ?_ ?_, hheight.symm, ?_⟩
  · intro row' hrow'
    obtain ⟨row, hrow, hperm, -⟩ := Checked.exists_of_forall₂_right hrows hrow'
    rw [hperm.length_eq]
    exact h.length_eq row hrow
  · intro row' hrow' v hv
    obtain ⟨row, hrow, hperm, -⟩ := Checked.exists_of_forall₂_right hrows hrow'
    exact h.range row hrow v (hperm.mem_iff.1 hv)
  · intro p
    by_cases hp : p.row < t.rows.length
    · have hp' : p.row < rows.length := by omega
      have hrow := (hrows.get hp hp').2 p.col
      rw [List.get_eq_getElem, List.get_eq_getElem] at hrow
      simp only [valueAt, List.getElem?_eq_getElem hp, List.getElem?_eq_getElem hp',
        Option.getD_some]
      rw [hrow]
    · simp only [valueAt, List.getElem?_eq_none (Nat.le_of_not_lt hp),
        List.getElem?_eq_none (hheight.symm.trans_le (Nat.le_of_not_lt hp)), Option.getD_none,
        List.getElem?_nil]

theorem Reduced.swapColumns_ok (h : t.Reduced) {a b : Nat} (ha : a < t.unknowns)
    (hb : b < t.unknowns) :
    ∃ u, t.swapColumns a b = .ok u ∧ u.Reduced ∧ SameShape t u ∧
      (∀ c : Nat, u.order[c]? = t.order[Equiv.swap a b c]?) ∧
      ∀ p, u.valueAt p = t.valueAt ⟨p.row, Equiv.swap a b p.col⟩ := by
  by_cases hab : a = b
  · subst hab
    refine ⟨t, by rw [swapColumns, if_pos rfl]; rfl, h, .refl t, ?_, ?_⟩ <;> simp
  · have hlen : t.order.length = t.unknowns := by
      rw [h.order_perm.length_eq, List.length_range]
    obtain ⟨order, horder, hperm, hget⟩ := Checked.swapAt_ok (l := t.order) (a := a) (b := b)
      (by omega) (by omega)
    obtain ⟨rows, hmap, hred, hheight, hval⟩ := h.mapM_swapAt_ok ha hb
    refine ⟨{ t with rows := rows, order := order }, ?_, ?_, ⟨rfl, rfl, hheight⟩, hget, hval⟩
    · unfold swapColumns
      rw [if_neg hab, hmap, Checked.ok_bind, horder]
      rfl
    · exact ⟨⟨hred.valid, hred.length_eq, hred.range⟩, hred.unknowns_pos, hred.unknowns_le,
        hperm.trans h.order_perm⟩

def combinedRow (ring : ResidueRing) (target source : List Int) (factor : Int) : List Int :=
  (target.zip source).map fun p => (p.1 + factor * p.2) % ring.modulus

theorem addScaled_eq {ring : ResidueRing} (h : ring.Valid) {target source : List Int}
    (factor : Int) (hlen : target.length = source.length) :
    addScaled ring target source factor = .ok (combinedRow ring target source factor) := by
  have hsum (p : Int × Int) : (do ring.add p.1 (← ring.mul factor p.2)) =
      .ok ((p.1 + factor * p.2) % ring.modulus) := by
    rw [ResidueRing.mul_of_valid h, Checked.ok_bind, ResidueRing.add_of_valid h,
      Int.add_emod_emod]
  unfold addScaled
  rw [Checked.mapM_eq_ok_map fun p _ => hsum p, Checked.ok_bind,
    List.drop_eq_nil_of_le hlen.le, List.append_nil]
  rfl

theorem combinedRow_spec {ring : ResidueRing} (h : ring.Valid) {target source : List Int}
    (factor : Int) (hlen : target.length = source.length) :
    (combinedRow ring target source factor).length = target.length ∧
      (∀ v ∈ combinedRow ring target source factor, 0 ≤ v ∧ v < ring.modulus) ∧
      ∀ c : Nat, (combinedRow ring target source factor)[c]?.getD 0 =
        (target[c]?.getD 0 + factor * source[c]?.getD 0) % ring.modulus := by
  unfold combinedRow
  refine ⟨by simp [hlen], ?_, ?_⟩
  · intro v hv
    obtain ⟨p, -, rfl⟩ := List.mem_map.1 hv
    exact ResidueRing.emod_bounds h _
  · intro c
    by_cases hc : c < target.length
    · have hc' : c < source.length := by omega
      simp [List.map_zip_eq_zipWith, hc, hc']
    · have hc' : ¬c < source.length := by omega
      simp [List.map_zip_eq_zipWith, hc, hc']

theorem Rectangular.addMultiple_eq (h : t.Rectangular) {target source : Nat}
    {targetRow sourceRow : List Int} (factor : Int) (htarget : t.rows[target]? = some targetRow)
    (hsource : t.rows[source]? = some sourceRow) :
    t.addMultiple target source factor = .ok { t with
      rows := t.rows.set target (combinedRow t.ring targetRow sourceRow factor) } := by
  obtain ⟨hlt, -⟩ := List.getElem?_eq_some_iff.1 htarget
  have hlen : targetRow.length = sourceRow.length :=
    (h.length_eq targetRow (List.mem_of_getElem? htarget)).trans
      (h.length_eq sourceRow (List.mem_of_getElem? hsource)).symm
  unfold addMultiple
  rw [Checked.nth_of_getElem? hsource, Checked.ok_bind, Checked.nth_of_getElem? htarget,
    Checked.ok_bind, addScaled_eq h.valid factor hlen, Checked.ok_bind,
    Checked.setAt_of_lt _ hlt]
  rfl

theorem Rectangular.addMultiple_ok (h : t.Rectangular) {target source : Nat} (factor : Int)
    (htarget : target < t.height) (hsource : source < t.height) :
    ∃ u, t.addMultiple target source factor = .ok u ∧ u.Rectangular ∧ SameShape t u ∧
      u.order = t.order ∧
      ∀ p, u.valueAt p =
        if p.row = target then
          (t.valueAt p + factor * t.valueAt ⟨source, p.col⟩) % t.ring.modulus
        else t.valueAt p := by
  obtain ⟨targetRow, htargetRow, -, htargetLen⟩ := h.getElem?_row htarget
  obtain ⟨sourceRow, hsourceRow, -, hsourceLen⟩ := h.getElem?_row hsource
  obtain ⟨hlen, hrange, hval⟩ := combinedRow_spec h.valid factor
    (htargetLen.trans hsourceLen.symm)
  refine ⟨_, h.addMultiple_eq factor htargetRow hsourceRow, ⟨h.valid, ?_, ?_⟩,
    ⟨rfl, rfl, List.length_set⟩, rfl, ?_⟩
  · intro row' hrow'
    rcases List.mem_or_eq_of_mem_set hrow' with hmem | rfl
    · exact h.length_eq row' hmem
    · exact hlen.trans htargetLen
  · intro row' hrow'
    rcases List.mem_or_eq_of_mem_set hrow' with hmem | rfl
    · exact h.range row' hmem
    · exact hrange
  · intro p
    by_cases hp : p.row = target
    · have hset : (t.rows.set target (combinedRow t.ring targetRow sourceRow factor))[p.row]? =
          some (combinedRow t.ring targetRow sourceRow factor) := by
        rw [hp, List.getElem?_set_self htarget]
      rw [if_pos hp, valueAt_of_row hset, hval]
      simp only [valueAt, hp, htargetRow, hsourceRow, Option.getD_some]
    · rw [if_neg hp]
      simp only [valueAt, List.getElem?_set_ne (Ne.symm hp)]

theorem Reduced.of_rectangular (h : t.Reduced) (hu : u.Rectangular) (hshape : SameShape t u)
    (horder : u.order = t.order) : u.Reduced := by
  refine ⟨hu, ?_, ?_, ?_⟩
  · rw [hshape.unknowns_eq]
    exact h.unknowns_pos
  · rw [hshape.unknowns_eq, hshape.height_eq]
    exact h.unknowns_le
  · rw [hshape.unknowns_eq, horder]
    exact h.order_perm

theorem Reduced.addMultiple_ok (h : t.Reduced) {target source : Nat} (factor : Int)
    (htarget : target < t.height) (hsource : source < t.height) :
    ∃ u, t.addMultiple target source factor = .ok u ∧ u.Reduced ∧ SameShape t u ∧
      u.order = t.order ∧
      ∀ p, u.valueAt p =
        if p.row = target then
          (t.valueAt p + factor * t.valueAt ⟨source, p.col⟩) % t.ring.modulus
        else t.valueAt p := by
  obtain ⟨u, hadd, hu, hshape, horder, hval⟩ :=
    h.toRectangular.addMultiple_ok factor htarget hsource
  exact ⟨u, hadd, h.of_rectangular hu hshape horder, hshape, horder, hval⟩

end Tableau

end LinearCongruence
