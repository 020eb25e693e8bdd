import LinearCongruence.Proofs.Tableau.Pivot
/-!
# What a choice of a pivot promises

A block may begin at any row and column, beyond the tableau too, and the tableau need not have
a row for every unknown. The first unit of a block is its pivot as it stands. Where there is no
unit, rows of the block are combined until the gcd of an entry divides its column, and nothing
else is changed. Main facts:

* `pairwise_block` : the positions of a block are in row-major order;
* `choosePivot_of_unit` : the first unit of a block;
* `choosePivot_divides_column` : what a choice leaves, whether it finds a pivot or not.
-/

namespace LinearCongruence

def Position.Before (p q : Position) : Prop := p.row < q.row ∨ p.row = q.row ∧ p.col < q.col

namespace Tableau

variable {t u : Tableau} {i j : Nat} {p : Position}

def InBlock (t : Tableau) (i j : Nat) (p : Position) : Prop :=
  (i ≤ p.row ∧ p.row < t.height) ∧ j ≤ p.col ∧ p.col < t.unknowns

instance (t : Tableau) (i j : Nat) (p : Position) : Decidable (t.InBlock i j p) :=
  inferInstanceAs (Decidable (_ ∧ _))

theorem mem_block_iff_inBlock : p ∈ t.block i j ↔ t.InBlock i j p := mem_block

/-! ## The first unit -/

theorem pairwise_block (t : Tableau) (i j : Nat) : (t.block i j).Pairwise Position.Before := by
  unfold block
  rw [List.pairwise_flatMap]
  constructor
  · intro row _
    rw [List.pairwise_map]
    apply List.Pairwise.imp _ List.pairwise_lt_range'
    intro col col' hlt
    exact .inr ⟨rfl, hlt⟩
  · apply List.Pairwise.imp _ List.pairwise_lt_range'
    intro row row' hlt p hp q hq
    obtain ⟨col, -, rfl⟩ := List.mem_map.1 hp
    obtain ⟨col', -, rfl⟩ := List.mem_map.1 hq
    exact .inl hlt

theorem find?_block_eq_some (hp : t.InBlock i j p) (hone : t.gcdOf p = 1)
    (hfirst : ∀ q, t.InBlock i j q → q.Before p → t.gcdOf q ≠ 1) :
    ((t.block i j).find? fun q => decide (t.gcdOf q = 1)) = some p := by
  obtain ⟨before, after, hblock⟩ := List.append_of_mem (mem_block_iff_inBlock.2 hp)
  rw [List.find?_eq_some_iff_append]
  refine ⟨by simpa using hone, before, after, hblock, ?_⟩
  intro q hq
  have hpairwise := t.pairwise_block i j
  rw [hblock, List.pairwise_append] at hpairwise
  have hmem : q ∈ t.block i j := by simp [hblock, hq]
  have hbefore : q.Before p := hpairwise.2.2 q hq p (by simp)
  simpa using hfirst q (mem_block_iff_inBlock.1 hmem) hbefore

theorem Rectangular.choosePivot_of_unit (h : t.Rectangular)
    (hfind : ((t.block i j).find? fun q => decide (t.gcdOf q = 1)) = some p) :
    t.choosePivot i j = .ok (t, some p) := by
  have hp : p ∈ t.block i j := List.mem_of_find?_eq_some hfind
  have hone : t.gcdOf p = 1 := by simpa using List.find?_some hfind
  have hpos : 0 < t.ring.modulus := h.valid.1
  have hsearch : t.search i j = .ok (t, some p) := by
    unfold search
    rw [h.firstUnit?_ok, Checked.ok_bind, hfind]
    rfl
  have hsettled : Settled i (t, p) := by
    rcases h.round_ok hp (by omega) with ⟨hsettled, -⟩ | ⟨u, q, -, hu, -, hlower⟩
    · exact hsettled
    · -- No gcd lies below one.
      have hbounds := (hu.rectangular h).gcdOf_bounds q
      omega
  obtain ⟨rounds, hrounds⟩ := Nat.exists_eq_add_one_of_ne_zero (Nat.ne_of_gt hpos)
  unfold choosePivot
  rw [hsearch, Checked.ok_bind]
  dsimp only
  rw [hrounds, refine_of_settled hsettled]

/-! ## Any choice -/

/-- The entry at `p` of the tableau `u` is a pivot of the block of `t`: it is not zero where
there is more than one residue, and its gcd with the modulus divides its column and is no
greater than the gcd of any entry that the block had. -/
structure LeastPivot (i j : Nat) (t u : Tableau) (p : Position) : Prop where
  inBlock : t.InBlock i j p
  ne_zero : 2 ≤ t.ring.modulus → u.valueAt p ≠ 0
  dvd_column : ∀ k, i ≤ k → k < t.height →
    (Int.gcd (u.valueAt p) t.ring.modulus : Int) ∣ u.valueAt ⟨k, p.col⟩
  gcd_le : ∀ q, t.InBlock i j q →
    Int.gcd (u.valueAt p) t.ring.modulus ≤ Int.gcd (t.valueAt q) t.ring.modulus

theorem IsPivot.leastPivot (hpivot : IsPivot i j t u p) (h : t.Rectangular) :
    LeastPivot i j t u p := by
  have hring := (hpivot.steps.sameShape h).ring_eq
  have hgcd : Int.gcd (u.valueAt p) t.ring.modulus = u.gcdOf p := by rw [gcdOf, hring]
  refine ⟨mem_block.1 hpivot.mem_block, ?_, ?_, ?_⟩
  · intro hmodulus hzero
    have hlt := hpivot.gcdOf_lt
    rw [(hpivot.steps.rectangular h).valueAt_eq_zero_iff p, hring] at hzero
    omega
  · intro k hk _
    rw [hgcd]
    exact hpivot.dividesColumn k hk
  · intro q hq
    rw [hgcd]
    exact hpivot.gcdOf_le q (mem_block.2 hq)

theorem noPivot_iff (hmodulus : 2 ≤ t.ring.modulus) :
    t.NoPivot i j ↔ ∀ p, t.InBlock i j p → t.valueAt p = 0 := by
  have hne : t.ring.modulus ≠ 1 := by omega
  constructor
  · intro hnone p hp
    exact (hnone p (mem_block.2 hp)).1
  · intro hzero p hp
    exact ⟨hzero p (mem_block.1 hp), hne⟩

/-- Every choice comes to its end after finitely many rounds. It finds no pivot exactly in a
block of zeros, and then changes nothing; what it finds is a pivot, and the first unit as it
stands where the block has units. No choice touches the order or a row before the block. -/
theorem choosePivot_divides_column (t : Tableau) (i j : Nat) (ht : t.Rectangular) :
    ∃ u found, t.choosePivot i j = .ok (u, found) ∧ Choice i j t (u, found) ∧
      SameShape t u ∧ u.order = t.order ∧
      (∀ r, ¬(i ≤ r ∧ r < t.height) → u.rows[r]? = t.rows[r]?) ∧
      (2 ≤ t.ring.modulus → (found = none ↔ ∀ p, t.InBlock i j p → t.valueAt p = 0)) ∧
      (found = none → u = t) ∧
      (∀ p, found = some p → LeastPivot i j t u p) ∧
      ∀ p, t.InBlock i j p → Int.gcd (t.valueAt p) t.ring.modulus = 1 →
        (∀ q, t.InBlock i j q → q.Before p → Int.gcd (t.valueAt q) t.ring.modulus ≠ 1) →
          found = some p ∧ u = t := by
  rcases ht.choosePivot_ok i j with ⟨hchoose, hnone⟩ | ⟨u, p, hchoose, hpivot⟩
  · refine ⟨t, none, hchoose, .absent t (hnone.search_eq ht), .refl t, rfl, fun _ _ => rfl, ?_,
      fun _ => rfl, by simp, ?_⟩
    · intro hmodulus
      simpa using (noPivot_iff hmodulus).1 hnone
    · intro p hp hone hfirst
      have hunit := ht.choosePivot_of_unit (find?_block_eq_some hp hone hfirst)
      cases hchoose.symm.trans hunit
  · have hshape := hpivot.steps.sameShape ht
    refine ⟨u, some p, hchoose, hpivot.choice, hshape, hpivot.steps.order_eq ht, ?_, ?_, by simp,
      ?_, ?_⟩
    · intro r hr
      by_cases hi : r < i
      · exact hpivot.steps.getElem?_rows_eq ht hi
      · have hle : t.height ≤ r := by omega
        rw [List.getElem?_eq_none hle, List.getElem?_eq_none (hshape.height_eq.trans_le hle)]
    · intro hmodulus
      refine iff_of_false (by simp) ?_
      intro hzero
      have hnone := ((noPivot_iff hmodulus).2 hzero).choosePivot_eq ht
      cases hchoose.symm.trans hnone
    · rintro _ ⟨⟩
      exact hpivot.leastPivot ht
    · intro q hq hone hfirst
      have hunit := ht.choosePivot_of_unit (find?_block_eq_some hq hone hfirst)
      cases hchoose.symm.trans hunit
      exact ⟨rfl, rfl⟩

/-- Six and ten combine to two, which does not divide fifteen; one more round makes a unit. -/
theorem choosePivot_divides_column_mod_thirty :
    choosePivot ⟨⟨30⟩, 1, [[6, 0], [10, 0], [15, 0]], [7]⟩ 0 0 =
      .ok (⟨⟨30⟩, 1, [[1, 0], [10, 0], [15, 0]], [7]⟩, some ⟨0, 0⟩) ∧
    Choice 0 0 ⟨⟨30⟩, 1, [[6, 0], [10, 0], [15, 0]], [7]⟩
      (⟨⟨30⟩, 1, [[1, 0], [10, 0], [15, 0]], [7]⟩, some ⟨0, 0⟩) ∧
    LeastPivot 0 0 ⟨⟨30⟩, 1, [[6, 0], [10, 0], [15, 0]], [7]⟩
      ⟨⟨30⟩, 1, [[1, 0], [10, 0], [15, 0]], [7]⟩ ⟨0, 0⟩ := by
  have hchoose : choosePivot ⟨⟨30⟩, 1, [[6, 0], [10, 0], [15, 0]], [7]⟩ 0 0 =
      .ok (⟨⟨30⟩, 1, [[1, 0], [10, 0], [15, 0]], [7]⟩, some ⟨0, 0⟩) := by cbv
  obtain ⟨u, found, hfound, hchoice, -, -, -, -, -, hpivot, -⟩ :=
    choosePivot_divides_column ⟨⟨30⟩, 1, [[6, 0], [10, 0], [15, 0]], [7]⟩ 0 0
      ⟨by decide, by decide, by decide⟩
  cases hchoose.symm.trans hfound
  exact ⟨hchoose, hchoice, hpivot _ rfl⟩

end Tableau

end LinearCongruence
