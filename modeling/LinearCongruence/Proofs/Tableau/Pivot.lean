import LinearCongruence.Proofs.Tableau.Exhaustive
import LinearCongruence.Tableau.Pivot
/-!
# The choice of a pivot

A search for a pivot succeeds and finds an entry whose gcd with the modulus is no greater
than any of its block; the rounds that follow it end with a gcd that divides its column. They
end of themselves (`Choice`), so that the bound on their number is never met. Main facts:

* `search_ok` : one search, which combines two rows at most;
* `round_ok` : one round, which lowers the gcd;
* `refine_ok` : the rounds;
* `choosePivot_ok` : a pivot divides its column, and none is missing but in a block of zeros;
* `choosePivot_eq` : in a block of zeros none is found.
-/

namespace LinearCongruence.Tableau

variable {t u : Tableau} {i j : Nat} {p : Position}

/-! ## One search -/

/-- An entry at `p` of the tableau `u` that combinations of rows of `t` lead to, no worse
than any entry of the block before. -/
structure Found (i j : Nat) (t u : Tableau) (p : Position) : Prop where
  steps : RowSteps i t u
  mem_block : p ∈ t.block i j
  gcdOf_le : ∀ q ∈ t.block i j, u.gcdOf p ≤ t.gcdOf q
  gcdOf_lt : u.gcdOf p < t.ring.modulus ∨ t.ring.modulus = 1

theorem Found.state (h : Found i j t u p) (ht : t.Rectangular) :
    u.Rectangular ∧ SameShape t u ∧ p ∈ u.block i j ∧
      (u.gcdOf p < u.ring.modulus ∨ u.ring.modulus = 1) := by
  have hshape := h.steps.sameShape ht
  refine ⟨h.steps.rectangular ht, hshape, ?_, ?_⟩
  · rw [hshape.block_eq]
    exact h.mem_block
  · rw [hshape.ring_eq]
    exact h.gcdOf_lt

/-- Nothing but zeros in the block, over a ring in which zero is no unit. -/
def NoPivot (t : Tableau) (i j : Nat) : Prop :=
  ∀ p ∈ t.block i j, t.valueAt p = 0 ∧ t.ring.modulus ≠ 1

theorem Rectangular.addMultiple_candidate (h : t.Rectangular) {best : Candidate}
    (hbest : t.IsCandidate i j best) (hne : best.multiplier ≠ 0) :
    ∃ u, t.addMultiple best.position.row best.partner best.multiplier = .ok u ∧
      RowStep i t u ∧ u.gcdOf best.position = best.gcd := by
  obtain ⟨hrow, -⟩ := mem_block.1 hbest.mem_block
  obtain ⟨u, hadd, -, hshape, -, hval⟩ :=
    h.addMultiple_ok best.multiplier hrow.2 hbest.partner_lt
  refine ⟨u, hadd, .addMultiple _ _ _ ⟨hrow.1, hbest.partner_ge⟩ ⟨hrow.2, hbest.partner_lt⟩
    (hbest.partner_ne hne) (hbest.filled hne) hadd, ?_⟩
  rw [gcdOf, hval, if_pos rfl, hshape.ring_eq, Euclid.gcd_emod_left, hbest.gcd_eq]

theorem Rectangular.found_of_unit (h : t.Rectangular) (hp : p ∈ t.block i j)
    (hone : t.gcdOf p = 1) : Found i j t t p := by
  have hpos := h.modulus_pos
  refine ⟨.refl, hp, ?_, by omega⟩
  intro q _
  rw [hone]
  exact (h.gcdOf_bounds q).1

theorem Rectangular.noPivot_of_gcd_ge (h : t.Rectangular) (hunit : ∀ p ∈ t.block i j, t.gcdOf p ≠ 1)
    (hge : ∀ p ∈ t.block i j, t.ring.modulus ≤ t.gcdOf p) : t.NoPivot i j := by
  intro p hp
  have heq : t.gcdOf p = t.ring.modulus := Nat.le_antisymm (h.gcdOf_bounds p).2 (hge p hp)
  exact ⟨(h.valueAt_eq_zero_iff p).2 heq, heq ▸ hunit p hp⟩

theorem IsCandidate.found {best : Candidate} (hbest : t.IsCandidate i j best)
    (hleast : ∀ q ∈ t.block i j, best.gcd ≤ t.gcdOf q) (hlt : best.gcd < t.ring.modulus)
    (steps : RowSteps i t u) (hgcd : (u.gcdOf best.position : Int) = best.gcd) :
    Found i j t u best.position := by
  refine ⟨steps, hbest.mem_block, ?_, .inl (by omega)⟩
  intro q hq
  have hle := hleast q hq
  omega

theorem Rectangular.search_ok (h : t.Rectangular) (i j : Nat) :
    t.search i j = .ok (t, none) ∧ t.NoPivot i j ∨
      ∃ u p, t.search i j = .ok (u, some p) ∧ Found i j t u p := by
  obtain ⟨best, hbest, hle, hleast, hcandidate⟩ := h.bestCandidate_ok i j
  unfold search
  rw [h.firstUnit?_ok, Checked.ok_bind]
  cases hunit : (t.block i j).find? fun p => decide (t.gcdOf p = 1) with
  | some p =>
      have hone : t.gcdOf p = 1 := by simpa using List.find?_some hunit
      exact .inr ⟨t, p, rfl, h.found_of_unit (List.mem_of_find?_eq_some hunit) hone⟩
  | none =>
      dsimp only
      rw [hbest, Checked.ok_bind, ResidueRing.word_of_valid h.valid]
      by_cases hmodulus : best.gcd = t.ring.modulus
      · rw [if_pos hmodulus]
        refine .inl ⟨rfl, h.noPivot_of_gcd_ge ?_ ?_⟩
        · simpa using hunit
        · intro p hp
          have := hleast p hp
          omega
      · have hlt : best.gcd < t.ring.modulus := by omega
        have hcandidate := hcandidate.resolve_left hmodulus
        rw [if_neg hmodulus]
        by_cases hzero : best.multiplier = 0
        · have hgcd : (t.gcdOf best.position : Int) = best.gcd := by
            simp [gcdOf, hcandidate.gcd_eq, hzero]
          rw [if_pos hzero]
          exact .inr ⟨t, _, rfl, hcandidate.found hleast hlt .refl hgcd⟩
        · obtain ⟨u, hadd, hstep, hgcd⟩ := h.addMultiple_candidate hcandidate hzero
          rw [if_neg hzero, hadd]
          exact .inr ⟨u, _, rfl, hcandidate.found hleast hlt (.single hstep) hgcd⟩

/-! ## The rounds of a choice -/

def DividesColumn (t : Tableau) (i : Nat) (p : Position) : Prop :=
  ∀ k, i ≤ k → (t.gcdOf p : Int) ∣ t.valueAt ⟨k, p.col⟩

theorem Rectangular.blocker?_ok (h : t.Rectangular) (hp : p ∈ t.block i j) :
    t.blocker? i p.col (t.gcdOf p) =
      .ok ((t.rowsFrom i).find? fun k =>
        decide (t.valueAt ⟨k, p.col⟩ % (t.gcdOf p : Int) ≠ 0)) := by
  obtain ⟨hpos, -⟩ := h.gcdOf_bounds p
  apply Checked.findM?_ok
  intro k hk
  have hcol := (mem_block.1 hp).2
  rw [h.entry_eq (mem_rowsFrom.1 hk).2 (by omega), Checked.ok_bind,
    Word.rem_of_pos (by omega), Int.tmod_eq_emod_of_nonneg (h.valueAt_bounds _).1]
  rfl

theorem dividesColumn_of_find?_eq_none
    (hnone : ((t.rowsFrom i).find? fun k =>
      decide (t.valueAt ⟨k, p.col⟩ % (t.gcdOf p : Int) ≠ 0)) = none) :
    t.DividesColumn i p := by
  intro k hk
  by_cases hlt : k < t.height
  · have := List.find?_eq_none.1 hnone k (mem_rowsFrom.2 ⟨hk, hlt⟩)
    exact Int.dvd_of_emod_eq_zero (by simpa using this)
  · rw [valueAt_of_height_le (Nat.le_of_not_lt hlt)]
    exact Int.dvd_zero _

theorem Rectangular.of_blocker?_eq_some (h : t.Rectangular) (hp : p ∈ t.block i j) {k : Nat}
    (hblocker : t.blocker? i p.col (t.gcdOf p) = .ok (some k)) :
    (i ≤ k ∧ k < t.height) ∧ ¬(t.gcdOf p : Int) ∣ t.valueAt ⟨k, p.col⟩ := by
  rw [h.blocker?_ok hp, Except.ok.injEq] at hblocker
  have hrem := List.find?_some hblocker
  rw [decide_eq_true_iff] at hrem
  exact ⟨mem_rowsFrom.1 (List.mem_of_find?_eq_some hblocker),
    fun hdvd => hrem (Int.emod_eq_zero_of_dvd hdvd)⟩

/-- One more round of a choice, where the gcd at a position leaves some entry of its column
undivided: a multiple of the row of the first such entry is added, which lowers the gcd, and the
block is searched anew. -/
inductive Round (i j : Nat) (s s' : Tableau × Position) : Prop
  | again (g a b : Int) (k : Nat) (better : ResidueRing.Combination) (v : Tableau)
      (gcd : s.1.gcdAt s.2 = .ok g) (blocker : s.1.blocker? i s.2.col g = .ok (some k))
      (entry : s.1.entryAt s.2 = .ok a) (below : s.1.entry k s.2.col = .ok b)
      (combination : s.1.ring.fullCombination a b = .ok better) (lower : better.gcd < g)
      (added : s.1.addMultiple s.2.row k better.multiplier = .ok v)
      (searched : v.search i j = .ok (s'.1, some s'.2))

def Settled (i : Nat) (s : Tableau × Position) : Prop :=
  ∃ g, s.1.gcdAt s.2 = .ok g ∧ s.1.blocker? i s.2.col g = .ok none

/-- A choice that has come to its end, with no bound on the number of its rounds. -/
inductive Choice (i j : Nat) (t : Tableau) : Tableau × Option Position → Prop
  | absent (u : Tableau) (searched : t.search i j = .ok (u, none)) : Choice i j t (u, none)
  | pivot (first last : Tableau × Position)
      (searched : t.search i j = .ok (first.1, some first.2))
      (rounds : Relation.ReflTransGen (Round i j) first last) (settled : Settled i last) :
      Choice i j t (last.1, some last.2)

theorem refine_of_settled {rounds : Nat} (h : Settled i (t, p)) :
    refine i j (rounds + 1) t p = .ok (t, some p) := by
  obtain ⟨g, hgcd, hblocker⟩ := h
  unfold refine
  rw [hgcd, Checked.ok_bind, hblocker]
  rfl

theorem refine_of_round {rounds : Nat} {q : Position} (h : Round i j (t, p) (u, q)) :
    refine i j (rounds + 1) t p = refine i j rounds u q := by
  obtain ⟨g, a, b, k, better, v, hgcd, hblocker, ha, hb, hfull, hlower, hadd, hsearch⟩ := h
  dsimp only at hgcd hblocker ha hb hfull hadd hsearch
  have hnot : ¬g ≤ better.gcd := by omega
  conv_lhs => unfold refine
  rw [hgcd, Checked.ok_bind, hblocker, Checked.ok_bind]
  dsimp only
  rw [ha, Checked.ok_bind, hb, Checked.ok_bind, hfull, Checked.ok_bind, if_neg hnot, hadd,
    Checked.ok_bind, hsearch]
  rfl

theorem Rectangular.fullCombination_blocker (h : t.Rectangular) (hp : p ∈ t.block i j)
    (hlt : t.gcdOf p < t.ring.modulus ∨ t.ring.modulus = 1) {k : Nat}
    (hk : i ≤ k ∧ k < t.height) (hdvd : ¬(t.gcdOf p : Int) ∣ t.valueAt ⟨k, p.col⟩) :
    ∃ better u, t.ring.fullCombination (t.valueAt p) (t.valueAt ⟨k, p.col⟩) = .ok better ∧
      better.gcd < t.gcdOf p ∧ t.addMultiple p.row k better.multiplier = .ok u ∧
      RowStep i t u ∧ u.gcdOf p = better.gcd := by
  obtain ⟨hrow, hcol⟩ := mem_block.1 hp
  have ha := h.valueAt_bounds p
  have hb := h.valueAt_bounds ⟨k, p.col⟩
  have hmodulus := h.valid.2
  obtain ⟨better, hfull, hval, hreached, -, -⟩ :=
    ResidueRing.fullCombination_of_valid h.valid ha.1 (by omega) hb.1 (by omega)
  have hne : p.row ≠ k := by
    rintro rfl
    exact hdvd (Int.gcd_dvd_left _ _)
  have hfilled : t.Filled p.row := by
    refine ⟨p.col, hcol.2, fun hzero => hdvd ?_⟩
    have hone : t.gcdOf p = 1 := by
      have hgcd := (h.valueAt_eq_zero_iff p).1 hzero
      omega
    rw [hone]
    exact Int.one_dvd _
  obtain ⟨u, hadd, -, hshape, -, huval⟩ :=
    h.addMultiple_ok better.multiplier hrow.2 hk.2
  refine ⟨better, u, hfull, ?_, hadd,
    .addMultiple _ _ _ ⟨hrow.1, hk.1⟩ ⟨hrow.2, hk.2⟩ hne hfilled hadd, ?_⟩
  · have hdvdgcd : Int.gcd (Int.gcd (t.valueAt p) (t.valueAt ⟨k, p.col⟩)) t.ring.modulus ∣
        t.gcdOf p := by
      apply Int.dvd_gcd
      · exact (Int.gcd_dvd_left _ _).trans (Int.gcd_dvd_left _ _)
      · exact Int.gcd_dvd_right _ _
    have hlt := Nat.lt_of_le_of_ne (Nat.le_of_dvd (h.gcdOf_bounds p).1 hdvdgcd) (by
      intro heq
      apply hdvd
      rw [← heq]
      exact (Int.gcd_dvd_left _ _).trans (Int.gcd_dvd_right _ _))
    rw [hreached]
    exact_mod_cast hlt
  · rw [gcdOf, huval, if_pos rfl, hshape.ring_eq, Euclid.gcd_emod_left, hval]

/-- Either the gcd divides its column, or a round follows and lowers it. -/
theorem Rectangular.round_ok (h : t.Rectangular) (hp : p ∈ t.block i j)
    (hlt : t.gcdOf p < t.ring.modulus ∨ t.ring.modulus = 1) :
    Settled i (t, p) ∧ t.DividesColumn i p ∨
      ∃ u q, Round i j (t, p) (u, q) ∧ RowSteps i t u ∧ q ∈ t.block i j ∧
        u.gcdOf q < t.gcdOf p := by
  have hblocker := h.blocker?_ok hp
  cases hfind : (t.rowsFrom i).find? fun k =>
      decide (t.valueAt ⟨k, p.col⟩ % (t.gcdOf p : Int) ≠ 0) with
  | none =>
      rw [hfind] at hblocker
      exact .inl ⟨⟨_, h.gcdAt_eq hp, hblocker⟩, dividesColumn_of_find?_eq_none hfind⟩
  | some k =>
      rw [hfind] at hblocker
      obtain ⟨hk, hdvd⟩ := h.of_blocker?_eq_some hp hblocker
      obtain ⟨better, u, hfull, hlower, hadd, hstep, hgcd⟩ :=
        h.fullCombination_blocker hp hlt hk hdvd
      have hcol := (mem_block.1 hp).2
      have hu : RowSteps i t u := .single hstep
      have hshape := hu.sameShape h
      have hblock := hshape.block_eq i j
      rcases (hu.rectangular h).search_ok i j with ⟨-, hnone⟩ | ⟨v, q, hsearch, hfound⟩
      · -- The entry just made is not zero, so that the search cannot fail.
        have hzero := ((hu.rectangular h).valueAt_eq_zero_iff p).1 (hnone p (hblock ▸ hp)).1
        have hle := (h.gcdOf_bounds p).2
        rw [hzero, hshape.ring_eq] at hgcd
        omega
      · have hle : v.gcdOf q ≤ u.gcdOf p := hfound.gcdOf_le p (hblock ▸ hp)
        refine .inr ⟨v, q, ?_, hu.trans hfound.steps, hblock ▸ hfound.mem_block, by omega⟩
        exact .again _ _ _ k better u (h.gcdAt_eq hp) hblocker (h.entryAt_eq hp)
          (h.entry_eq hk.2 (Nat.le_of_lt hcol.2)) hfull hlower hadd hsearch

/-- The rounds end with a pivot, provided that there are as many as the gcd to start with. -/
theorem Rectangular.refine_ok (h : t.Rectangular) {rounds : Nat} (hp : p ∈ t.block i j)
    (hlt : t.gcdOf p < t.ring.modulus ∨ t.ring.modulus = 1) (hrounds : t.gcdOf p ≤ rounds) :
    ∃ u q, refine i j rounds t p = .ok (u, some q) ∧
      Relation.ReflTransGen (Round i j) (t, p) (u, q) ∧ Settled i (u, q) ∧
      RowSteps i t u ∧ q ∈ t.block i j ∧ u.gcdOf q ≤ t.gcdOf p ∧ u.DividesColumn i q := by
  induction rounds generalizing t p with
  | zero =>
      have := (h.gcdOf_bounds p).1
      omega
  | succ rounds ih =>
      rcases h.round_ok hp hlt with ⟨hsettled, hcolumn⟩ | ⟨u, q, hround, hu, hq, hlower⟩
      · exact ⟨t, p, refine_of_settled hsettled, .refl, hsettled, .refl, hp, Nat.le_refl _,
          hcolumn⟩
      · have hshape := hu.sameShape h
        have hblock := hshape.block_eq i j
        have hbounds := (h.gcdOf_bounds p).2
        obtain ⟨v, r, hrefine, hrounds', hsettled, hsteps, hr, hle, hcolumn⟩ :=
          ih (hu.rectangular h) (hblock ▸ hq) (by rw [hshape.ring_eq]; omega) (by omega)
        refine ⟨v, r, ?_, .head hround hrounds', hsettled, hu.trans hsteps, hblock ▸ hr,
          by omega, hcolumn⟩
        rw [refine_of_round hround, hrefine]

structure IsPivot (i j : Nat) (t u : Tableau) (p : Position) : Prop extends Found i j t u p where
  dividesColumn : u.DividesColumn i p
  choice : Choice i j t (u, some p)

theorem Rectangular.choosePivot_ok (h : t.Rectangular) (i j : Nat) :
    t.choosePivot i j = .ok (t, none) ∧ t.NoPivot i j ∨
      ∃ u p, t.choosePivot i j = .ok (u, some p) ∧ IsPivot i j t u p := by
  unfold choosePivot
  rcases h.search_ok i j with ⟨hsearch, hnone⟩ | ⟨u, p, hsearch, hfound⟩
  · rw [hsearch]
    exact .inl ⟨rfl, hnone⟩
  · obtain ⟨hu, hushape, hp, hlt⟩ := hfound.state h
    obtain ⟨v, q, hrefine, hrounds, hsettled, hsteps, hq, hle, hcolumn⟩ :=
      hu.refine_ok hp hlt (hu.gcdOf_bounds p).2
    rw [hsearch, Checked.ok_bind]
    refine .inr ⟨v, q, hrefine, ⟨hfound.steps.trans hsteps, hushape.block_eq i j ▸ hq, ?_, ?_⟩,
      hcolumn, .pivot (u, p) (v, q) hsearch hrounds hsettled⟩
    · exact fun r hr => hle.trans (hfound.gcdOf_le r hr)
    · exact hfound.gcdOf_lt.imp_left hle.trans_lt

theorem NoPivot.valueAt_eq_zero (hnone : t.NoPivot i j) {r c : Nat} (hr : i ≤ r) (hc : j ≤ c)
    (hlt : c < t.unknowns) : t.valueAt ⟨r, c⟩ = 0 := by
  by_cases hheight : r < t.height
  · exact (hnone ⟨r, c⟩ (mem_block.2 ⟨⟨hr, hheight⟩, hc, hlt⟩)).1
  · exact valueAt_of_height_le (Nat.le_of_not_lt hheight) c

theorem NoPivot.search_eq (hnone : t.NoPivot i j) (h : t.Rectangular) :
    t.search i j = .ok (t, none) := by
  rcases h.search_ok i j with ⟨hsearch, -⟩ | ⟨u, p, -, hfound⟩
  · exact hsearch
  · obtain ⟨hrow, hcol, hlt⟩ := mem_block.1 hfound.mem_block
    have hzero : u.valueAt p = 0 := hfound.steps.column_eq_zero h
      (fun r hr => hnone.valueAt_eq_zero hr hcol hlt) hrow.1
    have hgcd := ((hfound.steps.rectangular h).valueAt_eq_zero_iff p).1 hzero
    have hmodulus := (hnone p hfound.mem_block).2
    rw [(hfound.steps.sameShape h).ring_eq] at hgcd
    rcases hfound.gcdOf_lt with hgcdlt | hone
    · omega
    · exact absurd hone hmodulus

theorem NoPivot.choosePivot_eq (hnone : t.NoPivot i j) (h : t.Rectangular) :
    t.choosePivot i j = .ok (t, none) := by
  unfold choosePivot
  rw [hnone.search_eq h]
  rfl

end LinearCongruence.Tableau
