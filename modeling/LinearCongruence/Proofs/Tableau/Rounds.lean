import LinearCongruence.Proofs.Tableau.Pivot
/-!
# The rounds of a choice

A choice of a pivot goes from the entry of its first search to that of each round after it. The
rounds are determined, and as long as an entry of the column is left undivided there is a next one:
the combination with its row reaches the gcd of both entries and the modulus, which is less. So no
choice ends with an entry left undivided. Main facts:

* `fullCombination_first` : the first multiplier of a period that reaches that gcd;
* `Round.unique` : a round leads to one state only;
* `Visited.induct` : what holds of every state that a choice goes through;
* `Visited.choosePivot_eq` : the choice goes on from each of them;
* `fullCombination_lowers_gcd` : each of these states, up to a pivot that divides its column.
-/

namespace LinearCongruence

namespace ResidueRing

/-- The combination has the gcd that `a`, `b` and the modulus have together. Its multiplier lies in
the first period and is the first that has it. -/
structure IsFirstOfPeriod (ring : ResidueRing) (a b : Int) (found : Combination) : Prop where
  gcd_eq : found.gcd = Int.gcd ((a + found.multiplier * b) % ring.modulus) ring.modulus
  reached : found.gcd = Int.gcd (Int.gcd a b) ring.modulus
  lt_period : (found.multiplier : Int) < ring.modulus / Int.gcd b ring.modulus
  first : ∀ c : Nat, found.gcd = Int.gcd ((a + c * b) % ring.modulus) ring.modulus →
    found.multiplier ≤ c

theorem fullCombination_first {ring : ResidueRing} (h : ring.Valid) {a b : Int} (ha : 0 ≤ a)
    (halt : a < ring.modulus) (hb : 0 ≤ b) (hblt : b < ring.modulus) :
    ∃ found, ring.fullCombination a b = .ok found ∧ ring.IsFirstOfPeriod a b found := by
  have hmodulus := h.2
  obtain ⟨found, hfull, hgcd, hreached, hlt, hfirst⟩ :=
    fullCombination_of_valid h ha (by omega) hb (by omega)
  refine ⟨found, hfull, ?_, hreached, hlt, ?_⟩
  · rwa [Euclid.gcd_emod_left]
  · intro c hc
    rw [Euclid.gcd_emod_left] at hc
    by_contra hlt
    have := hfirst c (by omega)
    omega

end ResidueRing

namespace Tableau

variable {t : Tableau} {i j : Nat} {s s' s'' : Tableau × Position}

/-! ## The states of a choice -/

/-- A state that a choice goes through: the one that its first search leads to, or one that rounds
lead to from there. -/
def Visited (i j : Nat) (t : Tableau) (s : Tableau × Position) : Prop :=
  ∃ first : Tableau × Position, t.search i j = .ok (first.1, some first.2) ∧
    Relation.ReflTransGen (Round i j) first s

theorem Round.unique (h : Round i j s s') (h' : Round i j s s'') : s' = s'' := by
  obtain ⟨g, a, b, k, better, v, hgcd, hblocker, ha, hb, hfull, -, hadd, hsearch⟩ := h
  obtain ⟨g', a', b', k', better', v', hgcd', hblocker', ha', hb', hfull', -, hadd', hsearch'⟩ := h'
  cases hgcd.symm.trans hgcd'
  cases hblocker.symm.trans hblocker'
  cases ha.symm.trans ha'
  cases hb.symm.trans hb'
  cases hfull.symm.trans hfull'
  cases hadd.symm.trans hadd'
  have hsame := hsearch.symm.trans hsearch'
  simp only [Except.ok.injEq, Prod.mk.injEq, Option.some.injEq] at hsame
  exact Prod.ext hsame.1 hsame.2

theorem Round.not_settled (h : Round i j s s') : ¬Settled i s := by
  rintro ⟨g', hgcd', hblocker'⟩
  obtain ⟨g, a, b, k, better, v, hgcd, hblocker, -⟩ := h
  cases hgcd.symm.trans hgcd'
  cases hblocker.symm.trans hblocker'

theorem Found.round (h : Found i j t s.1 s.2) (ht : t.Rectangular) (hround : Round i j s s') :
    Found i j t s'.1 s'.2 ∧ s'.1.gcdOf s'.2 < s.1.gcdOf s.2 := by
  obtain ⟨hs, hshape, hp, hlt⟩ := h.state ht
  rcases hs.round_ok hp hlt with ⟨hsettled, -⟩ | ⟨u, q, hround', hsteps, hq, hlower⟩
  · exact absurd hsettled hround.not_settled
  · obtain rfl : s' = (u, q) := hround.unique hround'
    refine ⟨⟨h.steps.trans hsteps, hshape.block_eq i j ▸ hq, ?_, ?_⟩, hlower⟩
    · intro r hr
      exact hlower.le.trans (h.gcdOf_le r hr)
    · exact h.gcdOf_lt.imp_left hlower.trans

/-- What holds where the first search leads to, and what every round keeps, holds of every state
that a choice goes through. -/
theorem Visited.induct (P : Tableau × Position → Prop) (h : Visited i j t s)
    (first : ∀ s : Tableau × Position, t.search i j = .ok (s.1, some s.2) → P s)
    (round : ∀ s s', Visited i j t s → P s → Round i j s s' → P s') : P s := by
  obtain ⟨s₀, hsearch, hrounds⟩ := h
  induction hrounds with
  | refl => exact first s₀ hsearch
  | tail hrounds hround ih => exact round _ _ ⟨s₀, hsearch, hrounds⟩ ih hround

theorem Visited.found (h : Visited i j t s) (ht : t.Rectangular) : Found i j t s.1 s.2 := by
  refine h.induct (fun s => Found i j t s.1 s.2) ?_ ?_
  · intro s hsearch
    rcases ht.search_ok i j with ⟨hnone, -⟩ | ⟨u, p, hsome, hfound⟩
    · cases hsearch.symm.trans hnone
    · have hsame := hsearch.symm.trans hsome
      simp only [Except.ok.injEq, Prod.mk.injEq, Option.some.injEq] at hsame
      rwa [hsame.1, hsame.2]
  · intro s s' _ hfound hround
    exact (hfound.round ht hround).1

theorem Visited.not_of_search {u : Tableau} (hsearch : t.search i j = .ok (u, none)) :
    ¬Visited i j t s := by
  rintro ⟨first, hfirst, -⟩
  cases hsearch.symm.trans hfirst

/-- A choice goes on from each state that it goes through, with at least as many rounds left as
the gcd there. -/
theorem Visited.choosePivot_eq (h : Visited i j t s) (ht : t.Rectangular) :
    ∃ rounds, s.1.gcdOf s.2 ≤ rounds ∧ t.choosePivot i j = refine i j rounds s.1 s.2 := by
  refine h.induct (fun s => ∃ rounds, s.1.gcdOf s.2 ≤ rounds ∧
    t.choosePivot i j = refine i j rounds s.1 s.2) ?_ ?_
  · intro s hsearch
    have hfound : Found i j t s.1 s.2 := Visited.found ⟨s, hsearch, .refl⟩ ht
    obtain ⟨hs, -⟩ := hfound.state ht
    refine ⟨s.1.ring.modulus, (hs.gcdOf_bounds s.2).2, ?_⟩
    unfold choosePivot
    rw [hsearch]
    rfl
  · intro s s' hs ⟨rounds, hle, hchoose⟩ hround
    obtain ⟨-, hlower⟩ := (hs.found ht).round ht hround
    obtain ⟨left, rfl⟩ := Nat.exists_eq_add_one_of_ne_zero (by omega : rounds ≠ 0)
    refine ⟨left, by omega, ?_⟩
    rw [hchoose]
    exact refine_of_round hround

/-! ## Rounds that follow -/

theorem Found.fullCombination_lt (h : Found i j t s.1 s.2) (ht : t.Rectangular) {k : Nat}
    (hik : i ≤ k) (hk : k < t.height)
    (hdvd : ¬(s.1.gcdOf s.2 : Int) ∣ s.1.valueAt ⟨k, s.2.col⟩) :
    ∃ better, s.1.ring.fullCombination (s.1.valueAt s.2) (s.1.valueAt ⟨k, s.2.col⟩) =
      .ok better ∧ better.gcd < s.1.gcdOf s.2 := by
  obtain ⟨hs, hshape, hp, hlt⟩ := h.state ht
  rw [← hshape.height_eq] at hk
  obtain ⟨better, -, hfull, hlower, -⟩ := hs.fullCombination_blocker hp hlt ⟨hik, hk⟩ hdvd
  exact ⟨better, hfull, hlower⟩

theorem Found.exists_round (h : Found i j t s.1 s.2) (ht : t.Rectangular) {k : Nat}
    (hik : i ≤ k) (hdvd : ¬(s.1.gcdOf s.2 : Int) ∣ s.1.valueAt ⟨k, s.2.col⟩) :
    ∃ s', Round i j s s' ∧ s'.1.gcdOf s'.2 < s.1.gcdOf s.2 := by
  obtain ⟨hs, -, hp, hlt⟩ := h.state ht
  rcases hs.round_ok hp hlt with ⟨-, hcolumn⟩ | ⟨u, q, hround, -, -, hlower⟩
  · exact absurd (hcolumn k hik) hdvd
  · exact ⟨(u, q), hround, hlower⟩

/-- The test for a combination that is no better never holds. -/
theorem Found.not_le_fullCombination (h : Found i j t s.1 s.2) (ht : t.Rectangular) {g a b : Int}
    {k : Nat} {better : ResidueRing.Combination} (hgcd : s.1.gcdAt s.2 = .ok g)
    (hblocker : s.1.blocker? i s.2.col g = .ok (some k)) (ha : s.1.entryAt s.2 = .ok a)
    (hb : s.1.entry k s.2.col = .ok b) (hfull : s.1.ring.fullCombination a b = .ok better) :
    ¬g ≤ better.gcd := by
  obtain ⟨hs, hshape, hp, -⟩ := h.state ht
  cases hgcd.symm.trans (hs.gcdAt_eq hp)
  obtain ⟨hk, hdvd⟩ := hs.of_blocker?_eq_some hp hblocker
  cases ha.symm.trans (hs.entryAt_eq hp)
  cases hb.symm.trans (hs.entry_eq hk.2 (Tableau.mem_block.1 hp).2.2.le)
  obtain ⟨better', hfull', hlt⟩ := h.fullCombination_lt ht hk.1 (hshape.height_eq ▸ hk.2) hdvd
  cases hfull.symm.trans hfull'
  omega

theorem Choice.visited {u : Tableau} {p : Position} (h : Choice i j t (u, some p)) :
    Visited i j t (u, p) ∧ Settled i (u, p) := by
  cases h with
  | pivot first last hsearch hrounds hsettled => exact ⟨⟨first, hsearch, hrounds⟩, hsettled⟩

/-- A combination over a whole period reaches the gcd of its two operands and the modulus, at the
first multiplier that does. So in every state that a choice goes through with an entry left
undivided the combination with its row has a lesser gcd, the choice never ends for want of a better
one, and one more round finds an entry of a lesser gcd. Every choice goes on from each of its
states, and ends in one that leaves no entry undivided, or has none. -/
theorem fullCombination_lowers_gcd :
    (∀ (ring : ResidueRing) (a b : Int), ring.Valid → 0 ≤ a → a < ring.modulus → 0 ≤ b →
      b < ring.modulus →
        ∃ found, ring.fullCombination a b = .ok found ∧ ring.IsFirstOfPeriod a b found) ∧
    ∀ (t : Tableau) (i j : Nat), t.Rectangular →
      (∀ s, Visited i j t s →
        (∃ rounds, s.1.gcdOf s.2 ≤ rounds ∧ t.choosePivot i j = refine i j rounds s.1 s.2) ∧
        (∀ k, i ≤ k → k < t.height → ¬(s.1.gcdOf s.2 : Int) ∣ s.1.valueAt ⟨k, s.2.col⟩ →
          (∃ better, s.1.ring.fullCombination (s.1.valueAt s.2) (s.1.valueAt ⟨k, s.2.col⟩) =
            .ok better ∧ better.gcd < s.1.gcdOf s.2) ∧
          ∃ s', Round i j s s' ∧ s'.1.gcdOf s'.2 < s.1.gcdOf s.2) ∧
        ∀ g k a b better, s.1.gcdAt s.2 = .ok g → s.1.blocker? i s.2.col g = .ok (some k) →
          s.1.entryAt s.2 = .ok a → s.1.entry k s.2.col = .ok b →
            s.1.ring.fullCombination a b = .ok better → ¬g ≤ better.gcd) ∧
      ∃ u found, t.choosePivot i j = .ok (u, found) ∧ Choice i j t (u, found) ∧
        (found = none → ∀ s, ¬Visited i j t s) ∧
        ∀ p, found = some p → Visited i j t (u, p) ∧ Settled i (u, p) := by
  refine ⟨fun ring a b hvalid ha halt hb hblt =>
    ResidueRing.fullCombination_first hvalid ha halt hb hblt, ?_⟩
  intro t i j ht
  constructor
  · intro s hs
    have hfound := hs.found ht
    refine ⟨hs.choosePivot_eq ht, ?_, ?_⟩
    · intro k hik hk hdvd
      exact ⟨hfound.fullCombination_lt ht hik hk hdvd, hfound.exists_round ht hik hdvd⟩
    · intro g k a b better hgcd hblocker ha hb hfull
      exact hfound.not_le_fullCombination ht hgcd hblocker ha hb hfull
  · rcases ht.choosePivot_ok i j with ⟨hchoose, hnone⟩ | ⟨u, p, hchoose, hpivot⟩
    · have hsearch := hnone.search_eq ht
      exact ⟨t, none, hchoose, .absent t hsearch, fun _ _ => Visited.not_of_search hsearch, by simp⟩
    · refine ⟨u, some p, hchoose, hpivot.choice, by simp, ?_⟩
      rintro _ ⟨⟩
      exact hpivot.choice.visited

/-- Six and ten make sixteen, whose gcd with thirty is two; sixteen and fifteen make a unit. -/
theorem fullCombination_lowers_gcd_mod_thirty :
    (∃ found, ResidueRing.fullCombination ⟨30⟩ 16 15 = .ok found ∧
      ResidueRing.IsFirstOfPeriod ⟨30⟩ 16 15 found) ∧
    Visited 0 0 ⟨⟨30⟩, 1, [[6, 0], [10, 0], [15, 0]], [0]⟩
      (⟨⟨30⟩, 1, [[16, 0], [10, 0], [15, 0]], [0]⟩, ⟨0, 0⟩) ∧
    ∃ s', Round 0 0 (⟨⟨30⟩, 1, [[16, 0], [10, 0], [15, 0]], [0]⟩, ⟨0, 0⟩) s' ∧
      s'.1.gcdOf s'.2 < 2 := by
  obtain ⟨hfull, hrounds⟩ := fullCombination_lowers_gcd
  have hsearch : search ⟨⟨30⟩, 1, [[6, 0], [10, 0], [15, 0]], [0]⟩ 0 0 =
      .ok (⟨⟨30⟩, 1, [[16, 0], [10, 0], [15, 0]], [0]⟩, some ⟨0, 0⟩) := by cbv
  have hvisited : Visited 0 0 ⟨⟨30⟩, 1, [[6, 0], [10, 0], [15, 0]], [0]⟩
      (⟨⟨30⟩, 1, [[16, 0], [10, 0], [15, 0]], [0]⟩, ⟨0, 0⟩) := ⟨_, hsearch, .refl⟩
  obtain ⟨hstates, -⟩ := hrounds ⟨⟨30⟩, 1, [[6, 0], [10, 0], [15, 0]], [0]⟩ 0 0
    ⟨by decide, by decide, by decide⟩
  obtain ⟨-, hround⟩ := (hstates _ hvisited).2.1 2 (by decide) (by decide) (by decide)
  exact ⟨hfull ⟨30⟩ 16 15 (by decide) (by decide) (by decide) (by decide) (by decide), hvisited,
    hround⟩

end Tableau

end LinearCongruence
