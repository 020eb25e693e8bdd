import LinearCongruence.Proofs.ResidueRing.Progression
import LinearCongruence.Proofs.Tableau.Block
import LinearCongruence.Proofs.Tableau.Steps
/-!
# A search for a pivot is exhaustive

A search takes short cuts: it ends at the first unit, tries no more than one period of
multipliers, and looks at no combination once it has a unit. Still it comes to the candidate that
a comparison of all of them in their order comes to, the first one of least gcd. Main facts:

* `firstLeast_eq_some_iff` : what the first candidate of least gcd is;
* `foldl_better` : keeping the better of two candidates leads to it;
* `bestCandidate_eq` : a search without a unit compares all candidates;
* `search_exhaustive` : what a search finds, and the one row that it changes.
-/

namespace LinearCongruence

/-- The better of two candidates; of equal gcds the first stands. -/
def Candidate.better (best c : Candidate) : Candidate := if c.gcd < best.gcd then c else best

theorem Candidate.better_assoc (a b c : Candidate) :
    (a.better b).better c = a.better (b.better c) := by
  unfold better
  split_ifs <;> first | rfl | omega

theorem Candidate.better_gcd_le (best c : Candidate) : (best.better c).gcd ≤ best.gcd := by
  unfold better
  split
  · exact Int.le_of_lt ‹_›
  · exact Int.le_refl _

theorem Candidate.better_gcd_le_right (best c : Candidate) : (best.better c).gcd ≤ c.gcd := by
  unfold better
  split
  · exact Int.le_refl _
  · exact Int.not_lt.1 ‹_›

namespace Tableau

variable {t : Tableau} {i j k : Nat} {p : Position}

/-! ## The first of least gcd -/

section FirstLeast

variable {candidates : List Candidate} {best start : Candidate}

theorem firstLeast_cons (c : Candidate) (rest : List Candidate) :
    firstLeast (c :: rest) = some ((firstLeast rest).elim c c.better) := by
  rw [firstLeast]
  cases firstLeast rest with
  | none => rfl
  | some least =>
      dsimp only [Option.elim_some, Candidate.better]
      split <;> rfl

theorem firstLeast_eq_none_iff : firstLeast candidates = none ↔ candidates = [] := by
  cases candidates with
  | nil => exact iff_of_true rfl rfl
  | cons c rest => simp [firstLeast_cons]

theorem mem_of_firstLeast (h : firstLeast candidates = some best) : best ∈ candidates := by
  induction candidates generalizing best with
  | nil => cases h
  | cons c rest ih =>
      rw [firstLeast_cons, Option.some.injEq] at h
      subst h
      cases hrest : firstLeast rest with
      | none => exact List.mem_cons_self
      | some least =>
          rw [Option.elim_some, Candidate.better]
          split
          · exact List.mem_cons_of_mem _ (ih hrest)
          · exact List.mem_cons_self

theorem firstLeast_of_split {before after : List Candidate}
    (hbefore : ∀ c ∈ before, best.gcd < c.gcd) (hafter : ∀ c ∈ after, best.gcd ≤ c.gcd) :
    firstLeast (before ++ best :: after) = some best := by
  induction before with
  | nil =>
      rw [List.nil_append, firstLeast_cons]
      cases hrest : firstLeast after with
      | none => rfl
      | some least =>
          have hle := hafter least (mem_of_firstLeast hrest)
          rw [Option.elim_some, Candidate.better, if_neg (Int.not_lt.2 hle)]
  | cons c before ih =>
      obtain ⟨hlt, hbefore⟩ := List.forall_mem_cons.1 hbefore
      rw [List.cons_append, firstLeast_cons, ih hbefore, Option.elim_some, Candidate.better,
        if_pos hlt]

/-- The first candidate of least gcd: those before it have greater gcds, and those after it have
none less. -/
theorem firstLeast_eq_some_iff : firstLeast candidates = some best ↔
    ∃ before after, candidates = before ++ best :: after ∧
      (∀ c ∈ before, best.gcd < c.gcd) ∧ ∀ c ∈ after, best.gcd ≤ c.gcd := by
  constructor
  · intro h
    induction candidates generalizing best with
    | nil => cases h
    | cons c rest ih =>
        rw [firstLeast_cons, Option.some.injEq] at h
        subst h
        cases hrest : firstLeast rest with
        | none => exact ⟨[], rest, rfl, by simp, by simp [firstLeast_eq_none_iff.1 hrest]⟩
        | some least =>
            obtain ⟨before, after, rfl, hbefore, hafter⟩ := ih hrest
            rw [Option.elim_some, Candidate.better]
            split
            · rename_i hlt
              exact ⟨c :: before, after, rfl, List.forall_mem_cons.2 ⟨hlt, hbefore⟩, hafter⟩
            · rename_i hge
              have hle : c.gcd ≤ least.gcd := Int.not_lt.1 hge
              refine ⟨[], _, rfl, by simp, List.forall_mem_append.2 ⟨?_, ?_⟩⟩
              · exact fun x hx => hle.trans (hbefore x hx).le
              · exact List.forall_mem_cons.2 ⟨hle, fun x hx => hle.trans (hafter x hx)⟩
  · rintro ⟨before, after, rfl, hbefore, hafter⟩
    exact firstLeast_of_split hbefore hafter

theorem le_of_firstLeast (h : firstLeast candidates = some best) {c : Candidate}
    (hc : c ∈ candidates) : best.gcd ≤ c.gcd := by
  obtain ⟨before, after, rfl, hbefore, hafter⟩ := firstLeast_eq_some_iff.1 h
  rcases List.mem_append.1 hc with hc | hc
  · exact (hbefore c hc).le
  · rcases List.mem_cons.1 hc with rfl | hc
    · exact Int.le_refl _
    · exact hafter c hc

/-- Keeping the better of two candidates all along leads to the first of least gcd. -/
theorem foldl_better (candidates : List Candidate) (start : Candidate) :
    candidates.foldl Candidate.better start =
      (firstLeast candidates).elim start start.better := by
  induction candidates generalizing start with
  | nil => rfl
  | cons c rest ih =>
      rw [List.foldl_cons, ih, firstLeast_cons, Option.elim_some]
      cases firstLeast rest with
      | none => rfl
      | some least => exact start.better_assoc c least

theorem foldl_better_le (candidates : List Candidate) (start : Candidate) :
    (candidates.foldl Candidate.better start).gcd ≤ start.gcd := by
  rw [foldl_better]
  cases firstLeast candidates with
  | none => exact Int.le_refl _
  | some best => exact start.better_gcd_le best

theorem foldl_better_le_of_mem {c : Candidate} (hc : c ∈ candidates) :
    (candidates.foldl Candidate.better start).gcd ≤ c.gcd := by
  rw [foldl_better]
  cases hleast : firstLeast candidates with
  | none =>
      rw [firstLeast_eq_none_iff.1 hleast] at hc
      exact absurd hc List.not_mem_nil
  | some best => exact (start.better_gcd_le_right best).trans (le_of_firstLeast hleast hc)

theorem foldl_better_of_le (hle : ∀ c ∈ candidates, start.gcd ≤ c.gcd) :
    candidates.foldl Candidate.better start = start := by
  rw [foldl_better]
  cases hleast : firstLeast candidates with
  | none => rfl
  | some best => exact if_neg (Int.not_lt.2 (hle best (mem_of_firstLeast hleast)))

end FirstLeast

/-! ## The candidates -/

theorem Rectangular.gcd_bounds (h : t.Rectangular) (a : Int) :
    (1 : Int) ≤ Int.gcd a t.ring.modulus ∧ (Int.gcd a t.ring.modulus : Int) ≤ t.ring.modulus := by
  have hpos := h.modulus_pos
  have hgcd := Int.gcd_pos_of_ne_zero_right a (Int.ne_of_gt hpos)
  exact ⟨by omega, Int.gcd_le_right a hpos⟩

structure IsCandidate (t : Tableau) (i j : Nat) (c : Candidate) : Prop where
  gcd_eq : c.gcd = Int.gcd
    (t.valueAt c.position + c.multiplier * t.valueAt ⟨c.partner, c.position.col⟩) t.ring.modulus
  mem_block : c.position ∈ t.block i j
  partner_ge : i ≤ c.partner
  partner_lt : c.partner < t.height
  partner_ne : c.multiplier ≠ 0 → c.position.row ≠ c.partner
  filled : c.multiplier ≠ 0 → t.Filled c.position.row

theorem IsCandidate.gcd_bounds {c : Candidate} (hc : t.IsCandidate i j c) (h : t.Rectangular) :
    1 ≤ c.gcd ∧ c.gcd ≤ t.ring.modulus := by
  rw [hc.gcd_eq]
  exact h.gcd_bounds _

theorem isCandidate_entry {c : Candidate} (hc : c ∈ t.entryCandidates i j) :
    t.IsCandidate i j c := by
  obtain ⟨p, hp, rfl⟩ := List.mem_map.1 hc
  obtain ⟨hrow, -⟩ := mem_block.1 hp
  exact ⟨by simp, hp, hrow.1, hrow.2, fun hne => absurd rfl hne, fun hne => absurd rfl hne⟩

theorem isCandidate_combination (hp : (p, k) ∈ t.pairings i j) {c : Candidate}
    (hc : c ∈ t.combinationCandidates p k) : t.IsCandidate i j c := by
  obtain ⟨multiplier, hmultiplier, rfl⟩ := List.mem_map.1 hc
  obtain ⟨hblock, hlt, hk⟩ := mem_pairings.1 hp
  obtain ⟨hrow, hcol⟩ := mem_block.1 hblock
  refine ⟨rfl, hblock, hrow.1.trans hlt.le, hk, fun _ => hlt.ne, fun _ => ⟨p.col, hcol.2, ?_⟩⟩
  -- Nothing is added to a zero, so that the row that is changed has a coefficient.
  intro hzero
  rw [List.mem_range, hzero, Int.zero_ediv] at hmultiplier
  exact Nat.not_lt_zero _ hmultiplier

theorem isCandidate_of_mem {c : Candidate} (hc : c ∈ t.candidates i j) : t.IsCandidate i j c := by
  rcases List.mem_append.1 hc with hc | hc
  · exact isCandidate_entry hc
  · obtain ⟨⟨p, k⟩, hp, hc⟩ := List.mem_flatMap.1 hc
    exact isCandidate_combination hp hc

theorem Rectangular.firstLeast_of_unit (h : t.Rectangular)
    (hfind : ((t.block i j).find? fun q => decide (t.gcdOf q = 1)) = some p) :
    firstLeast (t.candidates i j) = some ⟨t.gcdOf p, 0, p, p.row⟩ ∧ t.gcdOf p = 1 := by
  obtain ⟨hone, before, after, hblock, hbefore⟩ := List.find?_eq_some_iff_append.1 hfind
  replace hone : t.gcdOf p = 1 := by simpa using hone
  refine ⟨?_, hone⟩
  have hge (c : Candidate) (hc : c ∈ t.candidates i j) : (t.gcdOf p : Int) ≤ c.gcd := by
    rw [hone]
    exact ((isCandidate_of_mem hc).gcd_bounds h).1
  rw [candidates, entryCandidates, hblock, List.map_append, List.map_cons, List.append_assoc,
    List.cons_append] at hge ⊢
  apply firstLeast_of_split
  · intro c hc
    obtain ⟨q, hq, rfl⟩ := List.mem_map.1 hc
    have hne : t.gcdOf q ≠ 1 := by simpa using hbefore q hq
    have hpos := (h.gcdOf_bounds q).1
    change (t.gcdOf p : Int) < t.gcdOf q
    omega
  · exact fun c hc => hge c (List.mem_append_right _ (List.mem_cons_of_mem _ hc))

/-! ## The comparison of all candidates -/

theorem Rectangular.betterEntries_eq (h : t.Rectangular) (i j : Nat) (start : Candidate) :
    (t.block i j).foldlM t.betterEntry start =
      .ok ((t.entryCandidates i j).foldl Candidate.better start) := by
  rw [entryCandidates, List.foldl_map]
  apply Checked.foldlM_eq_ok_foldl
  intro best p hp
  unfold betterEntry
  rw [h.gcdAt_eq hp, Checked.ok_bind]
  rfl

section Combinations

variable {found : ResidueRing.Combination}

theorem firstLeast_combinations {start : ResidueRing.Combination}
    (hfound : t.ring.IsFirstLeast (t.valueAt p) (t.valueAt ⟨k, p.col⟩) 0
      (t.valueAt p / Int.gcd (t.valueAt p) (t.valueAt ⟨k, p.col⟩)).toNat start found)
    (hne : found ≠ start) :
    firstLeast (t.combinationCandidates p k) = some ⟨found.gcd, found.multiplier, p, k⟩ := by
  obtain ⟨-, hcount, -, hval, hfirst⟩ := hfound.eq_or_lt.resolve_left hne
  obtain ⟨before, after, hrange⟩ := List.append_of_mem (List.mem_range.2 hcount)
  have hpairwise := hrange ▸ List.pairwise_lt_range
  rw [List.pairwise_append] at hpairwise
  have hlast (multiplier : Nat) (hmem : multiplier ∈ after) : multiplier <
      (t.valueAt p / Int.gcd (t.valueAt p) (t.valueAt ⟨k, p.col⟩)).toNat := by
    rw [← List.mem_range, hrange]
    exact List.mem_append_right _ (List.mem_cons_of_mem _ hmem)
  rw [combinationCandidates, hrange, List.map_append, List.map_cons, ← hval]
  apply firstLeast_of_split
  · intro c hc
    obtain ⟨multiplier, hmem, rfl⟩ := List.mem_map.1 hc
    exact hfirst multiplier (Nat.zero_le _) (hpairwise.2.2 _ hmem _ List.mem_cons_self)
  · intro c hc
    obtain ⟨multiplier, hmem, rfl⟩ := List.mem_map.1 hc
    exact hfound.le multiplier (Nat.zero_le _) (hlast multiplier hmem)

theorem foldl_combinations {best : Candidate}
    (hfound : t.ring.IsFirstLeast (t.valueAt p) (t.valueAt ⟨k, p.col⟩) 0
      (t.valueAt p / Int.gcd (t.valueAt p) (t.valueAt ⟨k, p.col⟩)).toNat ⟨t.ring.modulus, 0⟩ found)
    (hbest : best.gcd ≤ t.ring.modulus) :
    (t.combinationCandidates p k).foldl Candidate.better best =
      if found.gcd < t.ring.modulus then best.better ⟨found.gcd, found.multiplier, p, k⟩
      else best := by
  split
  · rename_i hlt
    have hne : found ≠ ⟨t.ring.modulus, 0⟩ := by
      rintro rfl
      exact Int.lt_irrefl _ hlt
    rw [foldl_better, firstLeast_combinations hfound hne, Option.elim_some]
  · rename_i hge
    apply foldl_better_of_le
    intro c hc
    obtain ⟨multiplier, hmem, rfl⟩ := List.mem_map.1 hc
    have hle := hfound.le multiplier (Nat.zero_le _) (List.mem_range.1 hmem)
    exact hbest.trans ((Int.not_lt.1 hge).trans hle)

end Combinations

theorem Rectangular.betterCombination_eq (h : t.Rectangular) {best : Candidate}
    (hp : (p, k) ∈ t.pairings i j) (hbest : best.gcd ≤ t.ring.modulus) :
    t.betterCombination best (p, k) =
      .ok ((t.combinationCandidates p k).foldl Candidate.better best) := by
  obtain ⟨hblock, -, hheight⟩ := mem_pairings.1 hp
  have hcol := (mem_block.1 hblock).2
  have hresidue (q : Position) : t.valueAt q % t.ring.modulus = t.valueAt q :=
    Int.emod_eq_of_lt (h.valueAt_bounds q).1 (h.valueAt_bounds q).2
  rw [betterCombination]
  split
  · -- No gcd lies below one.
    rename_i hone
    rw [foldl_better_of_le]
    · rfl
    · intro c hc
      rw [hone]
      exact ((isCandidate_combination hp hc).gcd_bounds h).1
  · rw [h.entryAt_eq hblock, Checked.ok_bind, h.entry_eq hheight (by omega), Checked.ok_bind]
    by_cases hzero : Int.gcd (t.valueAt p) (t.valueAt ⟨k, p.col⟩) = 0
    · rw [ResidueRing.leastCombination?_of_zeros h.valid (by rwa [hresidue, hresidue]),
        combinationCandidates, hzero, Int.natCast_zero, Int.ediv_zero]
      rfl
    · obtain ⟨found, hleast, hfound⟩ := ResidueRing.leastCombination?_of_valid h.valid
        (a := t.valueAt p) (b := t.valueAt ⟨k, p.col⟩) (by rwa [hresidue, hresidue])
      rw [hresidue, hresidue] at hfound
      rw [hleast, Checked.ok_bind, foldl_combinations hfound hbest]
      by_cases hlt : found.gcd < t.ring.modulus
      · rw [if_pos hlt, if_pos hlt]
        rfl
      · rw [if_neg hlt, if_neg hlt]
        rfl

theorem Rectangular.betterCombinations_eq (h : t.Rectangular) (i j : Nat) {start : Candidate}
    (hstart : start.gcd ≤ t.ring.modulus) :
    (t.pairings i j).foldlM t.betterCombination start =
      .ok (((t.pairings i j).flatMap fun p => t.combinationCandidates p.1 p.2).foldl
        Candidate.better start) := by
  obtain ⟨best, hfold, rfl⟩ : ∃ best, (t.pairings i j).foldlM t.betterCombination start =
      .ok best ∧ best = ((t.pairings i j).flatMap fun p =>
        t.combinationCandidates p.1 p.2).foldl Candidate.better start := by
    apply Checked.foldlM_ok fun (seen : List (Position × Nat)) best =>
      best = (seen.flatMap fun p => t.combinationCandidates p.1 p.2).foldl Candidate.better start
    · rfl
    · rintro seen ⟨p, k⟩ rest hpairings best rfl
      refine ⟨_, h.betterCombination_eq (i := i) (j := j) (by simp [hpairings])
        ((foldl_better_le _ _).trans hstart), ?_⟩
      rw [List.flatMap_append, List.foldl_append, List.flatMap_singleton]
  exact hfold

/-- A search without a unit compares all candidates with one as bad as zero. -/
theorem Rectangular.bestCandidate_eq (h : t.Rectangular) (i j : Nat) :
    t.bestCandidate i j =
      .ok ((t.candidates i j).foldl Candidate.better ⟨t.ring.modulus, 0, ⟨i, j⟩, i⟩) := by
  unfold bestCandidate
  rw [ResidueRing.word_of_valid h.valid, h.betterEntries_eq, Checked.ok_bind,
    h.betterCombinations_eq i j (foldl_better_le _ _), candidates, List.foldl_append]

theorem Rectangular.bestCandidate_ok (h : t.Rectangular) (i j : Nat) :
    ∃ best, t.bestCandidate i j = .ok best ∧ best.gcd ≤ t.ring.modulus ∧
      (∀ p ∈ t.block i j, best.gcd ≤ t.gcdOf p) ∧
      (best.gcd = t.ring.modulus ∨ t.IsCandidate i j best) := by
  refine ⟨_, h.bestCandidate_eq i j, foldl_better_le _ _, ?_, ?_⟩
  · intro p hp
    exact foldl_better_le_of_mem (List.mem_append_left _ (List.mem_map_of_mem hp))
  · rw [foldl_better]
    cases hleast : firstLeast (t.candidates i j) with
    | none => exact .inl rfl
    | some best =>
        rw [Option.elim_some, Candidate.better]
        split
        · exact .inr (isCandidate_of_mem (mem_of_firstLeast hleast))
        · exact .inl rfl

/-! ## The search -/

theorem Rectangular.firstUnit?_ok (h : t.Rectangular) (i j : Nat) :
    t.firstUnit? i j = .ok ((t.block i j).find? fun p => decide (t.gcdOf p = 1)) := by
  apply Checked.findM?_ok
  intro p hp
  rw [h.entryAt_eq hp, Checked.ok_bind, ResidueRing.isUnit_of_valid h.valid]
  rfl

theorem Rectangular.search_of_le (h : t.Rectangular) (hmodulus : 2 ≤ t.ring.modulus)
    (hle : ∀ c ∈ t.candidates i j, t.ring.modulus ≤ c.gcd) : t.search i j = .ok (t, none) := by
  unfold search
  rw [h.firstUnit?_ok, Checked.ok_bind]
  cases hunit : (t.block i j).find? fun p => decide (t.gcdOf p = 1) with
  | some p =>
      obtain ⟨hleast, hone⟩ := h.firstLeast_of_unit hunit
      have hge := hle _ (mem_of_firstLeast hleast)
      dsimp only at hge
      omega
  | none =>
      dsimp only
      rw [h.bestCandidate_eq, Checked.ok_bind, ResidueRing.word_of_valid h.valid,
        foldl_better_of_le hle, if_pos rfl]
      rfl

theorem Rectangular.search_of_lt (h : t.Rectangular) {best : Candidate}
    (hleast : firstLeast (t.candidates i j) = some best) (hlt : best.gcd < t.ring.modulus) :
    ∃ target source, t.rows[best.position.row]? = some target ∧
      t.rows[best.partner]? = some source ∧
      t.search i j = .ok
        (if best.multiplier = 0 then t
          else { t with
            rows := t.rows.set best.position.row
              (combinedRow t.ring target source best.multiplier) },
          some best.position) := by
  have hbest : t.IsCandidate i j best := isCandidate_of_mem (mem_of_firstLeast hleast)
  obtain ⟨target, htarget, -⟩ := h.getElem?_row (mem_block.1 hbest.mem_block).1.2
  obtain ⟨source, hsource, -⟩ := h.getElem?_row hbest.partner_lt
  refine ⟨target, source, htarget, hsource, ?_⟩
  unfold search
  rw [h.firstUnit?_ok, Checked.ok_bind]
  cases hunit : (t.block i j).find? fun p => decide (t.gcdOf p = 1) with
  | some p =>
      obtain rfl := Option.some.inj (hleast.symm.trans (h.firstLeast_of_unit hunit).1)
      rfl
  | none =>
      dsimp only
      rw [h.bestCandidate_eq, Checked.ok_bind, ResidueRing.word_of_valid h.valid, foldl_better,
        hleast, Option.elim_some, Candidate.better, if_pos hlt, if_neg (Int.ne_of_lt hlt)]
      by_cases hzero : best.multiplier = 0
      · rw [if_pos hzero, if_pos hzero]
        rfl
      · rw [if_neg hzero, if_neg hzero, h.addMultiple_eq _ htarget hsource]
        rfl

/-- A search finds nothing, and changes nothing, where no candidate of the block has a gcd below
the modulus. Else it finds the position of the first candidate of least gcd, and changes its row
alone, and only where the candidate has a multiplier. -/
theorem search_exhaustive (t : Tableau) (i j : Nat) (ht : t.Rectangular)
    (hmodulus : 2 ≤ t.ring.modulus) :
    ((¬∃ c ∈ t.candidates i j, c.gcd < t.ring.modulus) → t.search i j = .ok (t, none)) ∧
    ((∃ c ∈ t.candidates i j, c.gcd < t.ring.modulus) →
      ∃ best, firstLeast (t.candidates i j) = some best ∧
        ∃ target source, t.rows[best.position.row]? = some target ∧
          t.rows[best.partner]? = some source ∧
          t.search i j = .ok
            (if best.multiplier = 0 then t
              else { t with
                rows := t.rows.set best.position.row
                  (combinedRow t.ring target source best.multiplier) },
              some best.position)) := by
  constructor
  · intro hnone
    apply ht.search_of_le hmodulus
    intro c hc
    exact Int.not_lt.1 fun hlt => hnone ⟨c, hc, hlt⟩
  · rintro ⟨c, hc, hlt⟩
    cases hleast : firstLeast (t.candidates i j) with
    | none =>
        rw [firstLeast_eq_none_iff.1 hleast] at hc
        exact absurd hc List.not_mem_nil
    | some best =>
        exact ⟨best, rfl, ht.search_of_lt hleast ((le_of_firstLeast hleast hc).trans_lt hlt)⟩

/-- Two and three are no units modulo six, their sum is one; a zero leads to nothing. -/
theorem search_exhaustive_mod_six :
    search ⟨⟨6⟩, 1, [[2, 1], [3, 4]], [0]⟩ 0 0 =
        .ok (⟨⟨6⟩, 1, [[5, 5], [3, 4]], [0]⟩, some ⟨0, 0⟩) ∧
      search ⟨⟨6⟩, 1, [[0, 1], [0, 4]], [0]⟩ 0 0 =
        .ok (⟨⟨6⟩, 1, [[0, 1], [0, 4]], [0]⟩, none) := by
  constructor
  · obtain ⟨-, hsome⟩ := search_exhaustive ⟨⟨6⟩, 1, [[2, 1], [3, 4]], [0]⟩ 0 0
      ⟨by decide, by decide, by decide⟩ (by decide)
    obtain ⟨best, hbest, target, source, htarget, hsource, hsearch⟩ :=
      hsome ⟨⟨2, 0, ⟨0, 0⟩, 0⟩, by decide, by decide⟩
    have hfirst : firstLeast (candidates ⟨⟨6⟩, 1, [[2, 1], [3, 4]], [0]⟩ 0 0) =
        some ⟨1, 1, ⟨0, 0⟩, 1⟩ := by decide
    obtain rfl := Option.some.inj (hfirst.symm.trans hbest)
    obtain rfl := Option.some.inj htarget
    obtain rfl := Option.some.inj hsource
    exact hsearch
  · obtain ⟨hnone, -⟩ := search_exhaustive ⟨⟨6⟩, 1, [[0, 1], [0, 4]], [0]⟩ 0 0
      ⟨by decide, by decide, by decide⟩ (by decide)
    exact hnone (by decide)

end Tableau

end LinearCongruence
