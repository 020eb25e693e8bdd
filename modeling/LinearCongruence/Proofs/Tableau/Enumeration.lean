import LinearCongruence.Proofs.Tableau.BackSubstitution
import Mathlib.Algebra.BigOperators.Intervals
/-!
# The run of back-substitution

Back-substitution goes through the columns from the last to the first and keeps a frontier of
partial solutions. It holds every partial solution from the column on that was done last, once
each and in ascending order, and runs empty where there is none. A column extends a partial
solution as often as the gcd of its pivot says, or drops it, so that the frontier stays below
the product of these gcds unless no partial solution was dropped. Main facts:

* `Reaches.spec` : the frontier after each column;
* `Reaches.extendThrough_eq` : the frontiers are those that a run goes through;
* `solutions_enumerates` : what a run ends with;
* `solutions_ok` : its vectors over the unknowns, no more than the pivots allow.
-/

namespace LinearCongruence.Tableau

open Augmented

variable {t : Tableau} {col : Nat} {frontier : List (List Int)}

/-- The frontier of a run once the columns from `col` on are done. An empty one ends the run. -/
inductive Reaches (t : Tableau) : Nat → List (List Int) → Prop
  | start : Reaches t t.unknowns [[]]
  | extend {col : Nat} {frontier extended : List (List Int)}
      (reached : Reaches t (col + 1) frontier) (nonempty : frontier ≠ [])
      (extendAll : t.extendAll col frontier = .ok extended) : Reaches t col extended

/-- Every partial solution that a run came by had extensions to the next column, as far as
column `col`. -/
def NoneDropped (t : Tableau) (col : Nat) : Prop :=
  ∀ d frontier, col ≤ d → t.Reaches (d + 1) frontier →
    ∀ later ∈ frontier, t.extensions d later ≠ .ok []

def pivotProduct (t : Tableau) (col : Nat) : Nat :=
  ∏ c ∈ Finset.Ico col t.unknowns, t.gcdOf ⟨c, c⟩

/-! ## One run -/

theorem Reaches.le_unknowns (hreached : t.Reaches col frontier) : col ≤ t.unknowns := by
  induction hreached with
  | start => exact Nat.le_refl _
  | extend _ _ _ ih => exact (Nat.le_succ _).trans ih

theorem Reaches.unique {frontier' : List (List Int)} (hreached : t.Reaches col frontier)
    (hreached' : t.Reaches col frontier') : frontier = frontier' := by
  induction hreached generalizing frontier' with
  | start =>
      cases hreached' with
      | start => rfl
      | extend reached _ _ => exact absurd reached.le_unknowns (Nat.not_succ_le_self _)
  | extend reached _ hextend ih =>
      cases hreached' with
      | start => exact absurd reached.le_unknowns (Nat.not_succ_le_self _)
      | extend reached' _ hextend' =>
          rw [ih reached', hextend'] at hextend
          exact (Except.ok.inj hextend).symm

theorem Reaches.extendThrough_eq (hreached : t.Reaches col frontier) (hne : frontier ≠ []) :
    t.extendThrough t.unknowns [[]] = t.extendThrough col frontier := by
  induction hreached with
  | start => rfl
  | extend _ hnonempty hextend ih =>
      rw [ih hnonempty, extendThrough, hextend, Checked.lift_ok, Checked.ok_bind,
        if_neg (by rwa [List.isEmpty_iff])]

theorem Reaches.extendThrough_refused (hreached : t.Reaches col []) :
    t.extendThrough t.unknowns [[]] = .error (.refused (.noValueAtColumn col)) := by
  cases hreached with
  | extend reached hnonempty hextend =>
      rw [reached.extendThrough_eq hnonempty, extendThrough, hextend]
      rfl

theorem noneDropped_unknowns (t : Tableau) : t.NoneDropped t.unknowns :=
  fun _ _ hd hreached => absurd hreached.le_unknowns (Nat.not_le_of_lt (Nat.lt_succ_of_le hd))

theorem Reaches.noneDropped_iff (hreached : t.Reaches (col + 1) frontier) :
    t.NoneDropped col ↔
      t.NoneDropped (col + 1) ∧ ∀ later ∈ frontier, t.extensions col later ≠ .ok [] := by
  constructor
  · intro hnone
    exact ⟨fun d frontier' hd => hnone d frontier' (Nat.le_of_succ_le hd),
      hnone col frontier (Nat.le_refl _) hreached⟩
  · rintro ⟨hnone, hcol⟩ d frontier' hd hreached'
    rcases Nat.eq_or_lt_of_le hd with rfl | hlt
    · rwa [← hreached.unique hreached']
    · exact hnone d frontier' hlt hreached'

theorem pivotProduct_succ (hcol : col < t.unknowns) :
    t.pivotProduct col = t.pivotProduct (col + 1) * t.gcdOf ⟨col, col⟩ := by
  rw [Nat.mul_comm]
  exact Finset.prod_eq_prod_Ico_succ_bot hcol _

/-! ## What a frontier holds -/

/-- All partial solutions from column `col` on in ascending order, as many as the diagonal
allows where none was dropped. -/
structure Frontier (t : Tableau) (col : Nat) (frontier : List (List Int)) : Prop where
  mem_iff : ∀ y, y ∈ frontier ↔ t.SolvesFrom col y
  ascending : frontier.Pairwise Precedes
  length_le : frontier.length ≤ t.pivotProduct col
  length_eq_iff : frontier.length = t.pivotProduct col ↔ t.NoneDropped col

theorem frontier_start (t : Tableau) : t.Frontier t.unknowns [[]] := by
  have hproduct : t.pivotProduct t.unknowns = 1 := by simp [pivotProduct]
  refine ⟨?_, List.pairwise_singleton _ _, hproduct.ge, ?_⟩
  · intro y
    rw [List.mem_singleton, solvesFrom_unknowns]
  · exact iff_of_true hproduct.symm t.noneDropped_unknowns

theorem Frontier.extend (hfrontier : t.Frontier (col + 1) frontier) (h : t.Rectangular)
    (hheight : t.unknowns ≤ t.height) (hreached : t.Reaches (col + 1) frontier) :
    ∃ extended, t.extendAll col frontier = .ok extended ∧ t.Frontier col extended := by
  have hcol : col < t.unknowns := hreached.le_unknowns
  obtain ⟨extended, hextend, hmem, hascending, hle, heq⟩ :=
    h.extendAll_ok hheight hcol hfrontier.mem_iff hfrontier.ascending
  have hgcd := (h.gcdOf_bounds ⟨col, col⟩).1
  have hbefore := Nat.mul_le_mul_right (t.gcdOf ⟨col, col⟩) hfrontier.length_le
  refine ⟨extended, hextend, hmem, hascending, ?_, ?_⟩
  · calc extended.length
        ≤ frontier.length * t.gcdOf ⟨col, col⟩ := hle
      _ ≤ t.pivotProduct (col + 1) * t.gcdOf ⟨col, col⟩ := hbefore
      _ = t.pivotProduct col := (pivotProduct_succ hcol).symm
  · rw [hreached.noneDropped_iff, ← hfrontier.length_eq_iff, ← heq, pivotProduct_succ hcol]
    constructor
    · -- A product that is reached is reached by both of its factors.
      intro hfull
      have hsame : frontier.length * t.gcdOf ⟨col, col⟩ =
          t.pivotProduct (col + 1) * t.gcdOf ⟨col, col⟩ :=
        Nat.le_antisymm hbefore (hfull ▸ hle)
      exact ⟨Nat.eq_of_mul_eq_mul_right hgcd hsame, hfull.trans hsame.symm⟩
    · rintro ⟨hlength, hfull⟩
      rw [hfull, hlength]

theorem Reaches.spec (hreached : t.Reaches col frontier) (h : t.Rectangular)
    (hheight : t.unknowns ≤ t.height) : t.Frontier col frontier := by
  induction hreached with
  | start => exact t.frontier_start
  | extend reached _ hextend ih =>
      obtain ⟨extended, hextended, hspec⟩ := ih.extend h hheight reached
      cases hextend.symm.trans hextended
      exact hspec

/-- A run gets to every column, unless it ends at one before. -/
theorem Rectangular.exists_reaches (h : t.Rectangular) (hheight : t.unknowns ≤ t.height)
    (hcol : col ≤ t.unknowns) :
    (∃ frontier, t.Reaches col frontier ∧ frontier ≠ []) ∨
      ∃ d, col ≤ d ∧ d < t.unknowns ∧ t.Reaches d [] := by
  induction hcol using Nat.decreasingInduction with
  | self => exact .inl ⟨[[]], .start, by simp⟩
  | of_succ col hlt ih =>
      rcases ih with ⟨frontier, hreached, hne⟩ | ⟨d, hd, hdlt, hreached⟩
      · obtain ⟨extended, hextend, -⟩ := (hreached.spec h hheight).extend h hheight hreached
        by_cases hempty : extended = []
        · exact .inr ⟨col, Nat.le_refl _, hlt, hempty ▸ .extend hreached hne hextend⟩
        · exact .inl ⟨extended, .extend hreached hne hextend, hempty⟩
      · exact .inr ⟨d, Nat.le_of_succ_le hd, hdlt, hreached⟩

/-! ## The end of a run -/

theorem Reaches.solvesFrom_iff (hreached : t.Reaches col []) (h : t.Rectangular)
    (hheight : t.unknowns ≤ t.height) {d : Nat} (hd : d ≤ t.unknowns) :
    (∃ y, t.SolvesFrom d y) ↔ col < d := by
  constructor
  · rintro ⟨y, hy⟩
    by_contra hle
    have hcol := hreached.le_unknowns
    have hdrop := hy.drop hheight (k := col - d) (by omega)
    rw [Nat.add_sub_cancel' (by omega)] at hdrop
    exact List.not_mem_nil (((hreached.spec h hheight).mem_iff _).2 hdrop)
  · intro hlt
    cases hreached with
    | extend reached hnonempty _ =>
        obtain ⟨y, hy⟩ := List.exists_mem_of_ne_nil _ hnonempty
        have hdrop := (((reached.spec h hheight).mem_iff y).1 hy).drop hheight
          (k := d - (col + 1)) (by omega)
        rw [Nat.add_sub_cancel' hlt] at hdrop
        exact ⟨_, hdrop⟩

theorem Reduced.mapM_unpermute_ok (h : t.Reduced) {ys : List (List Int)}
    (hlen : ∀ y ∈ ys, y.length = t.unknowns) (hascending : ys.Pairwise Precedes) :
    ∃ xs, ys.mapM t.unpermute = .ok xs ∧ xs.Nodup ∧
      List.Forall₂ (fun y x => x.length = t.unknowns ∧ t.arrange x = y) ys xs := by
  obtain ⟨xs, hmap, hxs⟩ := Checked.mapM_ok (f := t.unpermute) (l := ys)
    (fun y x => x.length = t.unknowns ∧ t.arrange x = y) fun y hy => h.unpermute_ok (hlen y hy)
  refine ⟨xs, hmap, ?_, hxs⟩
  have harrange : xs.map t.arrange = ys := by
    rw [← List.forall₂_eq_eq_eq, List.forall₂_map_left_iff]
    exact hxs.flip.imp fun _ _ hx => hx.2
  -- Arranging undoes the order of the columns, and the arranged vectors ascend.
  apply List.Nodup.of_map t.arrange
  rw [harrange]
  exact hascending.imp Precedes.ne

/-- A run ends with the frontier of the first column, or at the column where it runs empty. -/
theorem Reduced.solutions_reached (h : t.Reduced) :
    (∃ ys xs, t.Reaches 0 ys ∧ ys ≠ [] ∧ t.solutions = .ok xs ∧
      ys.mapM t.unpermute = .ok xs ∧ xs.Nodup ∧
      List.Forall₂ (fun y x => x.length = t.unknowns ∧ t.arrange x = y) ys xs) ∨
    ∃ c < t.unknowns, t.Reaches c [] ∧
      t.solutions = .error (.refused (.noValueAtColumn c)) := by
  unfold solutions
  rcases h.exists_reaches h.unknowns_le (Nat.zero_le _) with
    ⟨ys, hreached, hne⟩ | ⟨c, -, hc, hreached⟩
  · have hspec := hreached.spec h.toRectangular h.unknowns_le
    obtain ⟨xs, hmap, hnodup, hxs⟩ := h.mapM_unpermute_ok
      (fun y hy => ((hspec.mem_iff y).1 hy).1.length_eq) hspec.ascending
    refine .inl ⟨ys, xs, hreached, hne, ?_, hmap, hnodup, hxs⟩
    rw [hreached.extendThrough_eq hne, extendThrough, pure_bind, hmap, Checked.lift_ok]
  · refine .inr ⟨c, hc, hreached, ?_⟩
    rw [hreached.extendThrough_refused, Checked.error_bind]

/-- Back-substitution returns every vector that solves the rows from the diagonal on, once each
and in ascending order of the columns from the last to the first; or it names the last column
from which on there is none. -/
theorem solutions_enumerates (t : Tableau) (ht : t.Reduced) :
    ((∃ y, t.SolvesFrom 0 y) →
      ∃ ys xs : List (List Int), (∀ y, y ∈ ys ↔ t.SolvesFrom 0 y) ∧
        ys.Pairwise (fun y y' => y.reverse < y'.reverse) ∧
        ys.mapM t.unpermute = .ok xs ∧ xs.Nodup ∧ t.solutions = .ok xs) ∧
    ((¬∃ y, t.SolvesFrom 0 y) →
      ∃ c < t.unknowns, (¬∃ y, t.SolvesFrom c y) ∧
        (∀ d, c < d → d ≤ t.unknowns → ∃ y, t.SolvesFrom d y) ∧
        t.solutions = .error (.refused (.noValueAtColumn c))) := by
  rcases ht.solutions_reached with
    ⟨ys, xs, hreached, hne, hsolutions, hmap, hnodup, -⟩ | ⟨c, hc, hreached, hsolutions⟩
  · have hspec := hreached.spec ht.toRectangular ht.unknowns_le
    refine ⟨fun _ => ⟨ys, xs, hspec.mem_iff, hspec.ascending, hmap, hnodup, hsolutions⟩, ?_⟩
    intro hnone
    obtain ⟨y, hy⟩ := List.exists_mem_of_ne_nil ys hne
    exact absurd ⟨y, (hspec.mem_iff y).1 hy⟩ hnone
  · have hiff (d : Nat) (hd : d ≤ t.unknowns) : (∃ y, t.SolvesFrom d y) ↔ c < d :=
      hreached.solvesFrom_iff ht.toRectangular ht.unknowns_le hd
    constructor
    · intro hsome
      exact absurd ((hiff 0 (Nat.zero_le _)).1 hsome) (Nat.not_lt_zero c)
    · intro _
      refine ⟨c, hc, ?_, fun d hlt hd => (hiff d hd).2 hlt, hsolutions⟩
      rw [hiff c hc.le]
      exact Nat.lt_irrefl c

theorem solutions_enumerates_mod_four :
    (∃ ys : List (List Int),
      (∀ y, y ∈ ys ↔ SolvesFrom ⟨⟨4⟩, 2, [[2, 1, 0], [0, 0, 0]], [1, 0]⟩ 0 y) ∧
      ys.mapM (unpermute ⟨⟨4⟩, 2, [[2, 1, 0], [0, 0, 0]], [1, 0]⟩) =
        .ok [[0, 0], [0, 2], [2, 1], [2, 3]]) ∧
    solutions ⟨⟨4⟩, 2, [[2, 2, 1], [0, 0, 0]], [0, 1]⟩ =
        .error (.refused (.noValueAtColumn 0)) ∧
      (¬∃ y, SolvesFrom ⟨⟨4⟩, 2, [[2, 2, 1], [0, 0, 0]], [0, 1]⟩ 0 y) ∧
      ∃ y, SolvesFrom ⟨⟨4⟩, 2, [[2, 2, 1], [0, 0, 0]], [0, 1]⟩ 1 y := by
  have hfound : solutions ⟨⟨4⟩, 2, [[2, 1, 0], [0, 0, 0]], [1, 0]⟩ =
      .ok [[0, 0], [0, 2], [2, 1], [2, 3]] := by decide +kernel
  have hrefused : solutions ⟨⟨4⟩, 2, [[2, 2, 1], [0, 0, 0]], [0, 1]⟩ =
      .error (.refused (.noValueAtColumn 0)) := by decide +kernel
  obtain ⟨hsome, hnone⟩ := solutions_enumerates ⟨⟨4⟩, 2, [[2, 1, 0], [0, 0, 0]], [1, 0]⟩
    ⟨⟨by decide, by decide, by decide⟩, by decide, by decide, by decide⟩
  obtain ⟨hsome', hnone'⟩ := solutions_enumerates ⟨⟨4⟩, 2, [[2, 2, 1], [0, 0, 0]], [0, 1]⟩
    ⟨⟨by decide, by decide, by decide⟩, by decide, by decide, by decide⟩
  constructor
  · by_cases hsolvable : ∃ y, SolvesFrom ⟨⟨4⟩, 2, [[2, 1, 0], [0, 0, 0]], [1, 0]⟩ 0 y
    · obtain ⟨ys, xs, hmem, -, hmap, -, hxs⟩ := hsome hsolvable
      cases hxs.symm.trans hfound
      exact ⟨ys, hmem, hmap⟩
    · obtain ⟨c, -, -, -, hc⟩ := hnone hsolvable
      cases hc.symm.trans hfound
  · by_cases hsolvable : ∃ y, SolvesFrom ⟨⟨4⟩, 2, [[2, 2, 1], [0, 0, 0]], [0, 1]⟩ 0 y
    · obtain ⟨ys, xs, -, -, -, -, hxs⟩ := hsome' hsolvable
      cases hxs.symm.trans hrefused
    · obtain ⟨c, -, -, hlater, hc⟩ := hnone' hsolvable
      cases hc.symm.trans hrefused
      exact ⟨hrefused, hsolvable, hlater 1 (by decide) (by decide)⟩

theorem Reduced.solutions_ok (h : t.Reduced) :
    (∃ xs, t.solutions = .ok xs ∧ xs ≠ [] ∧
      (∀ x, x ∈ xs ↔ x.length = t.unknowns ∧ t.SolvesFrom 0 (t.arrange x)) ∧
      xs.length ≤ ∏ c ∈ Finset.range t.unknowns, t.gcdOf ⟨c, c⟩) ∨
    ∃ c, t.solutions = .error (.refused (.noValueAtColumn c)) ∧ ∀ y, ¬t.SolvesFrom 0 y := by
  rcases h.solutions_reached with
    ⟨ys, xs, hreached, hne, hsolutions, -, -, hxs⟩ | ⟨c, -, hreached, hsolutions⟩
  · have hspec := hreached.spec h.toRectangular h.unknowns_le
    refine .inl ⟨xs, hsolutions, ?_, ?_, ?_⟩
    · rintro rfl
      exact hne (List.forall₂_nil_right_iff.1 hxs)
    · intro x
      constructor
      · intro hx
        obtain ⟨y, hy, hlen, rfl⟩ := Checked.exists_of_forall₂_right hxs hx
        exact ⟨hlen, (hspec.mem_iff _).1 hy⟩
      · rintro ⟨hlen, hsolves⟩
        obtain ⟨x', hx', hlen', heq⟩ :=
          Checked.exists_of_forall₂_left hxs ((hspec.mem_iff _).2 hsolves)
        rwa [h.arrange_injective hlen hlen' heq.symm]
    · rw [← hxs.length_eq, Finset.range_eq_Ico]
      exact hspec.length_le
  · refine .inr ⟨c, hsolutions, ?_⟩
    intro y hy
    exact Nat.not_lt_zero c ((hreached.solvesFrom_iff h.toRectangular h.unknowns_le
      (Nat.zero_le _)).1 ⟨y, hy⟩)

end LinearCongruence.Tableau
