import LinearCongruence.Proofs.ResidueRing.Linear
import LinearCongruence.Proofs.Tableau.Order
import LinearCongruence.Tableau.BackSubstitution
import Mathlib.Tactic.Ring
/-!
# Back-substitution

A column takes the values at which its row holds once the later columns have theirs: none, or
as many as the gcd of its pivot. From all partial solutions after the column they lead to all
from the column on, and keep them in ascending order, where the last entries count first. Main
facts:

* `solvesFrom_cons` : a partial solution is a value before one from the next column on;
* `extensions_ok` : the values for one partial solution;
* `extendAll_ok` : one column.
-/

namespace LinearCongruence.Tableau

open Augmented

variable {t : Tableau} {col : Nat} {later : List Int}

/-! ## One row -/

theorem dvd_foldl_sub (modulus : Nat) (row later : List Int) (right : Int) :
    (modulus : Int) ∣ (row.zip later).foldl
        (fun b p => (b - p.1 * p.2 % modulus) % (modulus : Int)) right -
      (right - dot row later) := by
  induction later generalizing row right with
  | nil => cases row <;> simp [dot]
  | cons x later ih =>
      cases row with
      | nil => simp [dot]
      | cons a row =>
          rw [List.zip_cons_cons, List.foldl_cons, dot]
          set next : Int := (right - a * x % modulus) % modulus with hnext
          set left : Int := (row.zip later).foldl _ next
          have hstep : (modulus : Int) ∣ (right - a * x) - next := by
            rw [hnext, Int.sub_emod_emod]
            exact Int.dvd_self_sub_emod
          have hsum : left - (right - (a * x + dot row later)) =
              (left - (next - dot row later)) - ((right - a * x) - next) := by ring
          rw [hsum]
          exact Int.dvd_sub (ih row next) hstep

theorem Rectangular.remainder_ok (h : t.Rectangular) {row : List Int}
    (hrow : t.rows[col]? = some row) (later : List Int) :
    ∃ b, t.remainder col later = .ok b ∧ (t.ring.modulus : Int) ∣
      b - (t.valueAt ⟨col, t.unknowns⟩ - dot (row.drop (col + 1)) later) := by
  have hlast := h.getElem?_of_row hrow (Nat.le_refl _)
  refine ⟨_, ?_, dvd_foldl_sub t.ring.modulus (row.drop (col + 1)) later _⟩
  unfold remainder
  rw [Checked.nth_of_getElem? hrow, Checked.ok_bind, Checked.nth_of_getElem? hlast,
    Checked.ok_bind]
  apply Checked.foldlM_eq_ok_foldl
  rintro b ⟨a, x⟩ -
  dsimp only
  rw [ResidueRing.mul_of_valid h.valid, Checked.ok_bind, ResidueRing.sub_of_valid h.valid]

theorem Rectangular.holds_drop_iff (h : t.Rectangular) (hcol : col < t.unknowns) {row : List Int}
    (hrow : t.rows[col]? = some row) (x : Int) (later : List Int) :
    Holds t.ring.modulus (row.drop col) (x :: later) ↔
      (t.ring.modulus : Int) ∣ t.valueAt ⟨col, col⟩ * x -
        (t.valueAt ⟨col, t.unknowns⟩ - dot (row.drop (col + 1)) later) := by
  have hlen := h.length_eq row (List.mem_of_getElem? hrow)
  have hlt : col < row.length := by omega
  have hpivot : row[col] = t.valueAt ⟨col, col⟩ :=
    (List.getElem_eq_iff hlt).2 (h.getElem?_of_row hrow (Nat.le_of_lt hcol))
  unfold Holds
  rw [h.getLastD_drop hrow (Nat.le_of_lt hcol), List.drop_eq_getElem_cons hlt, dot, hpivot,
    sub_sub_eq_add_sub]

/-! ## Partial solutions -/

theorem solvesFrom_cons (hcol : col < t.unknowns) {row : List Int}
    (hrow : t.rows[col]? = some row) (x : Int) (later : List Int) :
    t.SolvesFrom col (x :: later) ↔ (0 ≤ x ∧ x < t.ring.modulus ∧
      Holds t.ring.modulus (row.drop col) (x :: later)) ∧ t.SolvesFrom (col + 1) later := by
  constructor
  · rintro ⟨hres, hholds⟩
    have hlen := hres.length_eq
    rw [List.length_cons] at hlen
    have hx := hres.range x (by simp)
    have hfirst := hholds col (Nat.le_refl _) hcol row hrow
    rw [Nat.sub_self, List.drop_zero] at hfirst
    refine ⟨⟨hx.1, hx.2, hfirst⟩, ⟨by omega, fun v hv => hres.range v (by simp [hv])⟩, ?_⟩
    intro r hr hlt entries hentries
    have hlater := hholds r (by omega) hlt entries hentries
    rwa [show r - col = r - (col + 1) + 1 by omega, List.drop_succ_cons] at hlater
  · rintro ⟨⟨hge, hlt, hfirst⟩, hres, hholds⟩
    have hlen := hres.length_eq
    refine ⟨⟨by rw [List.length_cons]; omega, ?_⟩, ?_⟩
    · intro v hv
      rcases List.mem_cons.1 hv with rfl | hv
      · exact ⟨hge, hlt⟩
      · exact hres.range v hv
    · intro r hr hltr entries hentries
      by_cases hrc : r = col
      · subst hrc
        cases hrow.symm.trans hentries
        rwa [Nat.sub_self, List.drop_zero]
      · rw [show r - col = r - (col + 1) + 1 by omega, List.drop_succ_cons]
        exact hholds r (by omega) hltr entries hentries

theorem SolvesFrom.exists_cons {y : List Int} (hy : t.SolvesFrom col y)
    (hcol : col < t.unknowns) : ∃ x later, y = x :: later := by
  have hlen := hy.1.length_eq
  cases y with
  | nil =>
      rw [List.length_nil] at hlen
      omega
  | cons x later => exact ⟨x, later, rfl⟩

theorem SolvesFrom.drop (hheight : t.unknowns ≤ t.height) {y : List Int} {k : Nat}
    (hy : t.SolvesFrom col y) (hk : col + k ≤ t.unknowns) :
    t.SolvesFrom (col + k) (y.drop k) := by
  induction k generalizing col y with
  | zero => exact hy
  | succ k ih =>
      have hcol : col < t.unknowns := by omega
      have hrow := List.getElem?_eq_getElem (hcol.trans_le hheight)
      obtain ⟨x, later, rfl⟩ := hy.exists_cons hcol
      have hlater := ih ((solvesFrom_cons hcol hrow x later).1 hy).2 (by omega)
      rwa [List.drop_succ_cons, show col + (k + 1) = col + 1 + k by omega]

theorem solvesFrom_unknowns (y : List Int) : t.SolvesFrom t.unknowns y ↔ y = [] := by
  constructor
  · intro hy
    have hlen := hy.1.length_eq
    rwa [Nat.sub_self, List.length_eq_zero_iff] at hlen
  · rintro rfl
    exact ⟨⟨(Nat.sub_self _).symm, by simp⟩, fun r hr hlt => absurd hlt (by omega)⟩

/-! ## Ascending order -/

/-- `y` comes before `y'` where vectors are compared from their last entries to their first. -/
def Precedes (y y' : List Int) : Prop := y.reverse < y'.reverse

theorem append_lt_append {xs ys : List Int} (hlen : xs.length = ys.length) (hlt : xs < ys)
    (xs' ys' : List Int) : xs ++ xs' < ys ++ ys' := by
  induction xs generalizing ys with
  | nil =>
      obtain rfl := List.length_eq_zero_iff.1 hlen.symm
      exact absurd hlt (List.lt_irrefl _)
  | cons x xs ih =>
      cases ys with
      | nil => exact absurd hlen (by simp)
      | cons y ys =>
          rw [List.cons_append, List.cons_append, List.cons_lt_cons_iff]
          rcases List.cons_lt_cons_iff.1 hlt with hhead | ⟨rfl, htail⟩
          · exact .inl hhead
          · exact .inr ⟨rfl, ih (by simpa using hlen) htail⟩

theorem precedes_cons_of_lt {x x' : Int} (hlt : x < x') (later : List Int) :
    Precedes (x :: later) (x' :: later) := by
  unfold Precedes
  rw [List.reverse_cons, List.reverse_cons]
  exact List.append_left_lt (List.cons_lt_cons_iff.2 (.inl hlt))

theorem Precedes.cons {later' : List Int} (h : Precedes later later')
    (hlen : later.length = later'.length) (x x' : Int) :
    Precedes (x :: later) (x' :: later') := by
  unfold Precedes
  rw [List.reverse_cons, List.reverse_cons]
  exact append_lt_append (by simpa using hlen) h _ _

theorem Precedes.ne {y y' : List Int} (h : Precedes y y') : y ≠ y' := by
  rintro rfl
  exact List.lt_irrefl _ h

/-! ## One column -/

/-- The partial solutions from column `col` on that end in `later`: each value that its row
allows, in ascending order. -/
structure Extensions (t : Tableau) (col : Nat) (later : List Int) (ys : List (List Int)) :
    Prop where
  mem_iff : ∀ y, y ∈ ys ↔ ∃ x, y = x :: later ∧ t.SolvesFrom col (x :: later)
  ascending : ys.Pairwise Precedes
  length_eq : ys = [] ∨ ys.length = t.gcdOf ⟨col, col⟩

theorem Rectangular.extensions_ok (h : t.Rectangular) (hheight : t.unknowns ≤ t.height)
    (hcol : col < t.unknowns) (hlater : t.SolvesFrom (col + 1) later) :
    ∃ ys, t.extensions col later = .ok ys ∧ t.Extensions col later ys := by
  have hlt : col < t.height := hcol.trans_le hheight
  obtain ⟨row, hrow, -⟩ := h.getElem?_row hlt
  obtain ⟨b, hremainder, hb⟩ := h.remainder_ok hrow later
  obtain ⟨xs, hsolutions, hascending, hmem, hlen⟩ :=
    ResidueRing.solutions_of_valid h.valid (t.valueAt ⟨col, col⟩) b
  refine ⟨xs.map (· :: later), ?_, ?_, ?_, ?_⟩
  · rw [extensions, h.entry_eq hlt (Nat.le_of_lt hcol), Checked.ok_bind, hremainder,
      Checked.ok_bind, hsolutions]
    rfl
  · intro y
    simp only [List.mem_map, hmem, solvesFrom_cons hcol hrow, h.holds_drop_iff hcol hrow]
    have hiff (x : Int) : (t.ring.modulus : Int) ∣ t.valueAt ⟨col, col⟩ * x - b ↔
        (t.ring.modulus : Int) ∣ t.valueAt ⟨col, col⟩ * x -
          (t.valueAt ⟨col, t.unknowns⟩ - dot (row.drop (col + 1)) later) := by
      rw [← Int.dvd_add_left hb, sub_add_sub_cancel]
    constructor
    · rintro ⟨x, ⟨hge, hlt, hdvd⟩, rfl⟩
      exact ⟨x, rfl, ⟨hge, hlt, (hiff x).1 hdvd⟩, hlater⟩
    · rintro ⟨x, rfl, ⟨hge, hlt, hdvd⟩, -⟩
      exact ⟨x, ⟨hge, hlt, (hiff x).2 hdvd⟩, rfl⟩
  · rw [List.pairwise_map]
    exact hascending.imp fun hlt => precedes_cons_of_lt hlt later
  · rw [List.map_eq_nil_iff, List.length_map, hlen, gcdOf]
    split
    · exact .inr rfl
    · rename_i hdvd
      rw [if_neg hdvd] at hlen
      exact .inl (List.length_eq_zero_iff.1 hlen)

theorem length_flatMap_le {f : List Int → List (List Int)} {frontier : List (List Int)} {n : Nat}
    (hle : ∀ later ∈ frontier, (f later).length ≤ n) :
    (frontier.flatMap f).length ≤ frontier.length * n ∧
      ((frontier.flatMap f).length = frontier.length * n ↔
        ∀ later ∈ frontier, (f later).length = n) := by
  induction frontier with
  | nil => simp
  | cons later frontier ih =>
      obtain ⟨hrest, hiff⟩ := ih fun later' hlater' => hle later' (by simp [hlater'])
      have hfirst := hle later (by simp)
      rw [List.flatMap_cons, List.length_append, List.length_cons, Nat.add_one_mul,
        List.forall_mem_cons, ← hiff]
      omega

/-- Extending all partial solutions from the next column on yields all from this one on, in
order and no more than the pivot allows; that many only where each has an extension. -/
theorem Rectangular.extendAll_ok (h : t.Rectangular) (hheight : t.unknowns ≤ t.height)
    (hcol : col < t.unknowns) {frontier : List (List Int)}
    (hfrontier : ∀ y, y ∈ frontier ↔ t.SolvesFrom (col + 1) y)
    (hascending : frontier.Pairwise Precedes) :
    ∃ extended, t.extendAll col frontier = .ok extended ∧
      (∀ y, y ∈ extended ↔ t.SolvesFrom col y) ∧ extended.Pairwise Precedes ∧
      extended.length ≤ frontier.length * t.gcdOf ⟨col, col⟩ ∧
      (extended.length = frontier.length * t.gcdOf ⟨col, col⟩ ↔
        ∀ later ∈ frontier, t.extensions col later ≠ .ok []) := by
  have hextensions (later : List Int) (hlater : later ∈ frontier) :
      ∃ ys, t.extensions col later = .ok ys ∧ t.Extensions col later ys :=
    h.extensions_ok hheight hcol ((hfrontier later).1 hlater)
  choose! values hvalues hspec using hextensions
  have hgcd := (h.gcdOf_bounds ⟨col, col⟩).1
  have hfull (later : List Int) (hlater : later ∈ frontier) :
      (values later).length ≤ t.gcdOf ⟨col, col⟩ ∧
        ((values later).length = t.gcdOf ⟨col, col⟩ ↔ t.extensions col later ≠ .ok []) := by
    rw [hvalues later hlater, ne_eq, Except.ok.injEq]
    rcases (hspec later hlater).length_eq with hnil | hlen
    · rw [hnil, List.length_nil]
      exact ⟨Nat.zero_le _, iff_of_false (Nat.ne_of_lt hgcd) (by simp)⟩
    · exact ⟨hlen.le, iff_of_true hlen (List.ne_nil_of_length_pos (hlen ▸ hgcd))⟩
  obtain ⟨hle, heq⟩ := length_flatMap_le fun later hlater => (hfull later hlater).1
  refine ⟨frontier.flatMap values, ?_, ?_, ?_, hle, ?_⟩
  · rw [extendAll, Checked.mapM_eq_ok_map hvalues, Checked.ok_bind, List.flatMap_def]
    rfl
  · intro y
    rw [List.mem_flatMap]
    constructor
    · rintro ⟨later, hlater, hy⟩
      obtain ⟨x, rfl, hsolves⟩ := ((hspec later hlater).mem_iff y).1 hy
      exact hsolves
    · intro hy
      have hrow := List.getElem?_eq_getElem (hcol.trans_le hheight)
      obtain ⟨x, later, rfl⟩ := hy.exists_cons hcol
      have hlater := (hfrontier later).2 ((solvesFrom_cons hcol hrow x later).1 hy).2
      exact ⟨later, hlater, ((hspec later hlater).mem_iff _).2 ⟨x, rfl, hy⟩⟩
  · rw [List.pairwise_flatMap]
    refine ⟨fun later hlater => (hspec later hlater).ascending, ?_⟩
    refine hascending.imp_of_mem ?_
    intro later later' hlater hlater' hprecedes y hy y' hy'
    obtain ⟨x, rfl, -⟩ := ((hspec later hlater).mem_iff y).1 hy
    obtain ⟨x', rfl, -⟩ := ((hspec later' hlater').mem_iff y').1 hy'
    have hlen := ((hfrontier later).1 hlater).1.length_eq
    have hlen' := ((hfrontier later').1 hlater').1.length_eq
    exact hprecedes.cons (hlen.trans hlen'.symm) x x'
  · rw [heq]
    exact forall₂_congr fun later hlater => (hfull later hlater).2

end LinearCongruence.Tableau
