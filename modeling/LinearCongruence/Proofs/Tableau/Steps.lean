import LinearCongruence.Proofs.Tableau.Entries
import Mathlib.Logic.Relation
/-!
# Steps within a block

Every operation of a sweep exchanges two rows, exchanges two columns, or adds a multiple of a
row to another one, all within the rows and columns from some position on. `BlockStep.cases`
says once what such a step does, and what a step preserves is read off there. Columns that
are cleared left of a block stay cleared while it is worked on (`BlockSteps.cleared`). For
combinations of rows alone `RowStep.cases` says the same without asking for a reduced tableau;
they add to no row without coefficients (`RowSteps.filled_of_filled`).
-/

namespace LinearCongruence.Tableau

variable {t u v : Tableau} {i : Nat}

def Filled (t : Tableau) (r : Nat) : Prop := ∃ c < t.unknowns, t.valueAt ⟨r, c⟩ ≠ 0

instance (t : Tableau) (r : Nat) : Decidable (t.Filled r) :=
  inferInstanceAs (Decidable (∃ c < t.unknowns, t.valueAt ⟨r, c⟩ ≠ 0))

/-- A multiple of a row added to another one, both from row `i` on. No search and no clearing
does so to a row without coefficients. -/
inductive RowStep (i : Nat) (t u : Tableau) : Prop
  | addMultiple (target source : Nat) (factor : Int) (hi : i ≤ target ∧ i ≤ source)
      (hlt : target < t.height ∧ source < t.height) (hne : target ≠ source)
      (filled : t.Filled target) (h : t.addMultiple target source factor = .ok u)

inductive BlockStep (i : Nat) (t u : Tableau) : Prop
  | swapRows (a b : Nat) (hi : i ≤ a ∧ i ≤ b) (hlt : a < t.height ∧ b < t.height)
      (h : t.swapRows a b = .ok u)
  | swapColumns (a b : Nat) (hi : i ≤ a ∧ i ≤ b) (hlt : a < t.unknowns ∧ b < t.unknowns)
      (h : t.swapColumns a b = .ok u)
  | addMultiple (target source : Nat) (factor : Int) (hi : i ≤ target ∧ i ≤ source)
      (hlt : target < t.height ∧ source < t.height) (hne : target ≠ source)
      (h : t.addMultiple target source factor = .ok u)

abbrev RowSteps (i : Nat) : Tableau → Tableau → Prop := Relation.ReflTransGen (RowStep i)

abbrev BlockSteps (i : Nat) : Tableau → Tableau → Prop := Relation.ReflTransGen (BlockStep i)

inductive Effect (i : Nat) (t u : Tableau) : Prop
  | rows (a b : Nat) (ha : i ≤ a) (hb : i ≤ b) (order : u.order = t.order)
      (value : ∀ p, u.valueAt p = t.valueAt ⟨Equiv.swap a b p.row, p.col⟩)
  | columns (a b : Nat) (ha : i ≤ a) (hb : i ≤ b) (hau : a < t.unknowns) (hbu : b < t.unknowns)
      (order : ∀ c : Nat, u.order[c]? = t.order[Equiv.swap a b c]?)
      (value : ∀ p, u.valueAt p = t.valueAt ⟨p.row, Equiv.swap a b p.col⟩)
  | combination (target source : Nat) (factor : Int) (ha : i ≤ target) (hb : i ≤ source)
      (hne : target ≠ source) (order : u.order = t.order)
      (value : ∀ p, u.valueAt p =
        if p.row = target then
          (t.valueAt p + factor * t.valueAt ⟨source, p.col⟩) % t.ring.modulus
        else t.valueAt p)

theorem BlockStep.cases (step : BlockStep i t u) (h : t.Reduced) :
    u.Reduced ∧ SameShape t u ∧ Effect i t u := by
  cases step with
  | swapRows a b hi hlt hstep =>
      obtain ⟨u', hu', hred, hshape, horder, hval⟩ := h.swapRows_ok hlt.1 hlt.2
      cases hstep.symm.trans hu'
      exact ⟨hred, hshape, .rows a b hi.1 hi.2 horder hval⟩
  | swapColumns a b hi hlt hstep =>
      obtain ⟨u', hu', hred, hshape, horder, hval⟩ := h.swapColumns_ok hlt.1 hlt.2
      cases hstep.symm.trans hu'
      exact ⟨hred, hshape, .columns a b hi.1 hi.2 hlt.1 hlt.2 horder hval⟩
  | addMultiple target source factor hi hlt hne hstep =>
      obtain ⟨u', hu', hred, hshape, horder, hval⟩ := h.addMultiple_ok factor hlt.1 hlt.2
      cases hstep.symm.trans hu'
      exact ⟨hred, hshape, .combination target source factor hi.1 hi.2 hne horder hval⟩

theorem BlockStep.mono {j : Nat} (step : BlockStep i t u) (hj : j ≤ i) : BlockStep j t u := by
  cases step with
  | swapRows a b hi hlt h => exact .swapRows a b ⟨by omega, by omega⟩ hlt h
  | swapColumns a b hi hlt h => exact .swapColumns a b ⟨by omega, by omega⟩ hlt h
  | addMultiple target source factor hi hlt hne h =>
      exact .addMultiple target source factor ⟨by omega, by omega⟩ hlt hne h

theorem BlockSteps.mono {j : Nat} (steps : BlockSteps i t u) (hj : j ≤ i) :
    BlockSteps j t u :=
  Relation.ReflTransGen.mono (fun _ _ step => BlockStep.mono step hj) _ _ steps

theorem RowStep.blockStep (step : RowStep i t u) : BlockStep i t u := by
  obtain ⟨target, source, factor, hi, hlt, hne, -, h⟩ := step
  exact .addMultiple target source factor hi hlt hne h

theorem RowSteps.blockSteps (steps : RowSteps i t u) : BlockSteps i t u :=
  Relation.ReflTransGen.mono (fun _ _ step => RowStep.blockStep step) _ _ steps

/-- What every step preserves of tableaus that steps lead from one to another, a run
preserves. -/
theorem steps_induct {step : Tableau → Tableau → Prop} {Q : Tableau → Prop} (P : Tableau → Prop)
    (hQ : ∀ t u, Q t → step t u → Q u) (hstep : ∀ t u, Q t → step t u → P t → P u)
    (steps : Relation.ReflTransGen step t u) (h : Q t) (hP : P t) : P u := by
  suffices Q u ∧ P u from this.2
  induction steps with
  | refl => exact ⟨h, hP⟩
  | tail _ step ih =>
      obtain ⟨hQv, hPv⟩ := ih
      exact ⟨hQ _ _ hQv step, hstep _ _ hQv step hPv⟩

theorem BlockSteps.induct (P : Tableau → Prop)
    (hstep : ∀ t u, t.Reduced → BlockStep i t u → P t → P u)
    (steps : BlockSteps i t u) (h : t.Reduced) (hP : P t) : P u :=
  steps_induct P (fun _ _ hred step => (step.cases hred).1) hstep steps h hP

theorem BlockSteps.reduced (steps : BlockSteps i t u) (h : t.Reduced) : u.Reduced :=
  steps.induct Reduced (fun _ _ hred step _ => (step.cases hred).1) h h

theorem BlockSteps.sameShape (steps : BlockSteps i t u) (h : t.Reduced) : SameShape t u :=
  steps.induct (SameShape t) (fun _ _ hred step hshape => hshape.trans (step.cases hred).2.1) h
    (.refl t)

/-! ## Combinations of rows -/

theorem RowStep.cases (step : RowStep i t u) (h : t.Rectangular) :
    u.Rectangular ∧ SameShape t u ∧ u.order = t.order ∧
      ∃ target source factor, i ≤ target ∧ i ≤ source ∧ t.Filled target ∧
        ∀ p, u.valueAt p =
          if p.row = target then
            (t.valueAt p + factor * t.valueAt ⟨source, p.col⟩) % t.ring.modulus
          else t.valueAt p := by
  obtain ⟨target, source, factor, hi, hlt, -, hfilled, hadd⟩ := step
  obtain ⟨v, hadd', hv, hshape, horder, hval⟩ := h.addMultiple_ok factor hlt.1 hlt.2
  cases hadd.symm.trans hadd'
  exact ⟨hv, hshape, horder, target, source, factor, hi.1, hi.2, hfilled, hval⟩

theorem RowSteps.induct (P : Tableau → Prop)
    (hstep : ∀ t u, t.Rectangular → RowStep i t u → P t → P u)
    (steps : RowSteps i t u) (h : t.Rectangular) (hP : P t) : P u :=
  steps_induct P (fun _ _ hrect step => (step.cases hrect).1) hstep steps h hP

theorem RowSteps.rectangular (steps : RowSteps i t u) (h : t.Rectangular) : u.Rectangular :=
  steps.induct Rectangular (fun _ _ hrect step _ => (step.cases hrect).1) h h

theorem RowSteps.sameShape (steps : RowSteps i t u) (h : t.Rectangular) : SameShape t u :=
  steps.induct (SameShape t) (fun _ _ hrect step hshape => hshape.trans (step.cases hrect).2.1) h
    (.refl t)

theorem RowSteps.order_eq (steps : RowSteps i t u) (h : t.Rectangular) : u.order = t.order :=
  steps.induct (fun v => v.order = t.order)
    (fun _ _ hrect step horder => (step.cases hrect).2.2.1.trans horder) h rfl

theorem RowSteps.getElem?_rows_eq (steps : RowSteps i t u) (h : t.Rectangular) {r : Nat}
    (hr : r < i) : u.rows[r]? = t.rows[r]? := by
  apply h.getElem?_rows_eq (steps.rectangular h) (steps.sameShape h)
  refine steps.induct (fun v => ∀ c, v.valueAt ⟨r, c⟩ = t.valueAt ⟨r, c⟩) ?_ h fun _ => rfl
  intro v w hv step hval c
  obtain ⟨-, -, -, target, source, factor, htarget, -, -, hstep⟩ := step.cases hv
  have hne : r ≠ target := by omega
  rw [hstep, if_neg hne, hval]

theorem RowSteps.column_eq_zero (steps : RowSteps i t u) (h : t.Rectangular) {c : Nat}
    (hzero : ∀ r, i ≤ r → t.valueAt ⟨r, c⟩ = 0) {r : Nat} (hr : i ≤ r) :
    u.valueAt ⟨r, c⟩ = 0 := by
  refine steps.induct (fun v => ∀ r, i ≤ r → v.valueAt ⟨r, c⟩ = 0) ?_ h hzero r hr
  intro v w hv step hzero r hr
  obtain ⟨-, -, -, target, source, factor, -, hsource, -, hval⟩ := step.cases hv
  rw [hval, hzero r hr, hzero source hsource]
  simp

/-- A row without coefficients is none that combinations add to. -/
theorem RowSteps.filled_of_filled (steps : RowSteps i t u) (h : t.Rectangular) {r : Nat}
    (hr : u.Filled r) : t.Filled r := by
  refine steps.induct (fun v => v.Filled r → t.Filled r) ?_ h id hr
  intro v w hv step ih hw
  obtain ⟨-, hshape, -, target, source, factor, -, -, hfilled, hval⟩ := step.cases hv
  apply ih
  by_cases heq : r = target
  · exact heq ▸ hfilled
  · obtain ⟨c, hc, hne⟩ := hw
    rw [hval, if_neg heq] at hne
    exact ⟨c, hshape.unknowns_eq ▸ hc, hne⟩

/-! ## What a run leaves alone -/

theorem le_swap_of_le {a b k : Nat} (ha : i ≤ a) (hb : i ≤ b) (hk : i ≤ k) :
    i ≤ Equiv.swap a b k := by
  rw [Equiv.swap_apply_def]
  split
  · exact hb
  · split
    · exact ha
    · exact hk

theorem swap_lt {n a b k : Nat} (ha : a < n) (hb : b < n) (hk : k < n) :
    Equiv.swap a b k < n := by
  rw [Equiv.swap_apply_def]
  split
  · exact hb
  · split
    · exact ha
    · exact hk

theorem swap_of_lt {a b k : Nat} (ha : i ≤ a) (hb : i ≤ b) (hk : k < i) :
    Equiv.swap a b k = k :=
  Equiv.swap_apply_of_ne_of_ne (by omega) (by omega)

/-- The rows and columns before `i` meet in entries that no step from `i` on changes. -/
theorem BlockStep.valueAt_of_lt (step : BlockStep i t u) (h : t.Reduced) {p : Position}
    (hrow : p.row < i) (hcol : p.col < i) : u.valueAt p = t.valueAt p := by
  obtain ⟨-, -, heffect⟩ := step.cases h
  cases heffect with
  | rows a b ha hb _ hval => rw [hval, swap_of_lt ha hb hrow]
  | columns a b ha hb _ _ _ hval => rw [hval, swap_of_lt ha hb hcol]
  | combination target source factor ha _ _ _ hval => rw [hval, if_neg (by omega)]

theorem BlockSteps.valueAt_of_lt (steps : BlockSteps i t u) (h : t.Reduced) {p : Position}
    (hrow : p.row < i) (hcol : p.col < i) : u.valueAt p = t.valueAt p :=
  steps.induct (fun v => v.valueAt p = t.valueAt p)
    (fun _ _ hred step heq => (step.valueAt_of_lt hred hrow hcol).trans heq) h rfl

/-! ## Cleared columns -/

def Cleared (t : Tableau) (count : Nat) : Prop :=
  ∀ col < count, ∀ row, col < row → t.valueAt ⟨row, col⟩ = 0

theorem Cleared.not_filled (hcleared : t.Cleared t.unknowns) {r : Nat} (hr : t.unknowns ≤ r) :
    ¬t.Filled r := by
  rintro ⟨c, hc, hne⟩
  exact hne (hcleared c hc r (hc.trans_le hr))

theorem Reduced.clearedBelow_iff (h : t.Reduced) {count : Nat} (hcount : count ≤ t.unknowns) :
    t.ClearedBelow count ↔ t.Cleared count := by
  constructor
  · intro hcleared col hcol row hrow
    by_cases hlt : row < t.height
    · have hentry := hcleared col hcol row hrow hlt
      rw [h.entry_eq hlt (by omega)] at hentry
      exact Except.ok.inj hentry
    · exact valueAt_of_height_le (Nat.le_of_not_lt hlt) col
  · intro hcleared col hcol row hrow hlt
    rw [h.entry_eq hlt (by omega), hcleared col hcol row hrow]

theorem BlockStep.cleared (step : BlockStep i t u) (h : t.Reduced) (hcleared : t.Cleared i) :
    u.Cleared i := by
  intro col hcol row hrow
  obtain ⟨-, -, heffect⟩ := step.cases h
  cases heffect with
  | rows a b ha hb _ hval =>
      rw [hval]
      apply hcleared col hcol
      by_cases hlt : row < i
      · rwa [swap_of_lt ha hb hlt]
      · have := le_swap_of_le ha hb (Nat.le_of_not_lt hlt)
        simp only
        omega
  | columns a b ha hb _ _ _ hval =>
      rw [hval, swap_of_lt ha hb hcol]
      exact hcleared col hcol row hrow
  | combination target source factor ha hb _ _ hval =>
      rw [hval, hcleared col hcol row hrow, hcleared col hcol source (by omega)]
      simp

theorem BlockSteps.cleared (steps : BlockSteps i t u) (h : t.Reduced)
    (hcleared : t.Cleared i) : u.Cleared i :=
  steps.induct (Cleared · i) (fun _ _ hred step => step.cleared hred) h hcleared

end LinearCongruence.Tableau
