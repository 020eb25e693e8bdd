import LinearCongruence.Proofs.Tableau.Sweep
import LinearCongruence.Proofs.Tableau.WorkingForm
/-!
# Sequences of operations

Whatever is done to the tableau of a matrix, and in whatever order, it goes on to stand for
the system: exchanges, combinations, choices of a pivot and whole sweeps succeed within the
tableau, and each is a run of steps. Main facts:

* `Operation.run_ok` : one operation;
* `perform_ok` : a sequence of them;
* `perform_keeps_system` : what every state reached from a matrix has in common with it.
-/

namespace LinearCongruence.Tableau

open Augmented

variable {t : Tableau}

inductive Operation where
  | swapRows (a b : Nat)
  | swapColumns (a b : Nat)
  | addMultiple (target source : Nat) (factor : Int)
  | choosePivot (i j : Nat)
  | triangularize (freeColumns : Bool)
  deriving DecidableEq

/-- The tableau that an operation leaves. That of a choice without a pivot and that of a sweep
which stops are left as well. -/
def Operation.run (t : Tableau) : Operation → Checked Tableau
  | swapRows a b => t.swapRows a b
  | swapColumns a b => t.swapColumns a b
  | addMultiple target source factor => t.addMultiple target source factor
  | choosePivot i j => do
    let (left, _) ← t.choosePivot i j
    pure left
  | triangularize freeColumns => do
    let sweep ← t.triangularize freeColumns
    pure sweep.tableau

/-- The rows and columns that an operation names exist, and no row is added to itself. A
pivot may be looked for anywhere. -/
def Operation.Within (height unknowns : Nat) : Operation → Prop
  | swapRows a b => a < height ∧ b < height
  | swapColumns a b => a < unknowns ∧ b < unknowns
  | addMultiple target source _ => target < height ∧ source < height ∧ target ≠ source
  | choosePivot _ _ => True
  | triangularize _ => True

instance (height unknowns : Nat) (op : Operation) : Decidable (op.Within height unknowns) := by
  cases op <;> unfold Operation.Within <;> infer_instance

def perform (t : Tableau) (ops : List Operation) : Checked Tableau := ops.foldlM Operation.run t

theorem Operation.run_ok (h : t.Reduced) {op : Operation}
    (hop : op.Within t.height t.unknowns) : ∃ u, op.run t = .ok u ∧ BlockSteps 0 t u := by
  cases op with
  | swapRows a b =>
      obtain ⟨ha, hb⟩ := hop
      obtain ⟨u, hswap, -⟩ := h.swapRows_ok ha hb
      exact ⟨u, hswap, .single (.swapRows a b ⟨a.zero_le, b.zero_le⟩ ⟨ha, hb⟩ hswap)⟩
  | swapColumns a b =>
      obtain ⟨ha, hb⟩ := hop
      obtain ⟨u, hswap, -⟩ := h.swapColumns_ok ha hb
      exact ⟨u, hswap, .single (.swapColumns a b ⟨a.zero_le, b.zero_le⟩ ⟨ha, hb⟩ hswap)⟩
  | addMultiple target source factor =>
      obtain ⟨htarget, hsource, hne⟩ := hop
      obtain ⟨u, hadd, -⟩ := h.addMultiple_ok factor htarget hsource
      exact ⟨u, hadd, .single (.addMultiple target source factor
        ⟨target.zero_le, source.zero_le⟩ ⟨htarget, hsource⟩ hne hadd)⟩
  | choosePivot i j =>
      rw [run]
      rcases h.choosePivot_ok i j with ⟨hchoose, -⟩ | ⟨u, p, hchoose, hpivot⟩
      · rw [hchoose, Checked.ok_bind]
        exact ⟨t, rfl, .refl⟩
      · rw [hchoose, Checked.ok_bind]
        exact ⟨u, rfl, hpivot.steps.blockSteps.mono i.zero_le⟩
  | triangularize freeColumns =>
      obtain ⟨s, hsweep, hs⟩ := h.sweepTo_ok freeColumns (Nat.le_refl _)
      rw [run, triangularize_eq_sweepTo, hsweep, Checked.ok_bind]
      cases hs with
      | done u hsteps _ => exact ⟨u, rfl, hsteps⟩
      | stuck u i _ _ hsteps _ _ => exact ⟨u, rfl, hsteps⟩

theorem perform_ok (h : t.Reduced) {ops : List Operation}
    (hops : ∀ op ∈ ops, op.Within t.height t.unknowns) :
    ∃ u, t.perform ops = .ok u ∧ BlockSteps 0 t u := by
  unfold perform
  apply Checked.foldlM_ok fun (_ : List Operation) u => BlockSteps 0 t u
  · exact .refl
  · intro seen op rest heq u hsteps
    have hshape := hsteps.sameShape h
    have hop : op.Within u.height u.unknowns := by
      rw [hshape.height_eq, hshape.unknowns_eq]
      exact hops op (by simp [heq])
    obtain ⟨v, hrun, hstep⟩ := Operation.run_ok (hsteps.reduced h) hop
    exact ⟨v, hrun, hsteps.trans hstep⟩

theorem Reduced.map_length_rows (h : t.Reduced) :
    t.rows.map List.length = List.replicate t.height (t.unknowns + 1) := by
  rw [List.eq_replicate_iff, List.length_map]
  refine ⟨rfl, ?_⟩
  intro len hlen
  obtain ⟨row, hrow, rfl⟩ := List.mem_map.1 hlen
  exact h.length_eq row hrow

/-- Every sequence of operations on the tableau of a matrix succeeds. It changes neither the
number of rows nor their lengths, it leaves residues and a bijective order, and it leaves the
rows to hold at a vector exactly where the equations hold at the vector put in order. -/
theorem perform_keeps_system (ring : ResidueRing) (matrix : Augmented) (n : Nat)
    (hvalid : ring.Valid) (hmatrix : WellFormed matrix n) :
    ∃ t, ofAugmented ring matrix = .ok t ∧
      ∀ ops : List Operation, (∀ op ∈ ops, op.Within t.height n) →
        ∃ u, t.perform ops = .ok u ∧
          u.rows.map List.length = t.rows.map List.length ∧
          (∀ row ∈ u.rows, ∀ v ∈ row, 0 ≤ v ∧ v < ring.modulus) ∧
          u.order.Perm (List.range n) ∧
          ∀ y, IsResidues ring.modulus n y →
            ∃ x, u.unpermute y = .ok x ∧
              ((∀ row ∈ u.rows, Holds ring.modulus row y) ↔
                ∀ row ∈ matrix, Holds ring.modulus row x) := by
  have ht := workingForm_padded hvalid hmatrix
  refine ⟨_, ofAugmented_eq_padded hvalid hmatrix, ?_⟩
  intro ops hops
  obtain ⟨u, hperform, hsteps⟩ := perform_ok ht.reduced hops
  have hu := ht.of_steps hsteps
  have hshape := hsteps.sameShape ht.reduced
  refine ⟨u, hperform, ?_, ?_, ?_, ?_⟩
  · rw [hu.reduced.map_length_rows, ht.reduced.map_length_rows, hshape.height_eq,
      hshape.unknowns_eq]
  · rw [← hu.ring_eq]
    exact hu.reduced.range
  · rw [← hu.unknowns_eq]
    exact hu.reduced.order_perm
  · intro y hy
    exact hu.unpermute_ok hy.length_eq

theorem perform_keeps_system_mod_six :
    perform ⟨⟨6⟩, 3, [[2, 2, 0, 4], [3, 3, 0, 3], [0, 0, 0, 0]], [0, 1, 2]⟩
        [.swapColumns 0 2, .addMultiple 2 1 (-7), .choosePivot 4 1, .triangularize false] =
      .ok ⟨⟨6⟩, 3, [[5, 0, 5, 1], [0, 0, 0, 0], [0, 0, 0, 0]], [1, 2, 0]⟩ ∧
    ((∀ row ∈ [[5, 0, 5, 1], [0, 0, 0, 0], [0, 0, 0, 0]], Holds 6 row [4, 3, 1]) ↔
      ∀ row ∈ [[2, -4, 6, 4], [3, 3, 0, 9]], Holds 6 row [1, 4, 3]) := by
  obtain ⟨t, ht, hall⟩ := perform_keeps_system ⟨6⟩ [[2, -4, 6, 4], [3, 3, 0, 9]] 3 (by decide)
    ⟨by decide, by decide, by decide⟩
  have htableau : ofAugmented ⟨6⟩ [[2, -4, 6, 4], [3, 3, 0, 9]] =
      .ok ⟨⟨6⟩, 3, [[2, 2, 0, 4], [3, 3, 0, 3], [0, 0, 0, 0]], [0, 1, 2]⟩ := by cbv
  cases ht.symm.trans htableau
  obtain ⟨u, hu, -, -, -, hsolves⟩ := hall
    [.swapColumns 0 2, .addMultiple 2 1 (-7), .choosePivot 4 1, .triangularize false] (by decide)
  have hperform : perform ⟨⟨6⟩, 3, [[2, 2, 0, 4], [3, 3, 0, 3], [0, 0, 0, 0]], [0, 1, 2]⟩
      [.swapColumns 0 2, .addMultiple 2 1 (-7), .choosePivot 4 1, .triangularize false] =
        .ok ⟨⟨6⟩, 3, [[5, 0, 5, 1], [0, 0, 0, 0], [0, 0, 0, 0]], [1, 2, 0]⟩ := by cbv
  cases hu.symm.trans hperform
  obtain ⟨x, hx, hiff⟩ := hsolves [4, 3, 1] ⟨by decide, by decide⟩
  have hunpermute : unpermute ⟨⟨6⟩, 3, [[5, 0, 5, 1], [0, 0, 0, 0], [0, 0, 0, 0]], [1, 2, 0]⟩
      [4, 3, 1] = .ok [1, 4, 3] := by cbv
  cases hx.symm.trans hunpermute
  exact ⟨hperform, hiff⟩

end LinearCongruence.Tableau
