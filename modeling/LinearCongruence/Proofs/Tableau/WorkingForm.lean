import LinearCongruence.Proofs.Tableau.Order
/-!
# Tableaus in work

A tableau in work for a matrix is reduced and represents it, so that the solutions of the
system are the vectors whose arrangement solves the tableau. The tableau of a matrix is one,
and every step leads from one to another.
-/

namespace LinearCongruence.Tableau

open Augmented

variable {ring : ResidueRing} {matrix : Augmented} {n : Nat} {t u : Tableau}

structure WorkingForm (ring : ResidueRing) (matrix : Augmented) (n : Nat) (t : Tableau) :
    Prop where
  reduced : t.Reduced
  ring_eq : t.ring = ring
  unknowns_eq : t.unknowns = n
  represents : t.Represents matrix

theorem workingForm_padded (h : ring.Valid) (hmatrix : WellFormed matrix n) :
    WorkingForm ring matrix n (padded ring matrix n) :=
  ⟨reduced_padded h hmatrix, rfl, rfl, represents_padded⟩

namespace WorkingForm

theorem of_steps {i : Nat} (h : WorkingForm ring matrix n t) (steps : BlockSteps i t u) :
    WorkingForm ring matrix n u := by
  have hshape := steps.sameShape h.reduced
  exact ⟨steps.reduced h.reduced, hshape.ring_eq.trans h.ring_eq,
    hshape.unknowns_eq.trans h.unknowns_eq, steps.represents h.reduced h.represents⟩

theorem isSolution_iff (h : WorkingForm ring matrix n t) {x : List Int} :
    IsSolution ring.modulus n matrix x ↔ x.length = t.unknowns ∧
      IsResidues t.ring.modulus t.unknowns (t.arrange x) ∧ t.Solves (t.arrange x) := by
  obtain ⟨hred, rfl, rfl, hrep⟩ := h
  constructor
  · rintro ⟨hres, hholds⟩
    exact ⟨hres.length_eq, (hred.isResidues_arrange_iff hres.length_eq).2 hres,
      (hrep x hres.length_eq).2 hholds⟩
  · rintro ⟨hlen, hres, hsolves⟩
    exact ⟨(hred.isResidues_arrange_iff hlen).1 hres, (hrep x hlen).1 hsolves⟩

theorem unpermute_ok (h : WorkingForm ring matrix n t) {y : List Int} (hy : y.length = n) :
    ∃ x, t.unpermute y = .ok x ∧
      ((∀ row ∈ t.rows, Holds ring.modulus row y) ↔
        ∀ row ∈ matrix, Holds ring.modulus row x) := by
  obtain ⟨hred, rfl, rfl, hrep⟩ := h
  obtain ⟨x, hunpermute, hlen, rfl⟩ := hred.unpermute_ok hy
  exact ⟨x, hunpermute, hrep x hlen⟩

end WorkingForm

end LinearCongruence.Tableau
