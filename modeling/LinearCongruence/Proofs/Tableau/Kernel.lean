import LinearCongruence.Proofs.Augmented.Count
import LinearCongruence.Proofs.ResidueRing.Kernel
import LinearCongruence.Proofs.Tableau.WorkingForm
/-!
# The kernel of a tableau

The vectors that the coefficients of every row send to zero form a group. Adding them to one
solution makes every other one, once each, so that a system that has a solution has as many
as there are vectors in the kernel. Main facts:

* `card_kernel_eq` : no step changes the size of the kernel;
* `bijOn_shift` : the solutions of a tableau are the shifts of one of them;
* `solutionCount_eq` : the number of solutions of a system that has one;
* `pow_dvd_card_kernel` : the kernel of a tableau with few rows that have coefficients;
* `card_kernel_dvd` : the kernel of a tableau with cleared columns.
-/

namespace LinearCongruence

open Augmented

theorem Augmented.IsResidues.eq_of_cast {modulus n : Nat} {y y' : List Int}
    (hy : IsResidues modulus n y) (hy' : IsResidues modulus n y')
    (hcast : ∀ c < n, ((y[c]?.getD 0 : Int) : ZMod modulus) = (y'[c]?.getD 0 : Int)) :
    y = y' := by
  apply List.ext_getElem (hy.length_eq.trans hy'.length_eq.symm)
  intro c hc hc'
  have hc := hcast c (hy.length_eq ▸ hc)
  rw [ZMod.intCast_eq_intCast_iff'] at hc
  have hmod (l : List Int) (hl : IsResidues modulus n l) (hlt : c < l.length) :
      l[c]?.getD 0 % modulus = l[c] := by
    obtain ⟨hge, hlt'⟩ := hl.range _ (List.getElem_mem hlt)
    rw [List.getElem?_eq_getElem hlt, Option.getD_some, Int.emod_eq_of_lt hge hlt']
  rwa [hmod y hy, hmod y' hy'] at hc

namespace Tableau

variable {t : Tableau}

def kernel (t : Tableau) : AddSubgroup (Fin t.unknowns → ZMod t.ring.modulus) where
  carrier := {z | ∀ r, ∑ c : Fin t.unknowns, (t.valueAt ⟨r, c⟩ : ZMod t.ring.modulus) * z c = 0}
  zero_mem' r := by simp
  add_mem' hz hw r := by
    simp only [Pi.add_apply, mul_add, Finset.sum_add_distrib]
    rw [hz r, hw r, add_zero]
  neg_mem' hz r := by
    simp only [Pi.neg_apply, mul_neg, Finset.sum_neg_distrib]
    rw [hz r, neg_zero]

theorem mem_kernel {z : Fin t.unknowns → ZMod t.ring.modulus} :
    z ∈ t.kernel ↔
      ∀ r, ∑ c : Fin t.unknowns, (t.valueAt ⟨r, c⟩ : ZMod t.ring.modulus) * z c = 0 := Iff.rfl

/-! ## Steps -/

section Annihilated

variable {m n : Nat} {f g : Nat → Nat → Int}

def annihilated (m n : Nat) (f : Nat → Nat → Int) : Set (Fin n → ZMod m) :=
  {z | ∀ r, ∑ c : Fin n, (f r c : ZMod m) * z c = 0}

theorem annihilated_congr (hg : ∀ r, ∀ c < n, g r c = f r c) :
    annihilated m n g = annihilated m n f := by
  ext z
  apply forall_congr'
  intro r
  simp only [hg r _ (Fin.isLt _)]

theorem annihilated_rows (σ : Equiv.Perm Nat) (hg : ∀ r c, g r c = f (σ r) c) :
    annihilated m n g = annihilated m n f := by
  ext z
  unfold annihilated
  simp only [hg]
  exact σ.forall_congr_right (q := fun r => ∑ c : Fin n, (f r c : ZMod m) * z c = 0)

theorem ncard_annihilated_columns {a b : Nat} (ha : a < n) (hb : b < n)
    (hg : ∀ r c, g r c = f r (Equiv.swap a b c)) :
    (annihilated m n g).ncard = (annihilated m n f).ncard := by
  let e : Equiv.Perm (Fin n) := Equiv.swap ⟨a, ha⟩ ⟨b, hb⟩
  have he (c : Fin n) : Equiv.swap a b (c : Nat) = (e c : Nat) := by
    simp only [e, Equiv.swap_apply_def, Fin.ext_iff]
    split_ifs <;> rfl
  apply ((e.arrowCongr (Equiv.refl (ZMod m))).bijOn ?_).ncard_eq
  intro z
  apply forall_congr'
  intro r
  have hsum := Equiv.sum_comp e fun c : Fin n => (f r c : ZMod m) * z (e.symm c)
  simp only [e.symm_apply_apply] at hsum
  simp only [hg, he, hsum]
  rfl

/-- Whatever the source and the target send to zero, their combination does, and conversely. -/
theorem annihilated_combination {target source : Nat} {factor : Int} (hne : target ≠ source)
    (hg : ∀ r c, g r c = if r = target then (f r c + factor * f source c) % m else f r c) :
    annihilated m n g = annihilated m n f := by
  ext z
  have hother (r : Nat) (hr : r ≠ target) :
      ∑ c : Fin n, (g r c : ZMod m) * z c = ∑ c : Fin n, (f r c : ZMod m) * z c := by
    simp only [hg, if_neg hr]
  have htarget : ∑ c : Fin n, (g target c : ZMod m) * z c =
      ∑ c : Fin n, (f target c : ZMod m) * z c +
        factor * ∑ c : Fin n, (f source c : ZMod m) * z c := by
    simp only [hg, if_pos, ZMod.intCast_mod, Int.cast_add, Int.cast_mul, add_mul, mul_assoc,
      Finset.sum_add_distrib, Finset.mul_sum]
  constructor
  · intro hz r
    have hsource := (hother source hne.symm).symm.trans (hz source)
    by_cases hr : r = target
    · have hzero := hz target
      rw [htarget, hsource, mul_zero, add_zero] at hzero
      exact hr ▸ hzero
    · exact (hother r hr).symm.trans (hz r)
  · intro hz r
    by_cases hr : r = target
    · rw [hr, htarget, hz target, hz source, mul_zero, add_zero]
    · exact (hother r hr).trans (hz r)

end Annihilated

theorem card_kernel_eq_ncard (t : Tableau) : Nat.card t.kernel =
    (annihilated t.ring.modulus t.unknowns fun r c => t.valueAt ⟨r, c⟩).ncard := rfl

theorem BlockStep.card_kernel_eq {u : Tableau} {i : Nat} (step : BlockStep i t u)
    (h : t.Reduced) : Nat.card u.kernel = Nat.card t.kernel := by
  obtain ⟨-, hshape, heffect⟩ := step.cases h
  rw [card_kernel_eq_ncard, card_kernel_eq_ncard, hshape.ring_eq, hshape.unknowns_eq]
  cases heffect with
  | rows a b _ _ _ hval =>
      apply congrArg Set.ncard
      exact annihilated_rows (Equiv.swap a b) fun r c => hval ⟨r, c⟩
  | columns a b _ _ ha hb _ hval =>
      exact ncard_annihilated_columns ha hb fun r c => hval ⟨r, c⟩
  | combination target source factor _ _ hne _ hval =>
      apply congrArg Set.ncard
      exact annihilated_combination hne fun r c => hval ⟨r, c⟩

theorem BlockSteps.card_kernel_eq {u : Tableau} {i : Nat} (steps : BlockSteps i t u)
    (h : t.Reduced) : Nat.card u.kernel = Nat.card t.kernel :=
  steps.induct (fun v => Nat.card v.kernel = Nat.card t.kernel)
    (fun _ _ hred step hcard => (step.card_kernel_eq hred).trans hcard) h rfl

/-! ## Shifts of a solution -/

def shift (t : Tableau) (y : List Int) (z : Fin t.unknowns → ZMod t.ring.modulus) : List Int :=
  List.ofFn fun c => (y[(c : Nat)]?.getD 0 + (z c).val) % (t.ring.modulus : Int)

theorem cast_residual (t : Tableau) (y : List Int) (r : Nat) :
    (t.residual y r : ZMod t.ring.modulus) =
      ∑ c : Fin t.unknowns, (t.valueAt ⟨r, c⟩ : ZMod t.ring.modulus) *
        ((y[(c : Nat)]?.getD 0 : Int) : ZMod t.ring.modulus) -
      (t.valueAt ⟨r, t.unknowns⟩ : ZMod t.ring.modulus) := by
  unfold residual
  rw [Finset.sum_range, Int.cast_sub, Int.cast_sum]
  simp only [Int.cast_mul]

def columnSolutions (t : Tableau) : Set (List Int) :=
  {y | IsResidues t.ring.modulus t.unknowns y ∧ t.Solves y}

section Shift

variable (y : List Int) (z : Fin t.unknowns → ZMod t.ring.modulus)

theorem Reduced.isResidues_shift (h : t.Reduced) :
    IsResidues t.ring.modulus t.unknowns (t.shift y z) := by
  refine ⟨List.length_ofFn, ?_⟩
  intro v hv
  obtain ⟨c, rfl⟩ := List.mem_ofFn.1 hv
  exact ResidueRing.emod_bounds h.valid _

theorem Reduced.cast_shift (h : t.Reduced) (c : Fin t.unknowns) :
    (((t.shift y z)[(c : Nat)]?.getD 0 : Int) : ZMod t.ring.modulus) =
      ((y[(c : Nat)]?.getD 0 : Int) : ZMod t.ring.modulus) + z c := by
  have : NeZero t.ring.modulus := ⟨Nat.ne_of_gt h.valid.1⟩
  unfold shift
  rw [List.getElem?_ofFn, dif_pos c.isLt, Option.getD_some, ZMod.intCast_mod,
    Int.cast_add, Int.cast_natCast, ZMod.natCast_zmod_val]

theorem Reduced.cast_residual_shift (h : t.Reduced) (r : Nat) :
    (t.residual (t.shift y z) r : ZMod t.ring.modulus) = t.residual y r +
      ∑ c : Fin t.unknowns, (t.valueAt ⟨r, c⟩ : ZMod t.ring.modulus) * z c := by
  simp only [cast_residual, h.cast_shift, mul_add, Finset.sum_add_distrib]
  rw [sub_add_eq_add_sub]

theorem Reduced.shift_injective (h : t.Reduced) : Function.Injective (t.shift y) := by
  intro z w heq
  funext c
  have hz := h.cast_shift y z c
  rw [heq, h.cast_shift y w c] at hz
  exact (add_left_cancel hz).symm

end Shift

variable {y : List Int}

theorem Reduced.solves_iff_cast (h : t.Reduced) (hy : y.length = t.unknowns) :
    t.Solves y ↔ ∀ r, (t.residual y r : ZMod t.ring.modulus) = 0 := by
  rw [h.solves_iff hy]
  simp only [ZMod.intCast_zmod_eq_zero_iff_dvd]

theorem Reduced.solves_shift_iff (h : t.Reduced) (hy : y ∈ t.columnSolutions)
    (z : Fin t.unknowns → ZMod t.ring.modulus) : t.Solves (t.shift y z) ↔ z ∈ t.kernel := by
  have hsolves := (h.solves_iff_cast hy.1.length_eq).1 hy.2
  rw [h.solves_iff_cast (h.isResidues_shift y z).length_eq, mem_kernel]
  simp only [h.cast_residual_shift, hsolves, zero_add]

theorem Reduced.exists_shift_eq (h : t.Reduced) (y : List Int) {y' : List Int}
    (hy' : IsResidues t.ring.modulus t.unknowns y') : ∃ z, t.shift y z = y' := by
  refine ⟨fun c => ((y'[(c : Nat)]?.getD 0 : Int) : ZMod t.ring.modulus) -
    ((y[(c : Nat)]?.getD 0 : Int) : ZMod t.ring.modulus), ?_⟩
  apply (h.isResidues_shift y _).eq_of_cast hy'
  intro c hc
  rw [h.cast_shift y _ ⟨c, hc⟩, add_sub_cancel]

theorem Reduced.bijOn_shift (h : t.Reduced) (hy : y ∈ t.columnSolutions) :
    Set.BijOn (t.shift y) t.kernel t.columnSolutions := by
  refine ⟨?_, (h.shift_injective y).injOn, ?_⟩
  · intro z hz
    exact ⟨h.isResidues_shift y z, (h.solves_shift_iff hy z).2 hz⟩
  · rintro y' ⟨hres, hsolves⟩
    obtain ⟨z, rfl⟩ := h.exists_shift_eq y hres
    exact ⟨z, (h.solves_shift_iff hy z).1 hsolves, rfl⟩

/-! ## The number of solutions -/

variable {ring : ResidueRing} {matrix : Augmented} {n : Nat}

/-- Arranging the solutions of a system leads to those of its tableau. -/
theorem WorkingForm.bijOn_arrange (h : WorkingForm ring matrix n t) :
    Set.BijOn t.arrange {x | IsSolution ring.modulus n matrix x} t.columnSolutions := by
  refine ⟨?_, ?_, ?_⟩
  · intro x hx
    exact (h.isSolution_iff.1 hx).2
  · intro x hx x' hx' heq
    exact h.reduced.arrange_injective (h.isSolution_iff.1 hx).1 (h.isSolution_iff.1 hx').1 heq
  · rintro y ⟨hres, hsolves⟩
    obtain ⟨x, -, hlen, rfl⟩ := h.reduced.unpermute_ok hres.length_eq
    exact ⟨x, h.isSolution_iff.2 ⟨hlen, hres, hsolves⟩, rfl⟩

theorem WorkingForm.solutionCount_eq (h : WorkingForm ring matrix n t) {x : List Int}
    (hx : IsSolution ring.modulus n matrix x) :
    solutionCount ring.modulus n matrix = Nat.card t.kernel := by
  have hy : t.arrange x ∈ t.columnSolutions := (h.isSolution_iff.1 hx).2
  calc solutionCount ring.modulus n matrix
      = Set.ncard {x | IsSolution ring.modulus n matrix x} := (ncard_isSolution _ _ _).symm
    _ = t.columnSolutions.ncard := h.bijOn_arrange.ncard_eq
    _ = (t.kernel : Set (Fin t.unknowns → ZMod t.ring.modulus)).ncard :=
        (h.reduced.bijOn_shift hy).ncard_eq.symm
    _ = Nat.card t.kernel := rfl

/-! ## The first rows -/

def coefficients (t : Tableau) (count : Nat) :
    Matrix (Fin count) (Fin t.unknowns) (ZMod t.ring.modulus) :=
  Matrix.of fun r c => (t.valueAt ⟨r, c⟩ : ZMod t.ring.modulus)

theorem mem_kernel_iff_mulVec {count : Nat} (hempty : ∀ r, count ≤ r → ¬t.Filled r)
    {z : Fin t.unknowns → ZMod t.ring.modulus} :
    z ∈ t.kernel ↔ (t.coefficients count).mulVec z = 0 := by
  rw [mem_kernel]
  constructor
  · intro hz
    funext r
    exact hz r
  · intro hz r
    by_cases hr : r < count
    · exact congrFun hz ⟨r, hr⟩
    · apply Finset.sum_eq_zero
      intro c _
      have hzero : t.valueAt ⟨r, c⟩ = 0 := by
        by_contra hne
        exact hempty r (Nat.le_of_not_lt hr) ⟨c, c.isLt, hne⟩
      rw [hzero, Int.cast_zero, zero_mul]

theorem card_kernel_eq_card_ker {count : Nat} (hempty : ∀ r, count ≤ r → ¬t.Filled r) :
    Nat.card t.kernel = Nat.card (LinearMap.ker (t.coefficients count).mulVecLin) := by
  have hkernel : (t.kernel : Set (Fin t.unknowns → ZMod t.ring.modulus)) =
      LinearMap.ker (t.coefficients count).mulVecLin := by
    ext z
    exact mem_kernel_iff_mulVec hempty
  exact Nat.card_congr (Equiv.setCongr hkernel)

/-- Fewer rows than unknowns leave at least the vectors of the missing rows in the kernel. -/
theorem Reduced.pow_dvd_card_kernel (h : t.Reduced) {count : Nat} (hcount : count ≤ t.unknowns)
    (hempty : ∀ r, count ≤ r → ¬t.Filled r) :
    t.ring.modulus ^ (t.unknowns - count) ∣ Nat.card t.kernel := by
  have hdvd := ResidueRing.card_dvd_card_ker_mul_card
    (t.coefficients count).mulVecLin.toAddMonoidHom
  have hker : Nat.card (t.coefficients count).mulVecLin.toAddMonoidHom.ker =
      Nat.card t.kernel := (card_kernel_eq_card_ker hempty).symm
  rw [hker, Nat.card_fun, Nat.card_fun, Nat.card_zmod, Nat.card_fin, Nat.card_fin,
    ← pow_sub_mul_pow t.ring.modulus hcount] at hdvd
  exact Nat.dvd_of_mul_dvd_mul_right (pow_pos h.valid.1 count) hdvd

/-! ## Cleared columns -/

theorem isUpperTriangular_coefficients (hcleared : t.Cleared t.unknowns) :
    (t.coefficients t.unknowns).IsUpperTriangular := by
  intro r c hlt
  have hzero := hcleared c c.isLt r hlt
  unfold coefficients
  rw [Matrix.of_apply, hzero, Int.cast_zero]

theorem Reduced.card_kernel_dvd (h : t.Reduced) (hcleared : t.Cleared t.unknowns) :
    Nat.card t.kernel ∣ ∏ c ∈ Finset.range t.unknowns, t.gcdOf ⟨c, c⟩ := by
  have : NeZero t.ring.modulus := ⟨Nat.ne_of_gt h.valid.1⟩
  have hdvd := ResidueRing.card_ker_dvd (isUpperTriangular_coefficients hcleared)
  rw [card_kernel_eq_card_ker fun r => hcleared.not_filled, Finset.prod_range]
  simpa only [coefficients, Matrix.of_apply, ResidueRing.card_ker_mulLeft, gcdOf] using hdvd

end Tableau

end LinearCongruence
