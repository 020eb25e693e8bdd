import LinearCongruence.Augmented.Solution
import LinearCongruence.Proofs.Checked
import LinearCongruence.ResidueRing.Lemmas
import Mathlib.Data.Int.ModEq
/-!
# Residuals of a vector

Adding the terms of an equation one by one, each as a residue, comes to the residue of the exact
sum, so that a vector is checked against a system without any number that leaves the words. Only
the classes of the entries and the lengths of the rows matter. Main facts:

* `rowResidual_of_valid` : the residual of one equation;
* `holds_congr` : congruent rows hold at congruent vectors alike;
* `shape_congr`, `exists_text_of_shape_error` : a shape depends on lengths alone;
* `residuals_exact` : residuals and satisfaction of a whole system.
-/

namespace LinearCongruence.Augmented

variable {ring : ResidueRing} {modulus : Nat} {matrix matrix' : Augmented}
  {row row' x x' : List Int}

/-! ## Shapes -/

theorem map_find?_zipIdx_length (matrix : Augmented) (length : Nat) :
    (matrix.zipIdx.find? fun p => p.1.length ≠ length).map (Prod.map List.length id) =
      (matrix.map List.length).zipIdx.find? fun p => p.1 ≠ length := by
  rw [List.zipIdx_map, List.find?_map]
  rfl

theorem shape_congr (h : matrix.map List.length = matrix'.map List.length) :
    matrix.shape = matrix'.shape := by
  cases matrix with
  | nil => rw [List.map_eq_nil_iff.1 h.symm]
  | cons first rest =>
      cases matrix' with
      | nil => cases h
      | cons first' rest' =>
          have hfirst : first.length = first'.length := (List.cons.inj h).1
          have hrest : rest.length = rest'.length := by simpa using congrArg List.length h
          have hfind := map_find?_zipIdx_length (first :: rest) first.length
          rw [h, ← map_find?_zipIdx_length (first' :: rest') first.length] at hfind
          rw [shape, shape, ← hfirst]
          generalize (first :: rest).zipIdx.find? _ = found at hfind ⊢
          generalize (first' :: rest').zipIdx.find? _ = found' at hfind ⊢
          rcases found with _ | ⟨row, i⟩ <;> rcases found' with _ | ⟨row', i'⟩
          · simp [hrest]
          · cases hfind
          · cases hfind
          · obtain ⟨hlength, hindex⟩ : row.length = row'.length ∧ i = i' := by simpa using hfind
            simp only [hlength, hindex]

theorem exists_text_of_shape_error {e : Refusal} (h : matrix.shape = .error e) :
    ∃ text, e = .dimensionMismatch text := by
  cases matrix with
  | nil =>
      cases h
      exact ⟨_, rfl⟩
  | cons first rest =>
      rw [shape] at h
      split at h
      · cases h
        exact ⟨_, rfl⟩
      · split at h
        · cases h
          exact ⟨_, rfl⟩
        · cases h

/-! ## Congruent entries -/

theorem dot_modEq (hrow : List.Forall₂ (Int.ModEq modulus) row row')
    (hx : List.Forall₂ (Int.ModEq modulus) x x') : dot row x ≡ dot row' x' [ZMOD modulus] := by
  induction hrow generalizing x x' with
  | nil => exact .refl _
  | cons ha _ ih =>
      cases hx with
      | nil => exact .refl _
      | cons hv hx => exact (ha.mul hv).add (ih hx)

theorem getLastD_modEq {a a' : Int} (hrow : List.Forall₂ (Int.ModEq modulus) row row')
    (ha : a ≡ a' [ZMOD modulus]) : row.getLastD a ≡ row'.getLastD a' [ZMOD modulus] := by
  induction hrow generalizing a a' with
  | nil => exact ha
  | cons hv _ ih =>
      rw [List.getLastD_cons, List.getLastD_cons]
      exact ih hv

theorem residual_modEq (hrow : List.Forall₂ (Int.ModEq modulus) row row')
    (hx : List.Forall₂ (Int.ModEq modulus) x x') :
    dot row x - row.getLastD 0 ≡ dot row' x' - row'.getLastD 0 [ZMOD modulus] :=
  (dot_modEq hrow hx).sub (getLastD_modEq hrow (.refl 0))

theorem holds_congr (hrow : List.Forall₂ (Int.ModEq modulus) row row')
    (hx : List.Forall₂ (Int.ModEq modulus) x x') : Holds modulus row x ↔ Holds modulus row' x' := by
  unfold Holds
  rw [← Int.modEq_zero_iff_dvd, ← Int.modEq_zero_iff_dvd]
  have hresidual := residual_modEq hrow hx
  exact ⟨hresidual.symm.trans, hresidual.trans⟩

theorem forall₂_modEq_emod (modulus : Nat) (row : List Int) :
    List.Forall₂ (Int.ModEq modulus) (row.map (· % (modulus : Int))) row := by
  rw [List.forall₂_map_left_iff, List.forall₂_same]
  exact fun v _ => Int.mod_modEq v modulus

theorem forall₂_modEq_refl (modulus : Nat) (row : List Int) :
    List.Forall₂ (Int.ModEq modulus) row row :=
  List.forall₂_same.2 fun v _ => Int.ModEq.refl v

theorem holds_emod_iff (modulus : Nat) (row x : List Int) :
    Holds modulus (row.map (· % (modulus : Int))) x ↔ Holds modulus row x :=
  holds_congr (forall₂_modEq_emod modulus row) (forall₂_modEq_refl modulus x)

theorem mapM_residue_of_valid (h : ring.Valid) (row : List Int) :
    row.mapM ring.residue = .ok (row.map (· % (ring.modulus : Int))) :=
  Checked.mapM_eq_ok_map fun v _ => ResidueRing.residue_of_valid h v

theorem reduce_of_valid (h : ring.Valid) (matrix : Augmented) :
    matrix.reduce ring = .ok (matrix.map fun row => row.map (· % (ring.modulus : Int))) :=
  Checked.mapM_eq_ok_map fun row _ => mapM_residue_of_valid h row

/-! ## Residuals -/

theorem foldl_modEq_dot (modulus : Nat) (row x : List Int) (sum : Int) :
    (row.zip x).foldl (fun sum p => (sum + p.1 * p.2 % modulus) % (modulus : Int)) sum ≡
      sum + dot row x [ZMOD modulus] := by
  induction row generalizing x sum with
  | nil => simp [dot]
  | cons a row ih =>
      cases x with
      | nil => simp [dot]
      | cons v x =>
          have hstep : (sum + a * v % modulus) % modulus ≡ sum + a * v [ZMOD modulus] :=
            (Int.mod_modEq _ _).trans ((Int.mod_modEq (a * v) modulus).add_left sum)
          rw [List.zip_cons_cons, List.foldl_cons, dot, ← Int.add_assoc]
          exact (ih x _).trans (hstep.add_right _)

theorem getElem?_eq_getLastD {n : Nat} (hlength : row.length = n + 1) :
    row[n]? = some (row.getLastD 0) := by
  have hlt : n < row.length := by omega
  rw [List.getLastD_eq_getLast?, List.getLast?_eq_getElem?, hlength, Nat.add_sub_cancel,
    List.getElem?_eq_getElem hlt, Option.getD_some]

theorem rowResidual_of_valid (h : ring.Valid) (hrow : row.length = x.length + 1) :
    rowResidual ring x row = .ok ((dot row x - row.getLastD 0) % ring.modulus) := by
  have hsum := foldl_modEq_dot ring.modulus row x 0
  rw [Int.zero_add] at hsum
  unfold rowResidual
  rw [Checked.foldlM_eq_ok_foldl
    (g := fun sum p => (sum + p.1 * p.2 % ring.modulus) % (ring.modulus : Int)) 0]
  · rw [Checked.ok_bind, Checked.nth_of_getElem? (getElem?_eq_getLastD hrow), Checked.ok_bind,
      ResidueRing.sub_of_valid h]
    exact congrArg Except.ok (hsum.sub_right _)
  · rintro sum ⟨a, v⟩ -
    dsimp only
    rw [ResidueRing.mul_of_valid h, Checked.ok_bind, ResidueRing.add_of_valid h]

theorem residuals_of_wellFormed (h : ring.Valid) (hmatrix : WellFormed matrix x.length) :
    residuals ring matrix x =
      .ok (matrix.map fun row => (dot row x - row.getLastD 0) % ring.modulus) := by
  have hrows : matrix.mapM (rowResidual ring x) =
      .ok (matrix.map fun row => (dot row x - row.getLastD 0) % ring.modulus) :=
    Checked.mapM_eq_ok_map fun row hrow => rowResidual_of_valid h (hmatrix.length_eq row hrow)
  unfold residuals
  rw [shape_of_wellFormed hmatrix, Checked.lift_refusal_ok, Checked.ok_bind,
    if_neg (not_not.2 rfl), hrows]
  rfl

theorem residuals_of_shape {shape : Shape} (hshape : matrix.shape = .ok shape)
    (hlength : x.length ≠ shape.unknowns) :
    residuals ring matrix x = .error (.refused (.vectorLength shape.unknowns x.length)) := by
  unfold residuals
  rw [hshape, Checked.lift_refusal_ok, Checked.ok_bind, if_pos hlength]
  rfl

theorem residuals_of_shape_error {e : Refusal} (hshape : matrix.shape = .error e) :
    residuals ring matrix x = .error (.refused e) := by
  rw [residuals, hshape]
  rfl

theorem residuals_of_not_wellFormed (ring : ResidueRing)
    (hmatrix : ¬WellFormed matrix x.length) :
    ∃ text, residuals ring matrix x = .error (.refused (.dimensionMismatch text)) := by
  cases hshape : matrix.shape with
  | error e =>
      obtain ⟨text, rfl⟩ := exists_text_of_shape_error hshape
      exact ⟨text, residuals_of_shape_error hshape⟩
  | ok shape =>
      have hlength : x.length ≠ shape.unknowns := by
        intro hlength
        exact hmatrix (hlength ▸ (wellFormed_of_shape hshape).2)
      exact ⟨_, residuals_of_shape hshape hlength⟩

theorem residuals_congr (h : ring.Valid)
    (hmatrix : List.Forall₂ (List.Forall₂ (Int.ModEq ring.modulus)) matrix matrix')
    (hx : List.Forall₂ (Int.ModEq ring.modulus) x x') :
    residuals ring matrix x = residuals ring matrix' x' := by
  have hshapes : matrix.shape = matrix'.shape :=
    shape_congr (Checked.map_eq_of_forall₂ hmatrix fun _ _ hrow => hrow.length_eq)
  cases hshape : matrix.shape with
  | error e =>
      rw [residuals_of_shape_error hshape, residuals_of_shape_error (hshapes ▸ hshape)]
  | ok shape =>
      have hshape' : matrix'.shape = .ok shape := hshapes ▸ hshape
      by_cases hlength : x.length = shape.unknowns
      · have hwell : WellFormed matrix x.length := hlength ▸ (wellFormed_of_shape hshape).2
        have hwell' : WellFormed matrix' x'.length :=
          hx.length_eq ▸ hlength ▸ (wellFormed_of_shape hshape').2
        rw [residuals_of_wellFormed h hwell, residuals_of_wellFormed h hwell']
        exact congrArg Except.ok
          (Checked.map_eq_of_forall₂ hmatrix fun _ _ hrow => residual_modEq hrow hx)
      · rw [residuals_of_shape hshape hlength,
          residuals_of_shape hshape' (hx.length_eq ▸ hlength), hx.length_eq]

theorem solvedBy_eq (ring : ResidueRing) (matrix : Augmented) (x : List Int) :
    solvedBy ring matrix x = (residuals ring matrix x).map fun found => found.all (· = 0) := by
  unfold solvedBy
  cases residuals ring matrix x <;> rfl

/-- The residuals of a system are the residues of the exact differences of its two sides, and a
vector is found to satisfy it exactly where every equation holds. Congruent entries give the same
answer, and so do the residues of all entries; what is no system in as many unknowns as the vector
has entries is refused. -/
theorem residuals_exact (ring : ResidueRing) (h : ring.Valid) :
    (∀ (matrix : Augmented) (x : List Int), WellFormed matrix x.length →
      residuals ring matrix x =
        .ok (matrix.map fun row => (dot row x - row.getLastD 0) % ring.modulus) ∧
      ∃ solved, solvedBy ring matrix x = .ok solved ∧
        (solved = true ↔ ∀ row ∈ matrix, Holds ring.modulus row x)) ∧
    (∀ (matrix matrix' : Augmented) (x x' : List Int),
      List.Forall₂ (List.Forall₂ (Int.ModEq ring.modulus)) matrix matrix' →
      List.Forall₂ (Int.ModEq ring.modulus) x x' →
      residuals ring matrix' x' = residuals ring matrix x ∧
        solvedBy ring matrix' x' = solvedBy ring matrix x) ∧
    (∀ (matrix : Augmented) (x : List Int), ∃ reduced residues,
      matrix.reduce ring = .ok reduced ∧ x.mapM ring.residue = .ok residues ∧
      residuals ring reduced residues = residuals ring matrix x ∧
      solvedBy ring reduced residues = solvedBy ring matrix x) ∧
    ∀ (matrix : Augmented) (x : List Int), ¬WellFormed matrix x.length →
      ∃ text, residuals ring matrix x = .error (.refused (.dimensionMismatch text)) ∧
        solvedBy ring matrix x = .error (.refused (.dimensionMismatch text)) := by
  refine ⟨?_, ?_, ?_, ?_⟩
  · intro matrix x hmatrix
    have hresiduals := residuals_of_wellFormed h hmatrix
    refine ⟨hresiduals, _, by rw [solvedBy_eq, hresiduals]; rfl, ?_⟩
    simp only [List.all_map, List.all_eq_true, Function.comp_apply, decide_eq_true_eq, Holds,
      Int.dvd_iff_emod_eq_zero]
  · intro matrix matrix' x x' hmatrix hx
    have hresiduals := residuals_congr h hmatrix hx
    exact ⟨hresiduals.symm, by rw [solvedBy_eq, solvedBy_eq, hresiduals]⟩
  · intro matrix x
    have hmatrix : List.Forall₂ (List.Forall₂ (Int.ModEq ring.modulus))
        (matrix.map fun row => row.map (· % (ring.modulus : Int))) matrix := by
      rw [List.forall₂_map_left_iff, List.forall₂_same]
      exact fun row _ => forall₂_modEq_emod ring.modulus row
    have hresiduals := residuals_congr h hmatrix (forall₂_modEq_emod ring.modulus x)
    exact ⟨_, _, reduce_of_valid h matrix, mapM_residue_of_valid h x, hresiduals,
      by rw [solvedBy_eq, solvedBy_eq, hresiduals]⟩
  · intro matrix x hmatrix
    obtain ⟨text, hrefused⟩ := residuals_of_not_wellFormed ring hmatrix
    exact ⟨text, hrefused, by rw [solvedBy_eq, hrefused]; rfl⟩

theorem residuals_exact_mod_six :
    residuals ⟨6⟩ [[Word.greatest, 2, 4], [3, 0, 0]] [2, 3] = .ok [4, 0] ∧
      solvedBy ⟨6⟩ [[1, 2, 6], [3, 0, 0]] [Word.least, Word.greatest] = .ok true ∧
      ∃ text, residuals ⟨6⟩ [[1, 2, 5]] [1, 2, 3] =
        .error (.refused (.dimensionMismatch text)) := by
  obtain ⟨hexact, -, -, hrefused⟩ := residuals_exact ⟨6⟩ (by decide)
  refine ⟨?_, ?_, ?_⟩
  · exact (hexact _ _ ⟨by decide, by decide, by decide⟩).1
  · obtain ⟨-, solved, hsolved, hiff⟩ :=
      hexact [[1, 2, 6], [3, 0, 0]] [Word.least, Word.greatest] ⟨by decide, by decide, by decide⟩
    rw [hsolved, hiff.2 (by decide)]
  · obtain ⟨text, hresiduals, -⟩ := hrefused [[1, 2, 5]] [1, 2, 3] fun hwell =>
      absurd (hwell.length_eq [1, 2, 5] (by decide)) (by decide)
    exact ⟨text, hresiduals⟩

end LinearCongruence.Augmented
