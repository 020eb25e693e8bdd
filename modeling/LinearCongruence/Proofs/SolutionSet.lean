import LinearCongruence.SolutionSet
import Mathlib.Data.Set.Card
/-!
# Sets from lists of vectors

Sorting and removing repeats turns any list of vectors into the ascending list of its
elements.
-/

namespace LinearCongruence.SolutionSet

variable {x y : List Int} {l : List (List Int)}

theorem inOrder_iff : inOrder x y = true ↔ ¬y < x := by
  simp [inOrder]

theorem inOrder_trans (x y z : List Int) (hxy : inOrder x y) (hyz : inOrder y z) :
    inOrder x z := by
  rw [inOrder_iff] at hxy hyz ⊢
  exact List.le_trans hxy hyz

theorem inOrder_total (x y : List Int) : inOrder x y || inOrder y x := by
  rw [Bool.or_eq_true, inOrder_iff, inOrder_iff]
  exact List.le_total x y

theorem pairwise_mergeSort_inOrder (l : List (List Int)) :
    (l.mergeSort inOrder).Pairwise fun x y => ¬y < x := by
  have h := List.pairwise_mergeSort inOrder_trans inOrder_total l
  exact h.imp fun hxy => inOrder_iff.1 hxy

theorem mem_dropRepeats : x ∈ dropRepeats l ↔ x ∈ l := by
  fun_induction dropRepeats l with
  | case1 y rest ih => rw [ih]; simp
  | case2 y z rest hne ih => rw [List.mem_cons, ih, ← List.mem_cons]
  | case3 l hshort => rfl

theorem length_dropRepeats_le (l : List (List Int)) : (dropRepeats l).length ≤ l.length := by
  fun_induction dropRepeats l with
  | case1 y rest ih => exact Nat.le_trans ih (Nat.le_succ _)
  | case2 y z rest hne ih => exact Nat.succ_le_succ ih
  | case3 l hshort => exact Nat.le_refl _

theorem pairwise_dropRepeats (h : l.Pairwise fun x y => ¬y < x) :
    (dropRepeats l).Pairwise (· < ·) := by
  fun_induction dropRepeats l with
  | case1 y rest ih => exact ih (List.pairwise_cons.1 h).2
  | case2 y z rest hne ih =>
      obtain ⟨hy, hrest⟩ := List.pairwise_cons.1 h
      refine List.pairwise_cons.2 ⟨?_, ih hrest⟩
      intro x hx
      have hyz : y < z := (List.le_iff_lt_or_eq.1 (hy z (by simp))).resolve_right hne
      rcases List.mem_cons.1 (mem_dropRepeats.1 hx) with rfl | hx
      · exact hyz
      · have hzx := (List.pairwise_cons.1 hrest).1 x hx
        by_cases hyx : y < x
        · exact hyx
        · exact absurd (List.lt_of_le_of_lt hyx hyz) hzx
  | case3 l hshort =>
      match l, hshort with
      | [], _ => exact .nil
      | [x], _ => exact List.pairwise_singleton _ x
      | y :: z :: rest, hshort => exact absurd rfl (hshort y z rest)

theorem nodup_of_pairwise (h : l.Pairwise (· < ·)) : l.Nodup :=
  h.imp fun hlt => by
    rintro rfl
    exact List.lt_irrefl _ hlt

theorem eq_of_pairwise {l' : List (List Int)} (h : l.Pairwise (· < ·)) (h' : l'.Pairwise (· < ·))
    (hmem : ∀ y, y ∈ l ↔ y ∈ l') : l = l' := by
  have hperm :=
    (List.perm_ext_iff_of_nodup (nodup_of_pairwise h) (nodup_of_pairwise h')).2 hmem
  exact hperm.eq_of_pairwise (fun _ _ _ _ hlt hgt => absurd hgt (List.lt_asymm hlt)) h h'

theorem eq_singleton_of_pairwise (h : l.Pairwise (· < ·)) (hmem : ∀ y, y ∈ l ↔ y = x) :
    l = [x] :=
  eq_of_pairwise h (List.pairwise_singleton _ x) (by simpa using hmem)

/-- The search in an ascending list finds what the list holds, and nothing else. -/
theorem lookup_iff (h : l.Pairwise (· < ·)) : lookup x l = true ↔ x ∈ l := by
  induction l with
  | nil => simp [lookup]
  | cons y rest ih =>
      obtain ⟨hy, hrest⟩ := List.pairwise_cons.1 h
      rw [lookup, List.mem_cons]
      split
      · rename_i hlt
        have hne : x ≠ y := by
          rintro rfl
          exact List.lt_irrefl _ hlt
        rw [ih hrest, or_iff_right hne]
      · -- All that follows is greater than `y`, and so greater than `x`.
        rename_i hge
        have hnotin : x ∉ rest := fun hx => hge (hy x hx)
        rw [decide_eq_true_iff, or_iff_left hnotin]

theorem ncard_eq_length {α : Type} {p : α → Prop} {l : List α} (h : l.Nodup)
    (hmem : ∀ x, x ∈ l ↔ p x) : {x | p x}.ncard = l.length := by
  classical
  have hset : {x | p x} = ↑l.toFinset := by
    ext x
    rw [List.coe_toFinset, Set.mem_ofPred_eq, Set.mem_ofPred_eq, hmem]
  rw [hset, Set.ncard_coe_finset, List.toFinset_card_of_nodup h]

/-! ## The set of given vectors -/

variable (modulus multiplicity : Nat) (vectors : List (List Int))

theorem pairwise_ofVectors :
    (ofVectors modulus multiplicity vectors).solutions.Pairwise (· < ·) :=
  pairwise_dropRepeats (pairwise_mergeSort_inOrder vectors)

theorem mem_ofVectors : x ∈ (ofVectors modulus multiplicity vectors).solutions ↔ x ∈ vectors := by
  rw [ofVectors, mem_dropRepeats, List.mem_mergeSort]

theorem nodup_ofVectors : (ofVectors modulus multiplicity vectors).solutions.Nodup :=
  nodup_of_pairwise (pairwise_ofVectors modulus multiplicity vectors)

theorem size_ofVectors (hnodup : vectors.Nodup) :
    (ofVectors modulus multiplicity vectors).size = vectors.length := by
  have hperm := (List.perm_ext_iff_of_nodup (nodup_ofVectors modulus multiplicity vectors) hnodup).2
    fun _ => mem_ofVectors modulus multiplicity vectors
  exact hperm.length_eq

theorem size_ofVectors_eq_ncard :
    (ofVectors modulus multiplicity vectors).size = {x | x ∈ vectors}.ncard :=
  (ncard_eq_length (nodup_ofVectors modulus multiplicity vectors)
    fun _ => mem_ofVectors modulus multiplicity vectors).symm

theorem size_ofVectors_le : (ofVectors modulus multiplicity vectors).size ≤ vectors.length := by
  have hle := length_dropRepeats_le (vectors.mergeSort inOrder)
  rwa [List.length_mergeSort] at hle

theorem contains_ofVectors :
    (ofVectors modulus multiplicity vectors).contains x = true ↔ x ∈ vectors := by
  rw [contains, lookup_iff (pairwise_ofVectors modulus multiplicity vectors), mem_ofVectors]

theorem ofVectors_congr {others : List (List Int)} (hmem : ∀ x, x ∈ others ↔ x ∈ vectors) :
    ofVectors modulus multiplicity others = ofVectors modulus multiplicity vectors := by
  have hsolutions : (ofVectors modulus multiplicity others).solutions =
      (ofVectors modulus multiplicity vectors).solutions :=
    eq_of_pairwise (pairwise_ofVectors _ _ _) (pairwise_ofVectors _ _ _) fun x => by
      rw [mem_ofVectors, mem_ofVectors, hmem]
  exact congrArg (SolutionSet.mk modulus multiplicity) hsolutions

end LinearCongruence.SolutionSet
