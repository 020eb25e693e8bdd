import LinearCongruence.Proofs.Tableau.System
/-!
# Vectors over the columns and over the unknowns

The order of the unknowns is a bijection, so that arranging a vector loses nothing, and what
`unpermute` returns is the one vector whose arrangement it was given.
-/

namespace LinearCongruence.Tableau

open Augmented

variable {t : Tableau}

theorem foldlM_setAt_ok {writes : List (Nat × Int)} (xs : List Int)
    (hnodup : (writes.map Prod.fst).Nodup) (hlt : ∀ w ∈ writes, w.1 < xs.length) :
    ∃ ys, writes.foldlM (fun ys w => Checked.setAt ys w.1 w.2) xs = .ok ys ∧
      ys.length = xs.length ∧ (∀ w ∈ writes, ys[w.1]? = some w.2) ∧
      ∀ k, k ∉ writes.map Prod.fst → ys[k]? = xs[k]? := by
  induction writes generalizing xs with
  | nil => exact ⟨xs, rfl, rfl, by simp, fun _ _ => rfl⟩
  | cons w writes ih =>
      rw [List.map_cons, List.nodup_cons] at hnodup
      have hw := hlt w (by simp)
      obtain ⟨ys, hfold, hlen, hget, hother⟩ := ih (xs.set w.1 w.2) hnodup.2 fun w' hw' => by
        rw [List.length_set]
        exact hlt w' (by simp [hw'])
      refine ⟨ys, ?_, hlen.trans List.length_set, ?_, ?_⟩
      · rw [List.foldlM_cons, Checked.setAt_of_lt _ hw, Checked.ok_bind, hfold]
      · intro w' hw'
        rcases List.mem_cons.1 hw' with rfl | hw'
        · rw [hother _ hnodup.1, List.getElem?_set_self hw]
        · exact hget w' hw'
      · intro k hk
        rw [List.map_cons, List.mem_cons, not_or] at hk
        rw [hother k hk.2, List.getElem?_set_ne (Ne.symm hk.1)]

theorem Reduced.order_lt (h : t.Reduced) {unknown : Nat} (hmem : unknown ∈ t.order) :
    unknown < t.unknowns :=
  List.mem_range.1 (h.order_perm.mem_iff.1 hmem)

theorem Reduced.nodup_order (h : t.Reduced) : t.order.Nodup :=
  h.order_perm.nodup_iff.2 List.nodup_range

theorem Reduced.exists_column (h : t.Reduced) {k : Nat} (hlt : k < t.unknowns) :
    ∃ c, c < t.unknowns ∧ t.order[c]? = some k := by
  have hmem : k ∈ t.order := h.order_perm.mem_iff.2 (List.mem_range.2 hlt)
  obtain ⟨c, hc, hget⟩ := List.getElem_of_mem hmem
  exact ⟨c, by rwa [← h.length_order], by rw [List.getElem?_eq_getElem hc, hget]⟩

theorem getElem?_arrange {x : List Int} {c unknown : Nat} (hc : t.order[c]? = some unknown) :
    (t.arrange x)[c]? = some (x[unknown]?.getD 0) := by
  unfold arrange
  rw [List.getElem?_map, hc]
  rfl

theorem Reduced.unpermute_ok (h : t.Reduced) {y : List Int} (hy : y.length = t.unknowns) :
    ∃ x, t.unpermute y = .ok x ∧ x.length = t.unknowns ∧ t.arrange x = y := by
  have hlen := h.length_order
  have hkeys : (t.order.zip y).map Prod.fst = t.order :=
    List.map_fst_zip (by omega)
  obtain ⟨x, hfold, hxlen, hget, -⟩ := foldlM_setAt_ok
    (List.replicate y.length 0) (hkeys.symm ▸ h.nodup_order) (by
      intro w hw
      rw [List.length_replicate, hy]
      exact h.order_lt (List.of_mem_zip hw).1)
  refine ⟨x, hfold, by rw [hxlen, List.length_replicate, hy], ?_⟩
  apply List.ext_getElem?
  intro c
  by_cases hc : c < t.unknowns
  · have horder : c < t.order.length := by omega
    have hyc : c < y.length := by omega
    have hmem : (t.order[c], y[c]) ∈ t.order.zip y := by
      rw [← List.getElem_zip (h := by simp; omega)]
      exact List.getElem_mem _
    rw [getElem?_arrange (List.getElem?_eq_getElem horder), hget _ hmem,
      List.getElem?_eq_getElem hyc]
    rfl
  · rw [List.getElem?_eq_none (by rw [h.length_arrange]; omega),
      List.getElem?_eq_none (by omega)]

theorem Reduced.arrange_injective (h : t.Reduced) {x x' : List Int}
    (hx : x.length = t.unknowns) (hx' : x'.length = t.unknowns)
    (heq : t.arrange x = t.arrange x') : x = x' := by
  apply List.ext_getElem (hx.trans hx'.symm)
  intro unknown hlt hlt'
  obtain ⟨c, -, hc⟩ := h.exists_column (k := unknown) (by omega)
  have hget := congrArg (·[c]?) heq
  simpa [getElem?_arrange hc, hlt, hlt'] using hget

theorem Reduced.isResidues_arrange_iff (h : t.Reduced) {x : List Int}
    (hx : x.length = t.unknowns) :
    IsResidues t.ring.modulus t.unknowns (t.arrange x) ↔
      IsResidues t.ring.modulus t.unknowns x := by
  constructor
  · intro hres
    refine ⟨hx, ?_⟩
    intro v hv
    obtain ⟨unknown, hlt, rfl⟩ := List.getElem_of_mem hv
    obtain ⟨c, -, hc⟩ := h.exists_column (k := unknown) (by omega)
    have hget := getElem?_arrange (x := x) hc
    rw [List.getElem?_eq_getElem hlt, Option.getD_some] at hget
    exact hres.range _ (List.mem_of_getElem? hget)
  · intro hres
    refine ⟨h.length_arrange x, ?_⟩
    intro v hv
    obtain ⟨unknown, hmem, rfl⟩ := List.mem_map.1 hv
    have hlt : unknown < x.length := hx.symm ▸ h.order_lt hmem
    rw [List.getElem?_eq_getElem hlt]
    exact hres.range _ (List.getElem_mem hlt)

end LinearCongruence.Tableau
