import LinearCongruence.Refusal
import Mathlib.Data.List.Forall2
/-!
# Running checked computations

A computation that succeeds is followed through its binds, folds and maps. A loop is proved
to succeed together with its invariant: `foldlM_ok` for an invariant of the elements seen so
far, `foldlM_range'_ok` for one of the index. Two runs of one computation are compared by
`Alike`: they fail alike, or their results are related.
-/

namespace LinearCongruence.Checked

variable {ε α β : Type}

@[simp] theorem ok_bind (x : α) (f : α → Except ε β) : (Except.ok x >>= f) = f x := rfl

@[simp] theorem error_bind (e : ε) (f : α → Except ε β) :
    (Except.error e >>= f) = .error e := rfl

@[simp] theorem lift_ok (x : α) : (liftM (Except.ok x : Checked α) : Outcome α) = .ok x := rfl

@[simp] theorem lift_error (fault : Fault) :
    (liftM (Except.error fault : Checked α) : Outcome α) = .error (.fault fault) := rfl

@[simp] theorem lift_refusal_ok (x : α) :
    (liftM (Except.ok x : Except Refusal α) : Outcome α) = .ok x := rfl

@[simp] theorem lift_refusal_error (e : Refusal) :
    (liftM (Except.error e : Except Refusal α) : Outcome α) = .error (.refused e) := rfl

theorem bind_eq_ok {x : Except ε α} {f : α → Except ε β} {b : β} :
    (x >>= f) = .ok b ↔ ∃ a, x = .ok a ∧ f a = .ok b := by
  cases x <;> simp

theorem lift_eq_ok {x : Checked α} {a : α} :
    (liftM x : Outcome α) = .ok a ↔ x = .ok a := by
  cases x with
  | ok b => rw [lift_ok, Except.ok.injEq, Except.ok.injEq]
  | error fault => exact iff_of_false nofun nofun

/-- A fold succeeds where each step, from a state that the elements seen so far allow, leads
to one that the next element allows. -/
theorem foldlM_ok {f : β → α → Except ε β} {l : List α} {b : β} (P : List α → β → Prop)
    (start : P [] b)
    (step : ∀ seen x rest, l = seen ++ x :: rest → ∀ b, P seen b →
      ∃ b', f b x = .ok b' ∧ P (seen ++ [x]) b') :
    ∃ b', l.foldlM f b = .ok b' ∧ P l b' := by
  suffices h : ∀ rest seen, l = seen ++ rest → ∀ b, P seen b →
      ∃ b', rest.foldlM f b = .ok b' ∧ P l b' from h l [] rfl b start
  intro rest
  induction rest with
  | nil =>
      intro seen hl b hb
      rw [List.append_nil] at hl
      exact ⟨b, rfl, hl ▸ hb⟩
  | cons x rest ih =>
      intro seen hl b hb
      obtain ⟨b', hf, hb'⟩ := step seen x rest hl b hb
      rw [List.foldlM_cons, hf, ok_bind]
      exact ih (seen ++ [x]) (by simp [hl]) b' hb'

theorem foldlM_range'_ok {f : β → Nat → Except ε β} {i n : Nat} {b : β} (P : Nat → β → Prop)
    (start : P i b)
    (step : ∀ k, i ≤ k → k < i + n → ∀ b, P k b → ∃ b', f b k = .ok b' ∧ P (k + 1) b') :
    ∃ b', (List.range' i n).foldlM f b = .ok b' ∧ P (i + n) b' := by
  induction n generalizing i b with
  | zero => exact ⟨b, rfl, start⟩
  | succ n ih =>
      obtain ⟨b', hf, hb'⟩ := step i (Nat.le_refl _) (by omega) b start
      rw [List.range'_succ, List.foldlM_cons, hf, ok_bind]
      have h := ih hb' fun k hk hlt => step k (by omega) (by omega)
      rwa [show i + 1 + n = i + (n + 1) by omega] at h

theorem mapM_ok {f : α → Except ε β} {l : List α} (R : α → β → Prop)
    (h : ∀ x ∈ l, ∃ y, f x = .ok y ∧ R x y) :
    ∃ ys, l.mapM f = .ok ys ∧ List.Forall₂ R l ys := by
  induction l with
  | nil => exact ⟨[], rfl, .nil⟩
  | cons x l ih =>
      obtain ⟨y, hf, hy⟩ := h x (by simp)
      obtain ⟨ys, hmap, hys⟩ := ih fun z hz => h z (by simp [hz])
      refine ⟨y :: ys, ?_, .cons hy hys⟩
      rw [List.mapM_cons, hf, ok_bind, hmap]
      rfl

theorem mapM_ok_or_error {f : α → Except ε β} {e : ε} {l : List α}
    (hf : ∀ x ∈ l, (∃ y, f x = .ok y) ∨ f x = .error e) :
    (∃ ys, l.mapM f = .ok ys) ∧ (∀ x ∈ l, ∃ y, f x = .ok y) ∨ l.mapM f = .error e := by
  induction l with
  | nil => exact .inl ⟨⟨[], rfl⟩, nofun⟩
  | cons x l ih =>
      rw [List.mapM_cons]
      rcases hf x (by simp) with hx | hx
      · obtain ⟨y, hy⟩ := hx
        rw [hy, ok_bind]
        rcases ih fun z hz => hf z (by simp [hz]) with ⟨⟨ys, hys⟩, hall⟩ | hys
        · rw [hys]
          exact .inl ⟨⟨y :: ys, rfl⟩, List.forall_mem_cons.2 ⟨⟨y, hy⟩, hall⟩⟩
        · rw [hys]
          exact .inr rfl
      · rw [hx]
        exact .inr rfl

theorem mapM_eq_error {f : α → Except ε β} {e : ε} {l : List α} {x : α}
    (hf : ∀ y ∈ l, (∃ z, f y = .ok z) ∨ f y = .error e) (hx : x ∈ l) (herror : f x = .error e) :
    l.mapM f = .error e := by
  apply (mapM_ok_or_error hf).resolve_left
  rintro ⟨-, hall⟩
  obtain ⟨y, hy⟩ := hall x hx
  cases hy.symm.trans herror

theorem exists_of_forall₂_left {R : α → β → Prop} {xs : List α} {ys : List β}
    (h : List.Forall₂ R xs ys) {x : α} (hx : x ∈ xs) : ∃ y ∈ ys, R x y := by
  induction h with
  | nil => cases hx
  | cons hR _ ih =>
      rcases List.mem_cons.1 hx with rfl | hx
      · exact ⟨_, by simp, hR⟩
      · obtain ⟨y, hy, hxy⟩ := ih hx
        exact ⟨y, by simp [hy], hxy⟩

theorem exists_of_forall₂_right {R : α → β → Prop} {xs : List α} {ys : List β}
    (h : List.Forall₂ R xs ys) {y : β} (hy : y ∈ ys) : ∃ x ∈ xs, R x y :=
  exists_of_forall₂_left (R := flip R) h.flip hy

theorem map_eq_of_forall₂ {γ : Type} {R : α → β → Prop} {f : α → γ} {g : β → γ} {xs : List α}
    {ys : List β} (h : List.Forall₂ R xs ys) (hfg : ∀ x y, R x y → f x = g y) :
    xs.map f = ys.map g := by
  induction h with
  | nil => rfl
  | cons hxy _ ih => rw [List.map_cons, List.map_cons, hfg _ _ hxy, ih]

theorem findM?_ok {p : α → Checked Bool} {q : α → Bool} {xs : List α}
    (h : ∀ x ∈ xs, p x = .ok (q x)) : xs.findM? p = .ok (xs.find? q) := by
  induction xs with
  | nil => rfl
  | cons x xs ih =>
      rw [List.findM?, h x (by simp), ok_bind, ih fun y hy => h y (by simp [hy]),
        List.find?_cons]
      cases q x <;> rfl

/-! ## Two computations -/

theorem foldlM_congr {f g : β → α → Except ε β} {l : List α} (h : ∀ x ∈ l, ∀ b, f b x = g b x)
    (b : β) : l.foldlM f b = l.foldlM g b := by
  induction l generalizing b with
  | nil => rfl
  | cons x l ih =>
      rw [List.foldlM_cons, List.foldlM_cons, h x (by simp)]
      exact bind_congr fun b' => ih (fun y hy => h y (by simp [hy])) b'

theorem findM?_congr {p q : α → Checked Bool} {xs : List α} (h : ∀ x ∈ xs, p x = q x) :
    xs.findM? p = xs.findM? q := by
  induction xs with
  | nil => rfl
  | cons x xs ih =>
      rw [List.findM?, List.findM?, h x (by simp), ih fun y hy => h y (by simp [hy])]

/-- Both computations fail in the same way, or both succeed with related results. -/
inductive Alike (R : α → β → Prop) : Except ε α → Except ε β → Prop
  | ok {x : α} {y : β} (h : R x y) : Alike R (.ok x) (.ok y)
  | error (e : ε) : Alike R (.error e) (.error e)

namespace Alike

variable {γ δ : Type} {R : α → β → Prop} {S : γ → δ → Prop}

theorem refl (x : Except ε α) : Alike Eq x x := by
  cases x with
  | error e => exact .error e
  | ok x => exact .ok rfl

theorem bind {x : Except ε α} {y : Except ε β} {f : α → Except ε γ} {g : β → Except ε δ}
    (h : Alike R x y) (hfg : ∀ a b, R a b → Alike S (f a) (g b)) :
    Alike S (x >>= f) (y >>= g) := by
  cases h with
  | ok h => exact hfg _ _ h
  | error e => exact .error e

/-- A computation whose result both go on with. -/
theorem bind_self (x : Except ε α) {f : α → Except ε γ} {g : α → Except ε δ}
    (hfg : ∀ a, Alike S (f a) (g a)) : Alike S (x >>= f) (x >>= g) :=
  (refl x).bind fun a _ heq => heq ▸ hfg a

theorem foldlM {f : γ → α → Except ε γ} {g : δ → α → Except ε δ} {l : List α}
    (step : ∀ x ∈ l, ∀ b c, S b c → Alike S (f b x) (g c x)) {b : γ} {c : δ} (start : S b c) :
    Alike S (l.foldlM f b) (l.foldlM g c) := by
  induction l generalizing b c with
  | nil => exact .ok start
  | cons x l ih =>
      rw [List.foldlM_cons, List.foldlM_cons]
      exact (step x (by simp) b c start).bind fun _ _ => ih fun y hy => step y (by simp [hy])

theorem exists_ok {x : α} {y : Except ε β} (h : Alike R (.ok x) y) : ∃ b, y = .ok b ∧ R x b := by
  cases h with
  | ok h => exact ⟨_, rfl, h⟩

end Alike

end LinearCongruence.Checked
