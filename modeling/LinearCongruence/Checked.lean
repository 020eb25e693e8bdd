/-!
# Checked computations

A computation on machine words and lists either yields a value or stops at a fault. List
access is checked here once, so that a fault is the only way in which an index can go wrong.
-/

namespace LinearCongruence

/-- Why a checked computation stops. -/
inductive Fault where
  | overflow
  | divisionByZero
  | indexOutOfRange
  deriving DecidableEq

/-- A computation that may stop at a fault. -/
abbrev Checked := Except Fault

namespace Checked

variable {α β : Type}

def nth (xs : List α) (i : Nat) : Checked α :=
  match xs[i]? with
  | some x => pure x
  | none => throw .indexOutOfRange

/-- The list with `x` in place of the element at position `i`. -/
def setAt (xs : List α) (i : Nat) (x : α) : Checked (List α) :=
  if i < xs.length then pure (xs.set i x) else throw .indexOutOfRange

/-- The list with two elements exchanged; both positions are checked, also when they are
equal. -/
def swapAt (xs : List α) (a b : Nat) : Checked (List α) := do
  let x ← nth xs a
  let y ← nth xs b
  pure ((xs.set a y).set b x)

theorem nth_of_getElem? {xs : List α} {i : Nat} {x : α} (h : xs[i]? = some x) :
    nth xs i = .ok x := by
  rw [nth, h]
  rfl

theorem setAt_of_lt {xs : List α} {i : Nat} (x : α) (h : i < xs.length) :
    setAt xs i x = .ok (xs.set i x) := by
  rw [setAt, if_pos h]
  rfl

theorem swapAt_of_getElem? {xs : List α} {a b : Nat} {x y : α} (hx : xs[a]? = some x)
    (hy : xs[b]? = some y) : swapAt xs a b = .ok ((xs.set a y).set b x) := by
  rw [swapAt, nth_of_getElem? hx, nth_of_getElem? hy]
  rfl

theorem mapM_eq_ok_map {f : α → Checked β} {g : α → β} {xs : List α}
    (h : ∀ x ∈ xs, f x = .ok (g x)) : xs.mapM f = .ok (xs.map g) := by
  induction xs with
  | nil => rfl
  | cons x xs ih =>
    rw [List.mapM_cons, h x (by simp), ih fun y hy => h y (by simp [hy])]
    rfl

theorem foldlM_eq_ok_foldl {f : β → α → Checked β} {g : β → α → β} {xs : List α} (b : β)
    (h : ∀ b, ∀ x ∈ xs, f b x = .ok (g b x)) : xs.foldlM f b = .ok (xs.foldl g b) := by
  induction xs generalizing b with
  | nil => rfl
  | cons x xs ih =>
    rw [List.foldlM_cons, h b x (by simp)]
    exact ih (g b x) fun c y hy => h c y (by simp [hy])

end Checked

end LinearCongruence
