import LinearCongruence.Checked
/-!
# Signed machine words

A word is a signed integer of 64 bits. Sums, differences, products and negations that leave
this range are faults. Division truncates toward zero; it faults at a zero divisor and where
the quotient is no word. Sums and products of words are also formed at double width.
-/

namespace LinearCongruence.Word

def least : Int := -0x8000000000000000

def greatest : Int := 0x7fffffffffffffff

/-- The integers that a word can hold. -/
def Fits (x : Int) : Prop := least ≤ x ∧ x ≤ greatest

instance (x : Int) : Decidable (Fits x) := inferInstanceAs (Decidable (_ ∧ _))

def greatestUnsigned : Nat := 0xffffffffffffffff

def leastWide : Int := -0x80000000000000000000000000000000

def greatestWide : Int := 0x7fffffffffffffffffffffffffffffff

/-- The exact result of an operation, where it is a word. -/
def checked (x : Int) : Checked Int :=
  if Fits x then pure x else throw .overflow

def wide (x : Int) : Checked Int :=
  if leastWide ≤ x ∧ x ≤ greatestWide then pure x else throw .overflow

/-- The word with the same low 64 bits. -/
def wrap (x : Int) : Int := if Fits x then x else x.bmod 0x10000000000000000

def add (a b : Int) : Checked Int := checked (a + b)

def sub (a b : Int) : Checked Int := checked (a - b)

def mul (a b : Int) : Checked Int := checked (a * b)

def neg (a : Int) : Checked Int := checked (-a)

/-- The absolute value; only that of the least word is no word. -/
def abs (a : Int) : Checked Int := checked a.natAbs

/-- Passes where `a` can be divided by `b`. -/
def checkDivision (a b : Int) : Checked Unit :=
  if b = 0 then throw .divisionByZero
  else if a = least ∧ b = -1 then throw .overflow
  else pure ()

/-- The quotient, truncated toward zero. -/
def quot (a b : Int) : Checked Int := do
  checkDivision a b
  pure (a.tdiv b)

/-- The remainder of truncated division; it has the sign of `a`. -/
def rem (a b : Int) : Checked Int := do
  checkDivision a b
  pure (a.tmod b)

def wideRem (a b : Int) : Checked Int :=
  if b = 0 then throw .divisionByZero
  else if a = leastWide ∧ b = -1 then throw .overflow
  else pure (a.tmod b)

theorem checked_of_fits {x : Int} (h : Fits x) : checked x = .ok x := by
  rw [checked, if_pos h]
  rfl

theorem checked_of_not_fits {x : Int} (h : ¬Fits x) : checked x = .error .overflow := by
  rw [checked, if_neg h]
  rfl

theorem fits_iff {x : Int} :
    Fits x ↔ -0x8000000000000000 ≤ x ∧ x ≤ 0x7fffffffffffffff := Iff.rfl

theorem wrap_of_fits {x : Int} (h : Fits x) : wrap x = x := if_pos h

theorem wrap_eq_bmod (x : Int) : wrap x = x.bmod 0x10000000000000000 := by
  rw [wrap]
  split
  · rename_i h
    rw [fits_iff] at h
    rw [Int.bmod_def]
    split <;> omega
  · rfl

theorem checkDivision_of_pos {a b : Int} (h : 0 < b) : checkDivision a b = .ok () := by
  rw [checkDivision, if_neg (by omega), if_neg (by omega)]
  rfl

theorem quot_of_pos {a b : Int} (h : 0 < b) : quot a b = .ok (a.tdiv b) := by
  rw [quot, checkDivision_of_pos h]
  rfl

theorem rem_of_pos {a b : Int} (h : 0 < b) : rem a b = .ok (a.tmod b) := by
  rw [rem, checkDivision_of_pos h]
  rfl

theorem wideRem_of_pos {a b : Int} (h : 0 < b) : wideRem a b = .ok (a.tmod b) := by
  rw [wideRem, if_neg (by omega), if_neg (by omega)]
  rfl

end LinearCongruence.Word
