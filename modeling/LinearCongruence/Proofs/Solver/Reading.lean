import LinearCongruence.Proofs.Json.RoundTrip
import LinearCongruence.Proofs.Solver.Safety
/-!
# Solvers that are read

A text gives a solver over any modulus that an unsigned word holds: reading does not ask whether
the modulus is valid, as the construction of a ring does. Over a valid modulus a solve never faults;
over the modulus zero it always does, and over a modulus that is no signed word it does where a
residue leaves the range of words. Main facts:

* `exists_text_iff` : the solvers that texts give;
* `solve_of_residue_fault` : what becomes of a residue that faults;
* `read_solver_validated_iff` : which of these solvers are safe, and how others fault.
-/

namespace LinearCongruence

open Augmented Tableau

/-! ## What is read -/

theorem ResidueRing.modulus_le_of_read {json : Json} {ring : ResidueRing}
    (h : ofJson? json = some ring) : ring.modulus ≤ Word.greatestUnsigned := by
  obtain ⟨fields, -, h⟩ := Option.bind_eq_some_iff.1 h
  split at h
  · obtain ⟨modulus, hmodulus, h⟩ := Option.bind_eq_some_iff.1 h
    cases h
    exact Json.le_of_unsigned? hmodulus
  · cases h

theorem Options.maxSolutions_le_of_read {json : Json} {options : Options}
    (h : ofJson? json = some options) : options.maxSolutions ≤ Word.greatestUnsigned := by
  obtain ⟨fields, -, h⟩ := Option.bind_eq_some_iff.1 h
  split at h
  · rename_i maxSolutions freeColumns
    obtain ⟨limit, hlimit, h⟩ := Option.bind_eq_some_iff.1 h
    obtain ⟨free, -, h⟩ := Option.bind_eq_some_iff.1 h
    cases h
    cases maxSolutions with
    | none =>
        -- A limit that is not given is the standard one.
        cases hlimit
        change standard.maxSolutions ≤ Word.greatestUnsigned
        decide
    | some value => exact Json.le_of_unsigned? hlimit
  · cases h

namespace Solver

variable {solver : Solver} {matrix : Augmented}

theorem range_of_read {json : Json} (h : ofJson? json = some solver) :
    solver.ring.modulus ≤ Word.greatestUnsigned ∧
      solver.options.maxSolutions ≤ Word.greatestUnsigned := by
  obtain ⟨fields, -, h⟩ := Option.bind_eq_some_iff.1 h
  split at h
  · obtain ⟨ring, hring, h⟩ := Option.bind_eq_some_iff.1 h
    obtain ⟨options, hoptions, h⟩ := Option.bind_eq_some_iff.1 h
    cases h
    exact ⟨ResidueRing.modulus_le_of_read hring, Options.maxSolutions_le_of_read hoptions⟩
  · cases h

/-- Texts give solvers over all moduli and with all limits that words hold, and no others. -/
theorem exists_text_iff (solver : Solver) :
    (∃ text, (Json.parse text).bind ofJson? = some solver) ↔
      solver.ring.modulus ≤ Word.greatestUnsigned ∧
        solver.options.maxSolutions ≤ Word.greatestUnsigned := by
  constructor
  · rintro ⟨text, htext⟩
    obtain ⟨json, -, hjson⟩ := Option.bind_eq_some_iff.1 htext
    exact range_of_read hjson
  · rintro ⟨hmodulus, hmaxSolutions⟩
    exact ⟨solver.toJson.toText, (restores hmodulus hmaxSolutions).read⟩

end Solver

/-! ## Residues over any modulus -/

namespace ResidueRing

variable {ring : ResidueRing} {v : Int}

theorem residue_of_modulus_eq_zero (h : ring.modulus = 0) (v : Int) :
    ring.residue v = .error .divisionByZero := by
  rw [residue, word, h]
  rfl

theorem word_of_greatest_lt (hlt : Word.greatest < ring.modulus)
    (hle : ring.modulus ≤ Word.greatestUnsigned) :
    ring.word = ring.modulus - 0x10000000000000000 := by
  rw [Word.greatest] at hlt
  rw [Word.greatestUnsigned] at hle
  rw [word, Word.wrap_eq_bmod, Int.bmod_def]
  split <;> omega

/-- A residue by any word but zero: the least word has no quotient by -1, and a negative remainder
is corrected by the word, which may be negative too. -/
theorem residue_of_word_ne_zero (h : ring.word ≠ 0) (v : Int) :
    ring.residue v =
      if v = Word.least ∧ ring.word = -1 then .error .overflow
      else if v.tmod ring.word < 0 then Word.checked (v.tmod ring.word + ring.word)
      else .ok (v.tmod ring.word) := by
  unfold residue Euclid.residue Word.rem Word.checkDivision
  rw [if_neg h]
  split <;> rfl

theorem residue_ok_or_overflow (h : ring.word ≠ 0) (v : Int) :
    (∃ r, ring.residue v = .ok r) ∨ ring.residue v = .error .overflow := by
  rw [residue_of_word_ne_zero h]
  split
  · exact .inr rfl
  · split
    · by_cases hfits : Word.Fits (v.tmod ring.word + ring.word)
      · exact .inl ⟨_, Word.checked_of_fits hfits⟩
      · exact .inr (Word.checked_of_not_fits hfits)
    · exact .inl ⟨_, rfl⟩

theorem residue_of_lt_least (hlt : Word.greatest < ring.modulus)
    (hle : ring.modulus ≤ Word.greatestUnsigned)
    (hv : v.tmod ring.word + ring.word < Word.least) : ring.residue v = .error .overflow := by
  have hword := word_of_greatest_lt hlt hle
  have hgreatest : Word.greatest = 0x7fffffffffffffff := rfl
  have hunsigned : Word.greatestUnsigned = 0xffffffffffffffff := rfl
  have hleast : Word.least = -0x8000000000000000 := rfl
  have hquotient : ¬(v = Word.least ∧ ring.word = -1) := by
    rintro ⟨-, hone⟩
    rw [hone, Int.tmod_neg, Int.tmod_one] at hv
    omega
  rw [residue_of_word_ne_zero (by omega), if_neg hquotient, if_pos (by omega),
    Word.checked_of_not_fits]
  rw [Word.fits_iff]
  omega

end ResidueRing

/-! ## Solves -/

namespace Augmented

variable {ring : ResidueRing} {matrix : Augmented} {row : List Int} {v : Int} {fault : Fault}

theorem reduce_eq_error (hresidue : ∀ w, (∃ r, ring.residue w = .ok r) ∨
      ring.residue w = .error fault)
    (hrow : row ∈ matrix) (hv : v ∈ row) (hfault : ring.residue v = .error fault) :
    matrix.reduce ring = .error fault := by
  have hrows (r : List Int) : (∃ s, r.mapM ring.residue = .ok s) ∨
      r.mapM ring.residue = .error fault :=
    (Checked.mapM_ok_or_error fun w _ => hresidue w).imp_left fun hread => hread.1
  have hfaults : row.mapM ring.residue = .error fault :=
    Checked.mapM_eq_error (fun w _ => hresidue w) hv hfault
  exact Checked.mapM_eq_error (fun r _ => hrows r) hrow hfaults

end Augmented

namespace Solver

variable {solver : Solver} {matrix : Augmented} {shape : Shape} {row : List Int} {v : Int}
  {fault : Fault}

theorem solve_of_residue_fault (hshape : matrix.shape = .ok shape)
    (hresidue : ∀ w, (∃ r, solver.ring.residue w = .ok r) ∨ solver.ring.residue w = .error fault)
    (hrow : row ∈ matrix) (hv : v ∈ row) (hfault : solver.ring.residue v = .error fault) :
    solver.solve matrix = .error (.fault fault) := by
  unfold solve ofAugmented
  rw [hshape, Checked.lift_refusal_ok, Checked.ok_bind,
    reduce_eq_error hresidue hrow hv hfault, Checked.lift_error]
  rfl

theorem solve_of_modulus_eq_zero (hzero : solver.ring.modulus = 0)
    (hshape : matrix.shape = .ok shape) :
    solver.solve matrix = .error (.fault .divisionByZero) := by
  -- A matrix that has a shape has an entry, whose residue faults.
  obtain ⟨hne, -, hlength⟩ := (wellFormed_of_shape hshape).2
  obtain ⟨row, rest, rfl⟩ := List.exists_cons_of_ne_nil hne
  have hrow : row ≠ [] := by
    rintro rfl
    cases hlength [] List.mem_cons_self
  obtain ⟨v, hv⟩ := List.exists_mem_of_ne_nil row hrow
  have hfault := ResidueRing.residue_of_modulus_eq_zero hzero
  exact solve_of_residue_fault hshape (fun w => .inr (hfault w)) List.mem_cons_self hv (hfault v)

theorem solve_of_lt_least (hlt : Word.greatest < solver.ring.modulus)
    (hle : solver.ring.modulus ≤ Word.greatestUnsigned) (hshape : matrix.shape = .ok shape)
    (hrow : row ∈ matrix) (hv : v ∈ row)
    (hleast : v.tmod solver.ring.word + solver.ring.word < Word.least) :
    solver.solve matrix = .error (.fault .overflow) := by
  have hword : solver.ring.word ≠ 0 := by
    rw [ResidueRing.word_of_greatest_lt hlt hle]
    rw [Word.greatestUnsigned] at hle
    omega
  exact solve_of_residue_fault hshape (ResidueRing.residue_ok_or_overflow hword) hrow hv
    (ResidueRing.residue_of_lt_least hlt hle hleast)

theorem ofModulus_eq_ok_iff (solver : Solver) :
    ofModulus solver.ring.modulus solver.options = .ok solver ↔ solver.ring.Valid := by
  unfold ofModulus
  constructor
  · intro h
    obtain ⟨ring, hring, h⟩ := Checked.bind_eq_ok.1 h
    have hsame : ring = solver.ring := congrArg Solver.ring (Except.ok.inj h)
    exact hsame ▸ ResidueRing.valid_of_ofModulus hring
  · intro hvalid
    rw [ResidueRing.ofModulus_of_valid hvalid]
    rfl

/-- A solver that is read is over a valid modulus, and its solves never fault, exactly where its
construction would have accepted the modulus; reading accepts others too. Over the modulus zero every
matrix that has a shape makes the solve divide by zero. Over a modulus that is no signed word an
entry overflows whose remainder, corrected by the negative word of the modulus, lies below the least
word. -/
theorem read_solver_validated_iff (text : String) (solver : Solver)
    (hread : (Json.parse text).bind ofJson? = some solver) :
    ((solver.ring.Valid ∧ ∀ matrix, (∃ s, solver.solve matrix = .ok s) ∨
        ∃ e, Refusal.OfSystem e ∧ solver.solve matrix = .error (.refused e)) ↔
      ofModulus solver.ring.modulus solver.options = .ok solver) ∧
    (solver.ring.modulus = 0 → ∀ matrix shape, matrix.shape = .ok shape →
      solver.solve matrix = .error (.fault .divisionByZero)) ∧
    (Word.greatest < solver.ring.modulus → ∀ matrix shape, matrix.shape = .ok shape →
      ∀ row ∈ matrix, ∀ v ∈ row, v.tmod solver.ring.word + solver.ring.word < Word.least →
        solver.solve matrix = .error (.fault .overflow)) := by
  refine ⟨?_, fun hzero matrix shape hshape => solve_of_modulus_eq_zero hzero hshape, ?_⟩
  · rw [ofModulus_eq_ok_iff]
    exact ⟨fun hsafe => hsafe.1, fun hvalid => ⟨hvalid, solve_of_valid hvalid⟩⟩
  · have hmodulus := ((exists_text_iff solver).1 ⟨text, hread⟩).1
    intro hlt matrix shape hshape row hrow v hv hleast
    exact solve_of_lt_least hlt hmodulus hshape hrow hv hleast

theorem read_solver_validated_iff_above_words :
    (Json.parse "[[9223372036854775808],[7]]").bind ofJson? =
        some ⟨⟨9223372036854775808⟩, ⟨7, false⟩⟩ ∧
      solve ⟨⟨9223372036854775808⟩, ⟨7, false⟩⟩ [[5, -7]] = .error (.fault .overflow) := by
  have hread : (Json.parse "[[9223372036854775808],[7]]").bind ofJson? =
      some ⟨⟨9223372036854775808⟩, ⟨7, false⟩⟩ := by cbv
  obtain ⟨-, -, hoverflow⟩ := read_solver_validated_iff _ _ hread
  exact ⟨hread,
    hoverflow (by decide) [[5, -7]] ⟨1, 1⟩ rfl [5, -7] (by decide) (-7) (by decide) (by decide)⟩

/-- A text gives a solver over the modulus zero, which its construction refuses, and its solve
divides by zero. -/
theorem read_solver_divides_by_zero :
    (Json.parse "\x7b\"ring\":\x7b\"modulus\":0\x7d,\"config\":\x7b\x7d\x7d").bind ofJson? =
        some ⟨⟨0⟩, .standard⟩ ∧
      ¬(⟨0⟩ : ResidueRing).Valid ∧ ofModulus 0 .standard = .error .zeroModulus ∧
      solve ⟨⟨0⟩, .standard⟩ [[1, 1]] = .error (.fault .divisionByZero) :=
  ⟨by cbv, by decide, rfl, rfl⟩

end Solver

end LinearCongruence
