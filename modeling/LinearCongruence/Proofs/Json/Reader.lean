import LinearCongruence.Json.Forms
/-!
# Reading what is written

A value whose numbers are integers and whose strings hold no escapes is read back from its text.
A part of the text is read up to what follows it, which for a number must not continue it. Main
facts:

* `number_write_ofInt` : the digits of an integer are read to their end;
* `Plain.reads` : a value is read off the front of a text;
* `parse_toText` : the text of a value holds this value.
-/

namespace LinearCongruence.Json

namespace Reader

variable {cs rest : List Char} {json : Json}

/-! ## Numbers -/

def EndsNumber (rest : List Char) : Prop :=
  ∀ c ∈ rest.head?, c.isDigit = false ∧ c ≠ '.' ∧ c ≠ 'e' ∧ c ≠ 'E'

theorem endsNumber_nil : EndsNumber [] := by
  simp [EndsNumber]

theorem digits_append (hdigits : ∀ c ∈ cs, c.isDigit = true) (hne : cs ≠ [])
    (hrest : EndsNumber rest) : digits (cs ++ rest) = some (cs, rest) := by
  have htail : rest.takeWhile Char.isDigit = [] ∧ rest.dropWhile Char.isDigit = rest := by
    cases rest with
    | nil => exact ⟨rfl, rfl⟩
    | cons c rest => simp [(hrest c rfl).1]
  unfold digits
  rw [List.takeWhile_append_of_pos hdigits, List.dropWhile_append_of_pos hdigits, htail.1, htail.2,
    List.append_nil]
  cases cs with
  | nil => exact absurd rfl hne
  | cons c cs => rfl

theorem head?_toDigits_ne_zero {n : Nat} (hn : n ≠ 0) : (Nat.toDigits 10 n).head? ≠ some '0' := by
  induction n using Nat.strongRecOn with
  | ind n ih =>
    rw [Nat.toDigits_eq_if (by decide)]
    split
    · rename_i hlt
      have hdigit : ∀ d < 10, d ≠ 0 → some d.digitChar ≠ some '0' := by decide
      exact hdigit n hlt hn
    · rw [List.head?_append, Option.or_of_isSome]
      · exact ih (n / 10) (by omega) (by omega)
      · rw [List.isSome_head?]
        exact Nat.toDigits_ne_nil

theorem fractionPart_of_endsNumber (h : EndsNumber rest) : fractionPart rest = some ([], rest) := by
  unfold fractionPart
  split
  · exact absurd rfl (h '.' rfl).2.1
  · rfl

theorem exponentPart_of_endsNumber (h : EndsNumber rest) : exponentPart rest = some ([], rest) := by
  cases rest with
  | nil => rfl
  | cons c rest =>
      obtain ⟨-, -, hlower, hupper⟩ := h c rfl
      rw [exponentPart, if_neg (by simp [hlower, hupper])]

theorem unsignedNumber_toDigits (n : Nat) (h : EndsNumber rest) :
    unsignedNumber (Nat.toDigits 10 n ++ rest) = some (Nat.toDigits 10 n, rest) := by
  have hdigits : digits (Nat.toDigits 10 n ++ rest) = some (Nat.toDigits 10 n, rest) :=
    digits_append (fun c => Nat.isDigit_of_mem_toDigits (by decide) (by decide))
      Nat.toDigits_ne_nil h
  have hzero : ¬((Nat.toDigits 10 n).head? = some '0' ∧ Nat.toDigits 10 n ≠ ['0']) := by
    rintro ⟨hhead, hne⟩
    by_cases hn : n = 0
    · subst hn
      exact hne (Nat.toDigits_zero 10)
    · exact head?_toDigits_ne_zero hn hhead
  have hinteger : integerPart (Nat.toDigits 10 n ++ rest) = some (Nat.toDigits 10 n, rest) := by
    unfold integerPart
    rw [hdigits]
    exact if_neg hzero
  unfold unsignedNumber
  rw [hinteger]
  simp [fractionPart_of_endsNumber h, exponentPart_of_endsNumber h]

theorem exists_digit_cons (n : Nat) :
    ∃ c tail, Nat.toDigits 10 n = c :: tail ∧ c.isDigit = true := by
  obtain ⟨c, tail, hcons⟩ := List.exists_cons_of_ne_nil (Nat.toDigits_ne_nil (n := n) (b := 10))
  exact ⟨c, tail, hcons,
    Nat.isDigit_of_mem_toDigits (by decide) (by decide) (hcons ▸ List.mem_cons_self)⟩

theorem toDigits_append_ne (n : Nat) (rest tail : List Char) :
    Nat.toDigits 10 n ++ rest ≠ '-' :: tail := by
  obtain ⟨c, digits, hcons, hdigit⟩ := exists_digit_cons n
  rw [hcons, List.cons_append]
  rintro ⟨⟩
  cases hdigit

theorem number_write_ofInt (v : Int) (h : EndsNumber rest) :
    number ((ofInt v).write ++ rest) = some ((ofInt v).write, rest) := by
  cases v with
  | ofNat n =>
      change number (Nat.toDigits 10 n ++ rest) = some (Nat.toDigits 10 n, rest)
      rw [number]
      · exact unsignedNumber_toDigits n h
      · exact toDigits_append_ne n rest
  | negSucc n =>
      change number ('-' :: (Nat.toDigits 10 (n + 1) ++ rest)) =
        some ('-' :: Nat.toDigits 10 (n + 1), rest)
      rw [number, unsignedNumber_toDigits _ h]
      rfl

/-! ## Strings and names -/

def IsPlain (text : List Char) : Prop :=
  ∀ c ∈ text, c ≠ '"' ∧ c ≠ '\\' ∧ ¬c < ' '

-- The test of each character in the text, not of each character there is.
instance (text : List Char) : Decidable (IsPlain text) := List.decidableBAll _ text

theorem stringBody_of_isPlain (h : IsPlain cs) :
    stringBody (cs ++ '"' :: rest) = some (cs, rest) := by
  induction cs with
  | nil => rfl
  | cons c cs ih =>
      obtain ⟨hquote, hescape, hcontrol⟩ := h c List.mem_cons_self
      have hread := ih fun d hd => h d (List.mem_cons_of_mem c hd)
      rw [List.cons_append, stringBody, if_neg hcontrol, hread]
      · rfl
      · exact hquote
      · exact fun _ _ _ _ _ heq _ => hescape heq
      · exact fun _ _ heq _ => hescape heq

/-! ## Values -/

theorem skipBlanks_cons {c : Char} (h : isBlank c = false) : skipBlanks (c :: cs) = c :: cs := by
  rw [skipBlanks, List.dropWhile_cons, h]
  rfl

/-- A value that is read off the front of every text it begins. Its own text begins with neither a
blank nor the closing bracket of an array. -/
structure Reads (json : Json) : Prop where
  opens : ∃ c tail, json.write = c :: tail ∧ isBlank c = false ∧ c ≠ ']'
  value_eq : ∀ fuel rest, 2 * json.write.length ≤ fuel → EndsNumber rest →
    value (fuel + 1) (json.write ++ rest) = some (json, rest)

theorem reads_of_step {c : Char} (hwrite : json.write = c :: cs) (hblank : isBlank c = false)
    (hc : c ≠ ']')
    (h : ∀ fuel rest, value (fuel + 1) (c :: (cs ++ rest)) = some (json, rest)) : Reads json := by
  refine ⟨⟨c, cs, hwrite, hblank, hc⟩, ?_⟩
  intro fuel rest _ _
  rw [hwrite, List.cons_append]
  exact h fuel rest

theorem value_of_number {fuel : Nat} {literal : List Char} {c : Char}
    (h : number (c :: cs) = some (literal, rest)) (hc : c ∉ ['n', 't', 'f', '"', '[', '{']) :
    value (fuel + 1) (c :: cs) = some (.number literal, rest) := by
  simp only [List.mem_cons, List.not_mem_nil, or_false, not_or] at hc
  rw [value, h]
  · rfl
  all_goals
    intro tail heq
    simp [hc] at heq

theorem reads_ofInt (v : Int) : Reads (ofInt v) := by
  obtain ⟨c, tail, hcons, hopens⟩ :
      ∃ c tail, (ofInt v).write = c :: tail ∧ (c.isDigit = true ∨ c = '-') := by
    cases v with
    | ofNat n =>
        obtain ⟨c, tail, hcons, hdigit⟩ := exists_digit_cons n
        exact ⟨c, tail, hcons, .inl hdigit⟩
    | negSucc n => exact ⟨_, _, rfl, .inr rfl⟩
  have hne (d : Char) (hd : d.isDigit = false ∧ d ≠ '-') : c ≠ d := by
    rintro rfl
    exact hopens.elim (fun hdigit => by simp [hd.1] at hdigit) hd.2
  constructor
  · exact ⟨c, tail, hcons, by simp [isBlank, hne], hne ']' (by decide)⟩
  · intro fuel rest _ hrest
    have hnumber := number_write_ofInt v hrest
    have hread : ofInt v = .number (ofInt v).write := by cases v <;> rfl
    rw [hcons, List.cons_append] at hnumber ⊢
    rw [value_of_number hnumber (by simp [hne]), hread, hcons]

theorem reads_null : Reads null :=
  reads_of_step (by rw [write]) rfl (by decide) fun _ _ => rfl

theorem reads_bool (b : Bool) : Reads (bool b) := by
  cases b with
  | false => exact reads_of_step (by rw [write]) rfl (by decide) fun _ _ => rfl
  | true => exact reads_of_step (by rw [write]) rfl (by decide) fun _ _ => rfl

theorem reads_string {body : List Char} (h : IsPlain body) : Reads (string body) := by
  apply reads_of_step (by rw [write, List.cons_append]) rfl (by decide)
  intro fuel rest
  rw [List.append_assoc, List.singleton_append, value, stringBody_of_isPlain h]
  rfl

theorem endsNumber_cons {c : Char} (hc : c ∈ [',', ']', '}']) : EndsNumber (c :: rest) := by
  rintro d ⟨⟩
  simp only [List.mem_cons, List.not_mem_nil, or_false] at hc
  rcases hc with rfl | rfl | rfl
  all_goals decide

theorem Reads.skipBlanks_write (h : Reads json) (rest : List Char) :
    skipBlanks (json.write ++ rest) = json.write ++ rest := by
  obtain ⟨c, tail, hcons, hblank, -⟩ := h.opens
  rw [hcons, List.cons_append, skipBlanks_cons hblank]

/-! ## Arrays -/

section Arrays

variable {fuel : Nat} {first : Json} {others : List Json}

theorem items_of_last (h : value fuel cs = some (first, ']' :: rest)) :
    items (fuel + 1) cs = some ([first], rest) := by
  rw [items, h]
  rfl

theorem items_of_next {next : List Char} (h : value fuel cs = some (first, ',' :: next))
    (hnext : items fuel (skipBlanks next) = some (others, rest)) :
    items (fuel + 1) cs = some (first :: others, rest) := by
  rw [items, h]
  change (items fuel (skipBlanks next)).bind _ = _
  rw [hnext]
  rfl

theorem items_write (fuel : Nat) (h : ∀ item ∈ first :: others, Reads item) (rest : List Char)
    (hfuel : 2 * (first.write ++ writeItems others).length ≤ fuel) :
    items (fuel + 2) (first.write ++ (writeItems others ++ rest)) =
      some (first :: others, rest) := by
  induction others generalizing first fuel with
  | nil =>
      rw [writeItems, List.length_append, List.length_singleton] at hfuel
      apply items_of_last
      exact (h first (by simp)).value_eq fuel _ (by omega) (endsNumber_cons (by simp))
  | cons second others ih =>
      rw [writeItems, List.length_append, List.length_append, List.length_cons] at hfuel
      obtain ⟨fuel, rfl⟩ : ∃ less, fuel = less + 1 := ⟨fuel - 1, by omega⟩
      have hsecond := h second (by simp)
      rw [writeItems, List.append_assoc, List.cons_append]
      apply items_of_next
      · exact (h first (by simp)).value_eq (fuel + 1) _ (by omega) (endsNumber_cons (by simp))
      · rw [hsecond.skipBlanks_write]
        apply ih fuel fun item hitem => h item (by simp [hitem])
        rw [List.length_append]
        omega

theorem value_of_items {c : Char} (hblank : isBlank c = false) (hc : c ≠ ']')
    (h : items fuel (c :: cs) = some (others, rest)) :
    value (fuel + 1) ('[' :: c :: cs) = some (.array others, rest) := by
  rw [value, skipBlanks_cons hblank]
  split
  · rename_i heq
    exact absurd (List.cons.inj heq).1 hc
  · rw [h]
    rfl

theorem reads_array {read : List Json} (h : ∀ item ∈ read, Reads item) : Reads (.array read) := by
  cases read with
  | nil => exact reads_of_step (by rw [write]) rfl (by decide) fun _ _ => rfl
  | cons first others =>
      have hwrite :
          (array (first :: others)).write = '[' :: (first.write ++ writeItems others) := by
        rw [write, List.cons_append]
      refine ⟨⟨'[', _, hwrite, rfl, by decide⟩, ?_⟩
      intro fuel rest hfuel _
      rw [hwrite, List.length_cons] at hfuel
      obtain ⟨fuel, rfl⟩ : ∃ less, fuel = less + 2 := ⟨fuel - 2, by omega⟩
      obtain ⟨c, tail, hcons, hblank, hc⟩ := (h first (by simp)).opens
      have hitems := items_write fuel h rest (by omega)
      rw [hwrite, List.cons_append, List.append_assoc]
      rw [hcons, List.cons_append] at hitems ⊢
      exact value_of_items hblank hc hitems

end Arrays

/-! ## Objects -/

section Objects

variable {fuel : Nat} {name : List Char} {first : Json} {others : List (List Char × Json)}

theorem writeMember_append (name : List Char) (json : Json) (rest : List Char) :
    writeMember (name, json) ++ rest = '"' :: (name ++ '"' :: ':' :: (json.write ++ rest)) := by
  simp [writeMember]

theorem memberName_write (hname : IsPlain name) (hfirst : Reads first) (rest : List Char) :
    memberName (writeMember (name, first) ++ rest) = some (name, first.write ++ rest) := by
  rw [writeMember_append, memberName, stringBody_of_isPlain hname]
  change some (name, skipBlanks (first.write ++ rest)) = _
  rw [hfirst.skipBlanks_write]

theorem members_of_last {next : List Char} (hname : memberName cs = some (name, next))
    (h : value fuel next = some (first, '}' :: rest)) :
    members (fuel + 1) cs = some ([(name, first)], rest) := by
  rw [members, hname]
  change (value fuel next).bind _ = _
  rw [h]
  rfl

theorem members_of_next {next later : List Char} (hname : memberName cs = some (name, next))
    (h : value fuel next = some (first, ',' :: later))
    (hlater : members fuel (skipBlanks later) = some (others, rest)) :
    members (fuel + 1) cs = some ((name, first) :: others, rest) := by
  rw [members, hname]
  change (value fuel next).bind _ = _
  rw [h]
  change (members fuel (skipBlanks later)).bind _ = _
  rw [hlater]
  rfl

theorem length_writeMember (name : List Char) (json : Json) :
    (writeMember (name, json)).length = name.length + json.write.length + 3 := by
  simp [writeMember]
  omega

theorem members_write (fuel : Nat)
    (h : ∀ m ∈ (name, first) :: others, IsPlain m.1 ∧ Reads m.2) (rest : List Char)
    (hfuel : 2 * (writeMember (name, first) ++ writeMembers others).length ≤ fuel) :
    members (fuel + 2) (writeMember (name, first) ++ (writeMembers others ++ rest)) =
      some ((name, first) :: others, rest) := by
  induction others generalizing name first fuel with
  | nil =>
      obtain ⟨hname, hfirst⟩ : IsPlain name ∧ Reads first := h _ List.mem_cons_self
      rw [writeMembers, List.length_append, List.length_singleton, length_writeMember] at hfuel
      apply members_of_last (memberName_write hname hfirst _)
      exact hfirst.value_eq fuel _ (by omega) (endsNumber_cons (by simp))
  | cons member others ih =>
      obtain ⟨name', second⟩ := member
      obtain ⟨hname, hfirst⟩ : IsPlain name ∧ Reads first := h _ List.mem_cons_self
      rw [writeMembers, List.length_append, List.length_append, List.length_cons,
        length_writeMember] at hfuel
      obtain ⟨fuel, rfl⟩ : ∃ less, fuel = less + 1 := ⟨fuel - 1, by omega⟩
      have hskip (next : List Char) :
          skipBlanks (writeMember (name', second) ++ next) =
            writeMember (name', second) ++ next := by
        rw [writeMember_append]
        rfl
      rw [writeMembers, List.append_assoc, List.cons_append]
      apply members_of_next (memberName_write hname hfirst _)
      · exact hfirst.value_eq (fuel + 1) _ (by omega) (endsNumber_cons (by simp))
      · rw [hskip]
        apply ih fuel fun m hm => h m (List.mem_cons_of_mem _ hm)
        rw [List.length_append]
        omega

theorem value_of_members {c : Char} (hblank : isBlank c = false) (hc : c ≠ '}')
    (h : members fuel (c :: cs) = some (others, rest)) :
    value (fuel + 1) ('{' :: c :: cs) = some (.object others, rest) := by
  rw [value, skipBlanks_cons hblank]
  split
  · rename_i heq
    exact absurd (List.cons.inj heq).1 hc
  · rw [h]
    rfl

theorem reads_object (h : ∀ m ∈ others, IsPlain m.1 ∧ Reads m.2) : Reads (.object others) := by
  cases others with
  | nil => exact reads_of_step (by rw [write]) rfl (by decide) fun _ _ => rfl
  | cons member others =>
      obtain ⟨name, first⟩ := member
      have hwrite : (object ((name, first) :: others)).write =
          '{' :: (writeMember (name, first) ++ writeMembers others) := by
        rw [write, List.cons_append]
      refine ⟨⟨'{', _, hwrite, rfl, by decide⟩, ?_⟩
      intro fuel rest hfuel _
      rw [hwrite, List.length_cons] at hfuel
      obtain ⟨fuel, rfl⟩ : ∃ less, fuel = less + 2 := ⟨fuel - 2, by omega⟩
      have hmembers := members_write fuel h rest (by omega)
      rw [hwrite, List.cons_append, List.append_assoc]
      rw [writeMember_append] at hmembers ⊢
      exact value_of_members rfl (by decide) hmembers

end Objects

end Reader

/-! ## Whole texts -/

open Reader

inductive Plain : Json → Prop
  | null : Plain null
  | bool (value : Bool) : Plain (bool value)
  | integer (v : Int) : Plain (ofInt v)
  | string {body : List Char} (h : IsPlain body) : Plain (string body)
  | array {items : List Json} (h : ∀ item ∈ items, Plain item) : Plain (array items)
  | object {members : List (List Char × Json)} (hnames : ∀ m ∈ members, IsPlain m.1)
      (h : ∀ m ∈ members, Plain m.2) : Plain (object members)

theorem Plain.reads (h : Plain json) : Reads json := by
  induction h with
  | null => exact reads_null
  | bool value => exact reads_bool value
  | integer v => exact reads_ofInt v
  | string h => exact reads_string h
  | array _ ih => exact reads_array ih
  | object hnames _ ih => exact reads_object fun m hm => ⟨hnames m hm, ih m hm⟩

/-- The text of a value holds this value. -/
theorem parse_toText (h : Plain json) : parse json.toText = some json := by
  have hskip := h.reads.skipBlanks_write []
  have hvalue := h.reads.value_eq _ [] (Nat.le_refl _) endsNumber_nil
  rw [List.append_nil] at hskip hvalue
  rw [parse, toText, String.toList_ofList, document, hskip, hvalue]
  rfl

end LinearCongruence.Json
