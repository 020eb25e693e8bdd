import LinearCongruence.Json.Forms
import LinearCongruence.Proofs.Json.Reader
/-!
# Reading the forms

What is written in one of the forms is read back from it: words from their digits, lists item by
item, and the fields of a record under their names.
-/

namespace LinearCongruence.Json

open Reader

/-! ## Words -/

theorem all_isDigit_toDigits (n : Nat) : (Nat.toDigits 10 n).all Char.isDigit = true := by
  rw [List.all_eq_true]
  exact fun c => Nat.isDigit_of_mem_toDigits (by decide) (by decide)

theorem integer?_ofInt (v : Int) : (ofInt v).integer? = some v := by
  cases v with
  | ofNat n =>
      change (number (Nat.toDigits 10 n)).integer? = _
      rw [integer?]
      · rw [if_pos (all_isDigit_toDigits n), Nat.ofDigitChars_ten_toDigits]
        rfl
      · intro tail heq
        exact toDigits_append_ne n [] tail (by rw [List.append_nil, heq])
  | negSucc n =>
      have hzero : Nat.toDigits 10 (n + 1) ≠ ['0'] := by
        intro heq
        exact head?_toDigits_ne_zero (Nat.succ_ne_zero n) (by rw [heq]; rfl)
      change (number ('-' :: Nat.toDigits 10 (n + 1))).integer? = _
      rw [integer?, if_pos ⟨all_isDigit_toDigits (n + 1), hzero⟩, Nat.ofDigitChars_ten_toDigits]
      rfl

theorem unsigned?_ofNat {n : Nat} (h : n ≤ Word.greatestUnsigned) :
    (ofNat n).unsigned? = some n := by
  change (ofInt n).unsigned? = _
  rw [unsigned?, integer?_ofInt]
  exact if_pos ⟨by omega, by exact_mod_cast h⟩

theorem signed?_ofInt {v : Int} (h : Word.Fits v) : (ofInt v).signed? = some v := by
  rw [signed?, integer?_ofInt]
  exact if_pos h

section Ranges

variable {json : Json}

theorem le_of_unsigned? {n : Nat} (h : json.unsigned? = some n) : n ≤ Word.greatestUnsigned := by
  obtain ⟨v, -, hv⟩ := Option.bind_eq_some_iff.1 h
  split at hv
  · rename_i hrange
    cases hv
    omega
  · cases hv

theorem fits_of_signed? {v : Int} (h : json.signed? = some v) : Word.Fits v := by
  obtain ⟨w, -, hw⟩ := Option.bind_eq_some_iff.1 h
  split at hw
  · rename_i hfits
    cases hw
    exact hfits
  · cases hw

end Ranges

/-! ## Lists -/

section Lists

variable {α β γ : Type}

theorem mapM_map_eq_some {f : β → Option γ} {g : α → β} {h : α → γ} {l : List α}
    (hl : ∀ x ∈ l, f (g x) = some (h x)) : (l.map g).mapM f = some (l.map h) := by
  induction l with
  | nil => rfl
  | cons x l ih =>
      rw [List.map_cons, List.mapM_cons, hl x (by simp), ih fun y hy => hl y (by simp [hy])]
      rfl

theorem list?_map {item? : Json → Option α} {ofItem : α → Json} {l : List α}
    (h : ∀ x ∈ l, item? (ofItem x) = some x) : (array (l.map ofItem)).list? item? = some l := by
  have hread := mapM_map_eq_some h (h := id)
  rwa [List.map_id] at hread

theorem forall_of_mapM {f : β → Option α} {P : α → Prop} (hf : ∀ x y, f x = some y → P y)
    {l : List β} {l' : List α} (h : l.mapM f = some l') : ∀ y ∈ l', P y := by
  induction l generalizing l' with
  | nil =>
      cases h
      exact nofun
  | cons x l ih =>
      rw [List.mapM_cons] at h
      obtain ⟨y, hy, h⟩ := Option.bind_eq_some_iff.1 h
      obtain ⟨ys, hys, h⟩ := Option.bind_eq_some_iff.1 h
      cases h
      exact List.forall_mem_cons.2 ⟨hf x y hy, ih hys⟩

theorem forall_of_list? {item? : Json → Option α} {P : α → Prop}
    (hitem : ∀ item x, item? item = some x → P x) {json : Json} {l : List α}
    (h : json.list? item? = some l) : ∀ x ∈ l, P x := by
  cases json with
  | array items => exact forall_of_mapM hitem h
  | _ => cases h

theorem plain_array_map {ofItem : α → Json} {l : List α} (h : ∀ x ∈ l, Plain (ofItem x)) :
    Plain (array (l.map ofItem)) := by
  apply Plain.array
  intro item hitem
  obtain ⟨x, hx, rfl⟩ := List.mem_map.1 hitem
  exact h x hx

end Lists

/-! ## Records -/

theorem text?_of_isPlain {cs : List Char} (h : IsPlain cs) : text? cs = some cs := by
  induction cs with
  | nil => rfl
  | cons c cs ih =>
      have hescape := (h c List.mem_cons_self).2.1
      have hread := ih fun d hd => h d (List.mem_cons_of_mem c hd)
      rw [text?, hread]
      · rfl
      all_goals simp [hescape]

theorem field?_of_mem {fields : List (String × Json)} {name : String} {json : Json}
    (hnodup : (fields.map Prod.fst).Nodup) (h : (name, json) ∈ fields) :
    field? fields name = some (some json) := by
  have hfilter : fields.filter (fun field => field.1 = name) = [(name, json)] := by
    induction fields with
    | nil => cases h
    | cons field fields ih =>
        obtain ⟨hnew, hrest⟩ := List.nodup_cons.1 hnodup
        rcases List.mem_cons.1 h with rfl | h
        · rw [List.filter_cons_of_pos (by simp), List.filter_eq_nil_iff.2]
          intro other hother hname
          exact hnew (List.mem_map.2 ⟨other, hother, of_decide_eq_true hname⟩)
        · have hne : field.1 ≠ name := by
            rintro rfl
            exact hnew (List.mem_map.2 ⟨_, h, rfl⟩)
          rw [List.filter_cons_of_neg (by simpa using hne), ih hrest h]
  unfold field?
  rw [hfilter]

section Fields

variable {fields : List (String × Json)} {names : List String}
  (hnames : fields.map Prod.fst = names) (hplain : ∀ name ∈ names, IsPlain name.toList)
include hnames hplain

theorem named?_of_isPlain :
    named? (fields.map fun (name, json) => (name.toList, json)) = some fields := by
  rw [named?, mapM_map_eq_some (h := id), List.map_id]
  rintro ⟨name, json⟩ hfield
  have hname : name ∈ names := hnames ▸ List.mem_map_of_mem hfield
  change (text? name.toList).bind _ = _
  rw [text?_of_isPlain (hplain name hname), Option.bind_some, String.ofList_toList]
  rfl

theorem record?_ofFields (hnodup : names.Nodup) :
    (ofFields fields).record? names = some (fields.map fun field => some field.2) := by
  rw [ofFields, record?, named?_of_isPlain hnames hplain]
  subst hnames
  exact mapM_map_eq_some fun field hfield => field?_of_mem hnodup hfield

theorem plain_ofFields (h : ∀ field ∈ fields, Plain field.2) : Plain (ofFields fields) := by
  apply Plain.object
  · intro member hmember
    obtain ⟨field, hfield, rfl⟩ := List.mem_map.1 hmember
    exact hplain field.1 (hnames ▸ List.mem_map_of_mem hfield)
  · intro member hmember
    obtain ⟨field, hfield, rfl⟩ := List.mem_map.1 hmember
    exact h field hfield

end Fields

end LinearCongruence.Json

namespace LinearCongruence.SolutionSet

open Json

variable {json : Json} {s : SolutionSet} {modulus multiplicity : Nat} {vectors : List (List Int)}

/-- A value that holds these vectors, in the order in which it gives them, under this modulus and
this multiplicity. -/
def Gives (json : Json) (modulus multiplicity : Nat) (vectors : List (List Int)) : Prop :=
  ∃ jsonModulus jsonMultiplicity jsonVectors : Json,
    json.record? ["modulus", "multiplicity", "solutions"] =
      some [some jsonModulus, some jsonMultiplicity, some jsonVectors] ∧
    jsonModulus.unsigned? = some modulus ∧ jsonMultiplicity.unsigned? = some multiplicity ∧
    jsonVectors.list? (Json.list? Json.signed?) = some vectors

theorem ofJson?_eq_some_iff :
    ofJson? json = some s ↔ ∃ modulus multiplicity vectors,
      Gives json modulus multiplicity vectors ∧ s = ofVectors modulus multiplicity vectors := by
  constructor
  · intro h
    unfold ofJson? at h
    obtain ⟨fields, hfields, h⟩ := Option.bind_eq_some_iff.1 h
    split at h
    · obtain ⟨modulus, hmodulus, h⟩ := Option.bind_eq_some_iff.1 h
      obtain ⟨multiplicity, hmultiplicity, h⟩ := Option.bind_eq_some_iff.1 h
      obtain ⟨vectors, hvectors, h⟩ := Option.bind_eq_some_iff.1 h
      exact ⟨modulus, multiplicity, vectors,
        ⟨_, _, _, hfields, hmodulus, hmultiplicity, hvectors⟩, (Option.some.inj h).symm⟩
    · cases h
  · rintro ⟨modulus, multiplicity, vectors, ⟨_, _, _, hfields, hmodulus, hmultiplicity, hvectors⟩,
      rfl⟩
    rw [ofJson?, hfields]
    simp [hmodulus, hmultiplicity, hvectors]

theorem gives_formOf (hmodulus : modulus ≤ Word.greatestUnsigned)
    (hmultiplicity : multiplicity ≤ Word.greatestUnsigned)
    (hvectors : ∀ vector ∈ vectors, ∀ v ∈ vector, Word.Fits v) :
    Gives (formOf modulus multiplicity vectors) modulus multiplicity vectors := by
  refine ⟨_, _, _, record?_ofFields rfl (by decide) (by decide), unsigned?_ofNat hmodulus,
    unsigned?_ofNat hmultiplicity, ?_⟩
  apply list?_map
  intro vector hvector
  apply list?_map
  intro v hv
  exact signed?_ofInt (hvectors vector hvector v hv)

theorem Gives.range (h : Gives json modulus multiplicity vectors) :
    modulus ≤ Word.greatestUnsigned ∧ multiplicity ≤ Word.greatestUnsigned ∧
      ∀ vector ∈ vectors, ∀ v ∈ vector, Word.Fits v := by
  obtain ⟨_, _, _, -, hmodulus, hmultiplicity, hvectors⟩ := h
  refine ⟨le_of_unsigned? hmodulus, le_of_unsigned? hmultiplicity, ?_⟩
  exact forall_of_list? (fun _ _ => forall_of_list? fun _ _ => fits_of_signed?) hvectors

theorem plain_formOf (modulus multiplicity : Nat) (vectors : List (List Int)) :
    Plain (formOf modulus multiplicity vectors) := by
  have hvectors : Plain (.array (vectors.map fun vector => .array (vector.map .ofInt))) :=
    plain_array_map fun _ _ => plain_array_map fun v _ => Plain.integer v
  apply plain_ofFields (show _ = ["modulus", "multiplicity", "solutions"] from rfl) (by decide)
  simp only [List.forall_mem_cons, List.not_mem_nil, false_implies, implies_true, and_true]
  exact ⟨Plain.integer modulus, Plain.integer multiplicity, hvectors⟩

/-- The text that vectors are written to, in whatever order and however often each is given, is
read as the set of these vectors. -/
theorem read_formOf (hmodulus : modulus ≤ Word.greatestUnsigned)
    (hmultiplicity : multiplicity ≤ Word.greatestUnsigned)
    (hvectors : ∀ vector ∈ vectors, ∀ v ∈ vector, Word.Fits v) :
    (parse (formOf modulus multiplicity vectors).toText).bind ofJson? =
      some (ofVectors modulus multiplicity vectors) := by
  rw [parse_toText (plain_formOf _ _ _), Option.bind_some, ofJson?_eq_some_iff]
  exact ⟨_, _, _, gives_formOf hmodulus hmultiplicity hvectors, rfl⟩

end LinearCongruence.SolutionSet
