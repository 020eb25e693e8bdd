import LinearCongruence.Json.Reader
/-!
# Records

A record is an object with known names, or an array of its fields in their declared order.
Names are compared as the texts that they spell. Members of other names are skipped; a known
name that is given twice is refused, as is an array with more items than fields.
-/

namespace LinearCongruence.Json

def hexValue (c : Char) : Nat :=
  if c.isDigit then c.toNat - '0'.toNat
  else if 'a' ≤ c then c.toNat - 'a'.toNat + 10
  else c.toNat - 'A'.toNat + 10

/-- The number that four hexadecimal digits spell. -/
def codeUnit (a b c d : Char) : Nat :=
  ((hexValue a * 16 + hexValue b) * 16 + hexValue c) * 16 + hexValue d

def shortEscape : Char → Char
  | 'b' => '\x08'
  | 'f' => '\x0c'
  | 'n' => '\n'
  | 'r' => '\r'
  | 't' => '\t'
  | c => c

/-- The first half of a pair of code units that spells one character. -/
def isLeading (unit : Nat) : Bool := 0xd800 ≤ unit && unit < 0xdc00

def isTrailing (unit : Nat) : Bool := 0xdc00 ≤ unit && unit < 0xe000

def pairedChar (leading trailing : Nat) : Char :=
  Char.ofNat (0x10000 + (leading - 0xd800) * 0x400 + (trailing - 0xdc00))

/-- The text that a string spells; none where half of a pair stands alone. -/
def text? : List Char → Option (List Char)
  | [] => some []
  | '\\' :: 'u' :: a :: b :: c :: d :: '\\' :: 'u' :: e :: f :: g :: h :: rest =>
    let first := codeUnit a b c d
    let second := codeUnit e f g h
    if isLeading first then
      if isTrailing second then (text? rest).map (pairedChar first second :: ·) else none
    else if isTrailing first then none
    else (text? ('\\' :: 'u' :: e :: f :: g :: h :: rest)).map (Char.ofNat first :: ·)
  | '\\' :: 'u' :: a :: b :: c :: d :: rest =>
    let unit := codeUnit a b c d
    if isLeading unit || isTrailing unit then none else (text? rest).map (Char.ofNat unit :: ·)
  | '\\' :: c :: rest => (text? rest).map (shortEscape c :: ·)
  | c :: rest => (text? rest).map (c :: ·)

/-- The members of an object under the texts of their names. -/
def named? (members : List (List Char × Json)) : Option (List (String × Json)) :=
  members.mapM fun (name, value) => do
    pure (String.ofList (← text? name), value)

/-- The value under a name; an outer none where the name is given twice. -/
def field? (members : List (String × Json)) (name : String) : Option (Option Json) :=
  match members.filter fun (given, _) => given = name with
  | [] => some none
  | [(_, value)] => some (some value)
  | _ => none

/-- The fields of a record in their declared order, each none where it is missing. -/
def record? (names : List String) : Json → Option (List (Option Json))
  | array items =>
    if items.length ≤ names.length then
      some (items.map some ++ List.replicate (names.length - items.length) none)
    else none
  | object members => do
    let members ← named? members
    names.mapM (field? members)
  | _ => none

/-- An object with the given members; the names spell themselves. -/
def ofFields (fields : List (String × Json)) : Json :=
  object (fields.map fun (name, value) => (name.toList, value))

end LinearCongruence.Json
