/-!
# JSON values

A value keeps its numbers and strings as they are written, since what they mean is for the
reader of a field to say: a number may be no integer, a string may name no text. Values are
written without blanks.
-/

namespace LinearCongruence

inductive Json where
  | null
  | bool (value : Bool)
  /-- A number as it is written. -/
  | number (literal : List Char)
  /-- A string as it is written between its quotation marks. -/
  | string (body : List Char)
  | array (items : List Json)
  /-- The members in order, each name as it is written between its quotation marks. -/
  | object (members : List (List Char × Json))

namespace Json

mutual

def write : Json → List Char
  | null => ['n', 'u', 'l', 'l']
  | bool true => ['t', 'r', 'u', 'e']
  | bool false => ['f', 'a', 'l', 's', 'e']
  | number literal => literal
  | string body => '"' :: body ++ ['"']
  | array [] => ['[', ']']
  | array (item :: items) => '[' :: write item ++ writeItems items
  | object [] => ['{', '}']
  | object (member :: members) => '{' :: writeMember member ++ writeMembers members

/-- The items after the first, and the closing bracket. -/
def writeItems : List Json → List Char
  | [] => [']']
  | item :: items => ',' :: write item ++ writeItems items

def writeMember : List Char × Json → List Char
  | (name, value) => '"' :: name ++ '"' :: ':' :: write value

/-- The members after the first, and the closing brace. -/
def writeMembers : List (List Char × Json) → List Char
  | [] => ['}']
  | member :: members => ',' :: writeMember member ++ writeMembers members

end

def toText (json : Json) : String := String.ofList json.write

def ofNat (n : Nat) : Json := number (Nat.toDigits 10 n)

def ofInt : Int → Json
  | .ofNat n => ofNat n
  | .negSucc n => number ('-' :: Nat.toDigits 10 (n + 1))

/-- The integer that a value is, where it is a number written as one: without a point, an
exponent or a minus sign before zero. -/
def integer? : Json → Option Int
  | number ('-' :: digits) =>
    if digits.all Char.isDigit ∧ digits ≠ ['0'] then some (-(Nat.ofDigitChars 10 digits 0))
    else none
  | number digits =>
    if digits.all Char.isDigit then some (Nat.ofDigitChars 10 digits 0) else none
  | _ => none

end Json

end LinearCongruence
