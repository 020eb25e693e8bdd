import LinearCongruence.Json.Basic
/-!
# Reading JSON

The grammar of JSON texts without any leniency: blanks are space, tab, line feed and
carriage return; no comma stands before a closing bracket; numbers have no leading zero or
plus sign; strings hold no control characters; only blanks follow the value. A reader takes
what it reads off the front of the text and returns the rest.
-/

namespace LinearCongruence.Json.Reader

def isBlank (c : Char) : Bool := c = ' ' || c = '\t' || c = '\n' || c = '\r'

def skipBlanks (cs : List Char) : List Char := cs.dropWhile isBlank

def isHexDigit (c : Char) : Bool :=
  c.isDigit || ('a' ≤ c && c ≤ 'f') || ('A' ≤ c && c ≤ 'F')

/-- The characters that stand for one character behind a backslash. -/
def isShortEscape (c : Char) : Bool := ['"', '\\', '/', 'b', 'f', 'n', 'r', 't'].contains c

/-- The rest of a string up to its closing quotation mark, as it is written. -/
def stringBody : List Char → Option (List Char × List Char)
  | [] => none
  | '"' :: rest => some ([], rest)
  | '\\' :: 'u' :: a :: b :: c :: d :: rest =>
    if [a, b, c, d].all isHexDigit then do
      let (body, rest) ← stringBody rest
      pure ('\\' :: 'u' :: a :: b :: c :: d :: body, rest)
    else none
  | '\\' :: c :: rest =>
    if isShortEscape c then do
      let (body, rest) ← stringBody rest
      pure ('\\' :: c :: body, rest)
    else none
  | c :: rest =>
    if c < ' ' then none
    else do
      let (body, rest) ← stringBody rest
      pure (c :: body, rest)

def digits (cs : List Char) : Option (List Char × List Char) :=
  match cs.takeWhile Char.isDigit with
  | [] => none
  | taken => some (taken, cs.dropWhile Char.isDigit)

/-- Digits that do not begin with a zero, or a zero alone. -/
def integerPart (cs : List Char) : Option (List Char × List Char) := do
  let (taken, rest) ← digits cs
  if taken.head? = some '0' ∧ taken ≠ ['0'] then none else pure (taken, rest)

def fractionPart : List Char → Option (List Char × List Char)
  | '.' :: rest => do
    let (taken, rest) ← digits rest
    pure ('.' :: taken, rest)
  | cs => some ([], cs)

def exponentSign : List Char → List Char × List Char
  | '+' :: rest => (['+'], rest)
  | '-' :: rest => (['-'], rest)
  | cs => ([], cs)

def exponentPart : List Char → Option (List Char × List Char)
  | [] => some ([], [])
  | c :: cs =>
    if c = 'e' ∨ c = 'E' then do
      let (sign, rest) := exponentSign cs
      let (taken, rest) ← digits rest
      pure (c :: sign ++ taken, rest)
    else some ([], c :: cs)

def unsignedNumber (cs : List Char) : Option (List Char × List Char) := do
  let (whole, rest) ← integerPart cs
  let (fraction, rest) ← fractionPart rest
  let (exponent, rest) ← exponentPart rest
  pure (whole ++ fraction ++ exponent, rest)

def number : List Char → Option (List Char × List Char)
  | '-' :: rest => do
    let (literal, rest) ← unsignedNumber rest
    pure ('-' :: literal, rest)
  | cs => unsignedNumber cs

/-- The name of a member and the colon behind it. -/
def memberName : List Char → Option (List Char × List Char)
  | '"' :: rest => do
    let (name, rest) ← stringBody rest
    match skipBlanks rest with
    | ':' :: rest => pure (name, skipBlanks rest)
    | _ => none
  | _ => none

mutual

def value : Nat → List Char → Option (Json × List Char)
  | 0, _ => none
  | fuel + 1, cs =>
    match cs with
    | 'n' :: 'u' :: 'l' :: 'l' :: rest => some (.null, rest)
    | 't' :: 'r' :: 'u' :: 'e' :: rest => some (.bool true, rest)
    | 'f' :: 'a' :: 'l' :: 's' :: 'e' :: rest => some (.bool false, rest)
    | '"' :: rest => do
      let (body, rest) ← stringBody rest
      pure (.string body, rest)
    | '[' :: rest =>
      match skipBlanks rest with
      | ']' :: rest => some (.array [], rest)
      | rest => do
        let (read, rest) ← items fuel rest
        pure (.array read, rest)
    | '{' :: rest =>
      match skipBlanks rest with
      | '}' :: rest => some (.object [], rest)
      | rest => do
        let (read, rest) ← members fuel rest
        pure (.object read, rest)
    | cs => do
      let (literal, rest) ← number cs
      pure (.number literal, rest)

def items : Nat → List Char → Option (List Json × List Char)
  | 0, _ => none
  | fuel + 1, cs => do
    let (first, rest) ← value fuel cs
    match skipBlanks rest with
    | ']' :: rest => pure ([first], rest)
    | ',' :: rest =>
      let (others, rest) ← items fuel (skipBlanks rest)
      pure (first :: others, rest)
    | _ => none

def members : Nat → List Char → Option (List (List Char × Json) × List Char)
  | 0, _ => none
  | fuel + 1, cs => do
    let (name, rest) ← memberName cs
    let (first, rest) ← value fuel rest
    match skipBlanks rest with
    | '}' :: rest => pure ([(name, first)], rest)
    | ',' :: rest =>
      let (others, rest) ← members fuel (skipBlanks rest)
      pure ((name, first) :: others, rest)
    | _ => none

end

/-- The value that a text holds. Reading a value or an item takes at most two calls for each
character. -/
def document (cs : List Char) : Option Json := do
  let (json, rest) ← value (2 * cs.length + 1) (skipBlanks cs)
  if skipBlanks rest = [] then pure json else none

end LinearCongruence.Json.Reader
