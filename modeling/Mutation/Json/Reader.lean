import Mutation.Json.Value

/-!
# JSON text, read

A reader takes a value off the front of a text and answers the rest. The recursion is on a
fuel that `read?` sets from the length of the text: two steps for each character are enough,
since of every two steps one takes a character.
-/

namespace Mutation.Json

/-- The blanks JSON allows between tokens. -/
def isSpace (c : Char) : Bool := c == ' ' || c == '\t' || c == '\n' || c == '\r'

/-- The text from its first token on. -/
def skipSpace (cs : List Char) : List Char := cs.dropWhile isSpace

/-- The value of a hexadecimal digit. -/
def hex? (c : Char) : Option Nat :=
  if '0' ≤ c ∧ c ≤ '9' then some (c.toNat - 48)
  else if 'a' ≤ c ∧ c ≤ 'f' then some (c.toNat - 87)
  else if 'A' ≤ c ∧ c ≤ 'F' then some (c.toNat - 55)
  else none

/-- The number of four hexadecimal digits. -/
def hex4? (a b c d : Char) : Option Nat := do
  return 4096 * (← hex? a) + 256 * (← hex? b) + 16 * (← hex? c) + (← hex? d)

/-- The character a backslash and `c` stand for. -/
def simpleEscape? (c : Char) : Option Char :=
  if c = '"' ∨ c = '\\' ∨ c = '/' then some c
  else if c = 'b' then some '\x08'
  else if c = 'f' then some '\x0c'
  else if c = 'n' then some '\n'
  else if c = 'r' then some '\r'
  else if c = 't' then some '\t'
  else none

/-- The units of a string up to its closing quote: a character stands for its code point, an
escape for the number it names. -/
def readUnits : List Char → Option (List Nat × List Char)
  | '"' :: rest => some ([], rest)
  | '\\' :: 'u' :: a :: b :: c :: d :: rest => do
    let n ← hex4? a b c d
    let (units, rest) ← readUnits rest
    return (n :: units, rest)
  | '\\' :: c :: rest => do
    let c ← simpleEscape? c
    let (units, rest) ← readUnits rest
    return (c.toNat :: units, rest)
  | c :: rest =>
    if c.toNat < 32 then none
    else (readUnits rest).map fun (units, rest) => (c.toNat :: units, rest)
  | [] => none

/-- The first half of a surrogate pair. -/
def isHigh (n : Nat) : Bool := 0xD800 ≤ n && n ≤ 0xDBFF

/-- The second half of a surrogate pair. -/
def isLow (n : Nat) : Bool := 0xDC00 ≤ n && n ≤ 0xDFFF

/-- The characters that units denote; `none` when half of a pair stands alone. -/
def joinUnits : List Nat → Option (List Char)
  | [] => some []
  | a :: b :: rest =>
    if isHigh a then
      if isLow b then
        (joinUnits rest).map (Char.ofNat (0x10000 + (a - 0xD800) * 1024 + (b - 0xDC00)) :: ·)
      else none
    else if isLow a then none
    else (joinUnits (b :: rest)).map (Char.ofNat a :: ·)
  | [a] => if isHigh a || isLow a then none else some [Char.ofNat a]

/-- A string after its opening quote; `none` in front when it denotes no text. -/
def readString (cs : List Char) : Option (Option String × List Char) :=
  (readUnits cs).map fun (units, rest) => ((joinUnits units).map String.ofList, rest)

/-- The digits of the whole part of a number: `0`, or digits that do not start with `0`. -/
def readWhole : List Char → Option (List Char × List Char)
  | '0' :: rest => some (['0'], rest)
  | cs =>
    match cs.span Char.isDigit with
    | ([], _) => none
    | parts => some parts

/-- The fraction of a number: nothing, or a point and at least one digit. -/
def readFraction : List Char → Option (List Char × List Char)
  | '.' :: rest =>
    match rest.span Char.isDigit with
    | ([], _) => none
    | parts => some parts
  | cs => some ([], cs)

/-- The exponent of a number: nothing, or `e`, an optional sign and at least one digit. -/
def readPower (cs : List Char) : Option (Option Int × List Char) :=
  match cs with
  | c :: rest =>
    if c = 'e' ∨ c = 'E' then
      let (negative, rest) :=
        match rest with
        | '-' :: rest => (true, rest)
        | '+' :: rest => (false, rest)
        | rest => (false, rest)
      let (digits, rest) := rest.span Char.isDigit
      (Text.digits? digits).map fun n => (some (if negative then -(n : Int) else n), rest)
    else some (none, cs)
  | [] => some (none, [])

/-- A number without its sign. -/
def readNumber (negative : Bool) (cs : List Char) : Option (Json × List Char) := do
  let (whole, rest) ← readWhole cs
  let (fraction, rest) ← readFraction rest
  let (power, rest) ← readPower rest
  let mantissa ← Text.digits? (whole ++ fraction)
  match fraction, power with
  | [], none => return (.int negative mantissa, rest)
  | _, _ => return (.decimal negative ⟨mantissa, power.getD 0 - fraction.length⟩, rest)

/-- A field in front of others, unless its key or one of theirs denotes no text. -/
def consField (key : Option String) (v : Json) (fields : Option (List (String × Json))) :
    Option (List (String × Json)) := do
  return (← key, v) :: (← fields)

mutual
/-- A value at the front of a text. -/
def readValue : Nat → List Char → Option (Json × List Char)
  | 0, _ => none
  | fuel + 1, cs =>
    match skipSpace cs with
    | '[' :: rest =>
      match skipSpace rest with
      | ']' :: rest => some (.arr [], rest)
      | rest => (readItems fuel rest).map fun (items, rest) => (.arr items, rest)
    | '{' :: rest =>
      match skipSpace rest with
      | '}' :: rest => some (.obj [], rest)
      | rest =>
        (readFields fuel rest).map fun
          | (some fields, rest) => (.obj fields, rest)
          | (none, rest) => (.garbled, rest)
    | '"' :: rest =>
      (readString rest).map fun
        | (some s, rest) => (.str s, rest)
        | (none, rest) => (.garbled, rest)
    | 'n' :: 'u' :: 'l' :: 'l' :: rest => some (.null, rest)
    | 't' :: 'r' :: 'u' :: 'e' :: rest => some (.bool true, rest)
    | 'f' :: 'a' :: 'l' :: 's' :: 'e' :: rest => some (.bool false, rest)
    | '-' :: rest => readNumber true rest
    | rest => readNumber false rest

def readItems : Nat → List Char → Option (List Json × List Char)
  | 0, _ => none
  | fuel + 1, cs =>
    match readValue fuel cs with
    | none => none
    | some (v, rest) =>
      match skipSpace rest with
      | ',' :: rest => (readItems fuel rest).map fun (vs, rest) => (v :: vs, rest)
      | ']' :: rest => some ([v], rest)
      | _ => none

/-- The fields of an object, at least one, and its end; `none` in front when one of the keys
denotes no text. -/
def readFields : Nat → List Char → Option (Option (List (String × Json)) × List Char)
  | 0, _ => none
  | fuel + 1, cs =>
    match skipSpace cs with
    | '"' :: rest =>
      match readString rest with
      | none => none
      | some (key, rest) =>
        match skipSpace rest with
        | ':' :: rest =>
          match readValue fuel rest with
          | none => none
          | some (v, rest) =>
            match skipSpace rest with
            | ',' :: rest =>
              (readFields fuel rest).map fun (fields, rest) => (consField key v fields, rest)
            | '}' :: rest => some (consField key v (some []), rest)
            | _ => none
        | _ => none
    | _ => none
end

/-- The value a text denotes, blanks around it allowed. -/
def readChars? (cs : List Char) : Option Json :=
  match readValue (2 * cs.length + 1) cs with
  | some (v, rest) => if skipSpace rest = [] then some v else none
  | none => none

/-- The value a text denotes, blanks around it allowed. -/
def read? (s : String) : Option Json := readChars? s.toList

end Mutation.Json
