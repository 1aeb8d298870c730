import Mutation.Json.Value

/-!
# JSON text, written

Text is written in front of a given rest, so that what a value's text is followed by is a
parameter and no intermediate text is built. Control characters, quotes and backslashes are
escaped. A value is written without blanks, or over several lines with the inside of arrays and
objects indented by two blanks.
-/

namespace Mutation.Json

/-- The lower-case hexadecimal digit of `n < 16`. -/
def hexDigit (n : Nat) : Char :=
  if n < 10 then Char.ofNat (48 + n) else Char.ofNat (87 + n)

/-- Decimals are written positionally from `0.00001` up to below `10 ^ 16`; an exponent has its
sign. -/
def realFormat : RealFormat where
  least := -5
  most := 15
  signed := true
  tie := .even
  nan := "null"
  infinity := "null"

/-- The letter that stands for a control character after a backslash. -/
def escapeLetter? (c : Char) : Option Char :=
  if c = '\n' then some 'n'
  else if c = '\r' then some 'r'
  else if c = '\t' then some 't'
  else if c.toNat = 8 then some 'b'
  else if c.toNat = 12 then some 'f'
  else none

/-- One character of a string. -/
def writeChar (c : Char) (rest : List Char) : List Char :=
  match escapeLetter? c with
  | some letter => '\\' :: letter :: rest
  | none =>
    if c = '"' ∨ c = '\\' then '\\' :: c :: rest
    else if c.toNat < 32 then
      '\\' :: 'u' :: '0' :: '0' :: hexDigit (c.toNat / 16) :: hexDigit (c.toNat % 16) :: rest
    else c :: rest

/-- The characters of a string and its closing quote. -/
def writeChars : List Char → List Char → List Char
  | [], rest => '"' :: rest
  | c :: cs, rest => writeChar c (writeChars cs rest)

/-- A quoted string. -/
def writeString (s : String) (rest : List Char) : List Char :=
  '"' :: writeChars s.toList rest

/-- A sign, when there is one. -/
def writeSign (negative : Bool) (rest : List Char) : List Char :=
  if negative then '-' :: rest else rest

mutual
/-- The text of a value, followed by `rest`. -/
def write : Json → List Char → List Char
  | .null, rest => 'n' :: 'u' :: 'l' :: 'l' :: rest
  | .bool true, rest => 't' :: 'r' :: 'u' :: 'e' :: rest
  | .bool false, rest => 'f' :: 'a' :: 'l' :: 's' :: 'e' :: rest
  | .int negative n, rest => writeSign negative (Text.natChars n ++ rest)
  | .decimal negative d, rest =>
    realFormat.writeDecimal negative d ++ rest
  | .str s, rest => writeString s rest
  | .garbled, rest => '"' :: '\\' :: 'u' :: 'd' :: '8' :: '0' :: '0' :: '"' :: rest
  | .arr [], rest => '[' :: ']' :: rest
  | .arr (v :: vs), rest => '[' :: write v (writeItems vs rest)
  | .obj [], rest => '{' :: '}' :: rest
  | .obj ((k, v) :: fs), rest => '{' :: writeString k (':' :: write v (writeFields fs rest))

/-- The further items of an array and its end, followed by `rest`. -/
def writeItems : List Json → List Char → List Char
  | [], rest => ']' :: rest
  | v :: vs, rest => ',' :: write v (writeItems vs rest)

/-- The further fields of an object and its end, followed by `rest`. -/
def writeFields : List (String × Json) → List Char → List Char
  | [], rest => '}' :: rest
  | (k, v) :: fs, rest => ',' :: writeString k (':' :: write v (writeFields fs rest))
end

/-- A new line with an indentation. -/
def newLine (depth : Nat) (rest : List Char) : List Char :=
  '\n' :: (List.replicate (2 * depth) ' ' ++ rest)

mutual
/-- The text of a value over several lines, followed by `rest`; lines inside it are indented
below `depth`. -/
def writePretty (depth : Nat) : Json → List Char → List Char
  | .arr (v :: vs), rest =>
    '[' :: newLine (depth + 1) (writePretty (depth + 1) v (prettyItems depth vs rest))
  | .obj ((k, v) :: fs), rest =>
    '{' :: newLine (depth + 1) (writeString k (':' :: ' ' ::
      writePretty (depth + 1) v (prettyFields depth fs rest)))
  | .arr [], rest => write (.arr []) rest
  | .obj [], rest => write (.obj []) rest
  | .null, rest => write .null rest
  | .bool b, rest => write (.bool b) rest
  | .int negative n, rest => write (.int negative n) rest
  | .decimal negative d, rest => write (.decimal negative d) rest
  | .str s, rest => write (.str s) rest
  | .garbled, rest => write .garbled rest

/-- The further items of an array and its end, followed by `rest`. -/
def prettyItems (depth : Nat) : List Json → List Char → List Char
  | [], rest => newLine depth (']' :: rest)
  | v :: vs, rest =>
    ',' :: newLine (depth + 1) (writePretty (depth + 1) v (prettyItems depth vs rest))

/-- The further fields of an object and its end, followed by `rest`. -/
def prettyFields (depth : Nat) : List (String × Json) → List Char → List Char
  | [], rest => newLine depth ('}' :: rest)
  | (k, v) :: fs, rest =>
    ',' :: newLine (depth + 1) (writeString k (':' :: ' ' ::
      writePretty (depth + 1) v (prettyFields depth fs rest)))
end

/-- The text of a value over several lines. -/
def pretty (j : Json) : String := String.ofList (writePretty 0 j [])

/-- The text of a value. -/
def text (j : Json) : String := String.ofList (write j [])

end Mutation.Json
