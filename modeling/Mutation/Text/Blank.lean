/-!
# Blank characters, trimming and splitting

Texts a user types (locations, operator codes, operator arguments) may be surrounded by
blanks, where a blank is any character with the Unicode property `White_Space`. Everything
here works on lists of characters, the view of a text the rest of the library reasons about;
the functions on `String` only convert.
-/

namespace Mutation.Text

/-- The characters with the Unicode property `White_Space`. -/
def isBlank (c : Char) : Bool :=
  let n := c.toNat
  (9 ≤ n && n ≤ 13) || n == 0x20 || n == 0x85 || n == 0xA0 || n == 0x1680 ||
    (0x2000 ≤ n && n ≤ 0x200A) || n == 0x2028 || n == 0x2029 || n == 0x202F ||
    n == 0x205F || n == 0x3000

/-- A list without the elements of `p` at its end. -/
def dropEndWhile (p : Char → Bool) (cs : List Char) : List Char :=
  (cs.reverse.dropWhile p).reverse

/-- A text without the blanks at either end. -/
def trimChars (cs : List Char) : List Char :=
  dropEndWhile isBlank (cs.dropWhile isBlank)

/-- A text without the blanks at either end. -/
def trim (s : String) : String :=
  String.ofList (trimChars s.toList)

/-- Whether a text is empty or holds blanks only. -/
def isBlankText (s : String) : Bool :=
  s.toList.all isBlank

/-- The parts before and after the first `sep`; `none` when it does not occur. -/
def splitFirst (sep : Char) : List Char → Option (List Char × List Char)
  | [] => none
  | c :: cs =>
    if c = sep then some ([], cs)
    else (splitFirst sep cs).map fun (a, b) => (c :: a, b)

/-- All parts between occurrences of `sep`; at least one part. -/
def splitAll (sep : Char) : List Char → List (List Char)
  | [] => [[]]
  | c :: cs =>
    if c = sep then [] :: splitAll sep cs
    else
      match splitAll sep cs with
      | [] => [[c]]
      | part :: parts => (c :: part) :: parts

/-- ASCII letters in lower case become upper case; all else stays. -/
def upperChar (c : Char) : Char :=
  if 'a' ≤ c ∧ c ≤ 'z' then Char.ofNat (c.toNat - 32) else c

/-- Two texts are the same up to the case of ASCII letters. -/
def sameLetters (a b : String) : Bool :=
  a.toList.map upperChar == b.toList.map upperChar

/-- The texts joined with `sep` between them. -/
def joinWith (sep : String) (parts : List String) : String :=
  sep.intercalate parts

end Mutation.Text
