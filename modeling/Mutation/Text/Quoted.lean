import Mutation.Text.Numeral
import Mutation.Text.Hidden

/-!
# Quoted texts

A text in double quotes, with escapes for what cannot be seen: a letter for the common control
characters and the hexadecimal code for the others.
-/

namespace Mutation.Text

/-- A character between double quotes. -/
def quoteChar (c : Char) : List Char :=
  if c = '"' then ['\\', '"']
  else if c = '\\' then ['\\', '\\']
  else if c = '\n' then ['\\', 'n']
  else if c = '\r' then ['\\', 'r']
  else if c = '\t' then ['\\', 't']
  else if c.toNat = 0 then ['\\', '0']
  else if isHidden c then "\\u\x7b".toList ++ Nat.toDigits 16 c.toNat ++ ['}']
  else [c]

/-- A text in double quotes. -/
def quote (s : String) : String :=
  String.ofList ('"' :: (s.toList.flatMap quoteChar ++ ['"']))

/-- Some texts in double quotes, as a list in brackets. -/
def quoteAll (texts : List String) : String := "[" ++ joinWith ", " (texts.map quote) ++ "]"

end Mutation.Text
