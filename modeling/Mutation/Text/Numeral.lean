import Mutation.Text.Blank

/-!
# Decimal numerals

An unsigned numeral is an optional `+` and at least one ASCII digit; a signed one may have a
`-` instead. Leading zeros are allowed. Readers of bounded numbers refuse what is out of range.
-/

namespace Mutation.Text

/-- The value of an ASCII digit. -/
def digit? (c : Char) : Option Nat :=
  if '0' ≤ c ∧ c ≤ '9' then some (c.toNat - 48) else none

/-- The value of a digit sequence, continuing from `acc`; `none` at the first other character. -/
def digitsFrom? (acc : Nat) : List Char → Option Nat
  | [] => some acc
  | c :: cs => (digit? c).bind fun d => digitsFrom? (10 * acc + d) cs

/-- The value of a non-empty digit sequence. -/
def digits? : List Char → Option Nat
  | [] => none
  | c :: cs => digitsFrom? 0 (c :: cs)

/-- An unsigned numeral: an optional `+`, then digits. -/
def readNat? : List Char → Option Nat
  | '+' :: cs => digits? cs
  | cs => digits? cs

/-- A signed numeral: an optional `+` or `-`, then digits. -/
def readInt? : List Char → Option Int
  | '-' :: cs => (digits? cs).map fun n => -(n : Int)
  | cs => (readNat? cs).map fun n => (n : Int)

/-- An unsigned numeral of at most 32 bits. -/
def readWord32? (cs : List Char) : Option UInt32 :=
  (readNat? cs).bind fun n => if n < UInt32.size then some (UInt32.ofNat n) else none

/-- An unsigned numeral of at most 64 bits. -/
def readWord64? (cs : List Char) : Option UInt64 :=
  (readNat? cs).bind fun n => if n < UInt64.size then some (UInt64.ofNat n) else none

/-- The digits of a natural number. -/
def natChars (n : Nat) : List Char :=
  Nat.toDigits 10 n

/-- The digits of a natural number. -/
def natText (n : Nat) : String :=
  String.ofList (natChars n)

/-- The digits of an integer, after a `-` when it is negative. -/
def intChars : Int → List Char
  | .ofNat n => natChars n
  | .negSucc n => '-' :: natChars (n + 1)

end Mutation.Text
