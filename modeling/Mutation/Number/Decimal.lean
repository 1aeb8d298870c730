import Mutation.Number.Double
import Mutation.Text.Numeral

/-!
# Decimal texts of binary64 numbers

Writing takes the fewest decimal digits that read back as the same number, the nearest such
decimal, and of two equally near ones the larger or the even one, by the format. Reading rounds the exact decimal value to
the nearest number. `decimalOf` checks each candidate by reading it, so what it answers before
its last resort reads back by construction; the last resort is the exact decimal value.
-/

namespace Mutation

/-- The decimal number `mantissa · 10 ^ exponent`. -/
structure Decimal where
  mantissa : Nat
  exponent : Int
deriving DecidableEq

/-- Which of two equally near decimals is taken: the larger, or the one with an even mantissa. -/
inductive Tie where
  | larger | even
deriving DecidableEq

namespace Decimal

/-- The number nearest to a decimal. Exponents far out of range are settled without computing
the power. -/
def toDouble (negative : Bool) (d : Decimal) : Double :=
  let size := d.exponent + (Text.natChars d.mantissa).length
  if d.mantissa = 0 ∨ size < -400 then Double.ofMagnitude negative 0
  else if 400 < size then Double.infinity negative
  else if 0 ≤ d.exponent then Double.ofRatio negative (d.mantissa * Nat.pow 10 d.exponent.toNat) 1
  else Double.ofRatio negative d.mantissa (Nat.pow 10 (-d.exponent).toNat)

/-- The decimal without zeros at the end of its mantissa; `fuel` bounds their number. -/
def dropZeros : Nat → Decimal → Decimal
  | 0, d => d
  | fuel + 1, d =>
    if d.mantissa ≠ 0 ∧ d.mantissa % 10 = 0 then
      dropZeros fuel ⟨d.mantissa / 10, d.exponent + 1⟩
    else d

/-- The `p` with `10 ^ p ≤ num / den < 10 ^ (p + 1)`, for positive arguments. -/
def ratioLog10 (num den : Nat) : Int :=
  if den ≤ num then ((Text.natChars (num / den)).length : Int) - 1
  else
    let size := (Text.natChars (den / num)).length
    if den ≤ num * Nat.pow 10 (size - 1) then -((size : Int) - 1) else -(size : Int)

/-- The lower of two neighbours is taken, when the quotient lies `r / d` above it and the lower
one has the mantissa `m`. -/
def takesLower (tie : Tie) (m r d : Nat) : Bool :=
  2 * r < d || (2 * r == d && tie == .even && m % 2 == 0)

/-- The decimal with `size` digits nearest to `num / den` that `reads` accepts, if one of the
two neighbours of the quotient on that grid is accepted. -/
def onGrid? (tie : Tie) (reads : Decimal → Bool) (num den : Nat) (p : Int) (size : Nat) :
    Option Decimal :=
  let unit := p - size + 1
  let n := if unit < 0 then num * Nat.pow 10 (-unit).toNat else num
  let d := if unit < 0 then den else den * Nat.pow 10 unit.toNat
  let below : Decimal := ⟨n / d, unit⟩
  let above : Decimal := ⟨n / d + 1, unit⟩
  match reads below, reads above with
  | true, true => some (if takesLower tie (n / d) (n % d) d then below else above)
  | true, false => some below
  | false, true => some above
  | false, false => none

/-- The exact decimal value of `num / 2 ^ k`. -/
def exact (num k : Nat) : Decimal :=
  ⟨num * Nat.pow 5 k, -(k : Int)⟩

end Decimal

/-- The decimal a finite number is written as: the absolute value in the fewest digits. -/
def Double.decimalOf (x : Double) (tie : Tie) : Decimal :=
  if x.isZero then ⟨0, 0⟩
  else
    let (num, den) := x.ratio
    let p := Decimal.ratioLog10 num den
    let reads := fun d : Decimal => d.toDouble false == Double.ofMagnitude false x.magnitude
    match (List.range 17).findSome? fun k => Decimal.onGrid? tie reads num den p (k + 1) with
    | some d => d.dropZeros 17
    | none => Decimal.exact num (-x.scale).toNat

/-- How a real number is written: the exponents of ten from `least` to `most` positionally
with at least one digit on each side of the point, the others with an exponent, which has a sign
in any case when `signed` holds; `tie` settles which decimal is taken. -/
structure RealFormat where
  least : Int
  most : Int
  signed : Bool
  tie : Tie
  nan : String
  infinity : String

namespace RealFormat

/-- The digits `ds` with the point after the first `k` of them. -/
def positional (ds : List Char) (k : Int) : List Char :=
  if k ≤ 0 then '0' :: '.' :: (List.replicate (-k).toNat '0' ++ ds)
  else
    let whole := ds.take k.toNat ++ List.replicate (k.toNat - ds.length) '0'
    match ds.drop k.toNat with
    | [] => whole ++ ['.', '0']
    | rest => whole ++ '.' :: rest

/-- The exponent `e` of ten. -/
def power (f : RealFormat) (e : Int) : List Char :=
  'e' :: if f.signed ∧ 0 ≤ e then '+' :: Text.intChars e else Text.intChars e

/-- The digits `ds` with the point after the first and the exponent `e` of ten. -/
def scientific (f : RealFormat) (ds : List Char) (e : Int) : List Char :=
  match ds with
  | [] => []
  | [d] => d :: f.power e
  | d :: rest => d :: '.' :: rest ++ f.power e

/-- The text of a sign and a decimal. -/
def writeDecimal (f : RealFormat) (negative : Bool) (d : Decimal) : List Char :=
  let ds := Text.natChars d.mantissa
  let e := d.exponent + ds.length - 1
  (if negative then ['-'] else []) ++
    if d.mantissa = 0 ∨ (f.least ≤ e ∧ e ≤ f.most) then positional ds (e + 1)
    else f.scientific ds e

/-- The text of a number. -/
def write (f : RealFormat) (x : Double) : String :=
  if x.isNaN then f.nan
  else if x.isFinite then String.ofList (f.writeDecimal x.negative (x.decimalOf f.tie))
  else if x.negative then "-" ++ f.infinity
  else f.infinity

end RealFormat

/-- The digits at the front of a text and what follows them. -/
def spanDigits (cs : List Char) : List Char × List Char :=
  cs.span Char.isDigit

/-- The exponent part of a real numeral: nothing, or `e` with an optional sign and digits. -/
def readExponent? : List Char → Option Int
  | [] => some 0
  | c :: cs => if c = 'e' ∨ c = 'E' then Text.readInt? cs else none

/-- A real numeral without its sign: digits, an optional point and digits, an optional
exponent, and at least one digit before the exponent. -/
def readDecimal? (cs : List Char) : Option Decimal :=
  let (whole, rest) := spanDigits cs
  let (fraction, rest) :=
    match rest with
    | '.' :: rest => spanDigits rest
    | rest => ([], rest)
  match Text.digits? (whole ++ fraction), readExponent? rest with
  | some m, some e => some ⟨m, e - fraction.length⟩
  | _, _ => none

/-- The words for numbers that have no digits, in any case. -/
def readSpecial? (negative : Bool) (cs : List Char) : Option Double :=
  let word := String.ofList cs
  if Text.sameLetters word "inf" || Text.sameLetters word "infinity" then
    some (Double.infinity negative)
  else if Text.sameLetters word "nan" then some Double.nan
  else none

/-- The number a text denotes: an optional sign, then a numeral or a word. -/
def Double.read? (cs : List Char) : Option Double :=
  let (negative, body) :=
    match cs with
    | '-' :: rest => (true, rest)
    | '+' :: rest => (false, rest)
    | _ => (false, cs)
  match readDecimal? body with
  | some d => some (d.toDouble negative)
  | none => readSpecial? negative body

end Mutation
