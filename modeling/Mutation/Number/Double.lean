/-!
# Binary64 numbers

A `Double` is the 64 bits of a binary floating-point number: sign, eleven exponent bits and
fifty-two fraction bits. The finite ones denote `± significand · 2 ^ scale`; every rounding is
to the nearest number, a half going to the even significand, and is computed exactly in `Nat`.
Two comparisons matter: equality of bits (`=`), and `same`, the comparison of the values, for
which the two zeros are the same and not-a-number differs from everything.
-/

namespace Mutation

/-- A binary64 number, by its bits. -/
structure Double where
  bits : UInt64
deriving DecidableEq

namespace Double

/-- The sign bit. -/
def negative (x : Double) : Bool := Nat.pow 2 63 ≤ x.bits.toNat

/-- The bits below the sign. -/
def magnitude (x : Double) : Nat := x.bits.toNat % Nat.pow 2 63

/-- The magnitude of the infinities. -/
def infinite : Nat := 2047 * Nat.pow 2 52

/-- Sign and magnitude put together. -/
def ofMagnitude (negative : Bool) (magnitude : Nat) : Double :=
  ⟨UInt64.ofNat (magnitude + if negative then Nat.pow 2 63 else 0)⟩

/-- A quiet not-a-number. -/
def nan : Double := ofMagnitude false (infinite + Nat.pow 2 51)

/-- An infinity. -/
def infinity (negative : Bool) : Double := ofMagnitude negative infinite

/-- Positive zero. -/
def zero : Double := ⟨0⟩

/-- Neither an infinity nor not-a-number. -/
def isFinite (x : Double) : Bool := x.magnitude < infinite

/-- Not-a-number. -/
def isNaN (x : Double) : Bool := infinite < x.magnitude

/-- Either zero. -/
def isZero (x : Double) : Bool := x.magnitude == 0

/-- Comparison of values: the zeros are the same, not-a-number is the same as nothing. -/
def same (x y : Double) : Bool :=
  !x.isNaN && !y.isNaN && (x.bits == y.bits || (x.isZero && y.isZero))

/-- The integer `m` of the value `± m · 2 ^ scale`. -/
def significand (x : Double) : Nat :=
  if x.magnitude < Nat.pow 2 52 then x.magnitude
  else Nat.pow 2 52 + x.magnitude % Nat.pow 2 52

/-- The exponent `q` of the value `± significand · 2 ^ q`. -/
def scale (x : Double) : Int :=
  (max (x.magnitude / Nat.pow 2 52) 1 : Nat) - 1075

/-- The quotient rounded to the nearest integer, a half going to the even one. -/
def roundDiv (num den : Nat) : Nat :=
  let q := num / den
  let r := num % den
  if 2 * r < den then q else if den < 2 * r then q + 1 else q + q % 2

/-- The `e` with `2 ^ e ≤ num / den < 2 ^ (e + 1)`, for positive arguments. -/
def ratioLog2 (num den : Nat) : Int :=
  let k : Int := (num.log2 : Int) - den.log2
  let reached := if 0 ≤ k then den * Nat.pow 2 k.toNat ≤ num else den ≤ num * Nat.pow 2 (-k).toNat
  if reached then k else k - 1

/-- The number nearest to `num / den`, with the given sign. -/
def ofRatio (negative : Bool) (num den : Nat) : Double :=
  if num = 0 then ofMagnitude negative 0
  else
    let q := max (ratioLog2 num den - 52) (-1074)
    let r :=
      if 0 ≤ q then roundDiv num (den * Nat.pow 2 q.toNat)
      else roundDiv (num * Nat.pow 2 (-q).toNat) den
    ofMagnitude negative (min ((q + 1074).toNat * Nat.pow 2 52 + r) infinite)

/-- The sum of a number and an integer, rounded. An exact zero is positive. -/
def plusInt (x : Double) (d : Int) : Double :=
  if x.isFinite then
    let m : Int := if x.negative then -x.significand else x.significand
    let q := x.scale
    let num := if 0 ≤ q then m * Nat.pow 2 q.toNat + d else m + d * Nat.pow 2 (-q).toNat
    let den := if 0 ≤ q then 1 else Nat.pow 2 (-q).toNat
    ofRatio (num < 0) num.natAbs den
  else x

/-- The integer as a number, exact for small integers. -/
def ofNat (n : Nat) : Double := ofRatio false n 1

/-- Numerator and denominator of the absolute value of a finite number. -/
def ratio (x : Double) : Nat × Nat :=
  if 0 ≤ x.scale then (x.significand * Nat.pow 2 x.scale.toNat, 1)
  else (x.significand, Nat.pow 2 (-x.scale).toNat)

end Double

end Mutation
