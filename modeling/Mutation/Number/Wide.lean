import Mutation.Text.Numeral

/-!
# 128-bit integers

The integer literals of a tree are signed 128-bit integers. `Wide` is an integer with a proof
that it is in range, so arithmetic on literals is arithmetic on `Int` followed by `ofInt?`,
which refuses a result out of range.
-/

namespace Mutation

/-- The first integer above the range, `2 ^ 127`. -/
def Wide.limit : Int := Nat.pow 2 127

/-- An integer from `-2 ^ 127` to `2 ^ 127 - 1`. -/
structure Wide where
  val : Int
  lower : -Wide.limit ≤ val
  upper : val < Wide.limit
deriving DecidableEq

namespace Wide

/-- The integer with value `n`, when it is in range. -/
def ofInt? (n : Int) : Option Wide :=
  if h : -limit ≤ n ∧ n < limit then some ⟨n, h.1, h.2⟩ else none

/-- Zero. -/
def zero : Wide := ⟨0, by decide, by decide⟩

/-- The number `n`, or the largest integer when `n` is beyond it. -/
def clampNat (n : Nat) : Wide :=
  (ofInt? n).getD ⟨limit - 1, by decide, by decide⟩

/-- A small number, which is in range whatever its value. -/
def ofByte (n : UInt8) : Wide :=
  clampNat n.toNat

theorem ofInt?_val (w : Wide) : ofInt? w.val = some w :=
  dif_pos ⟨w.lower, w.upper⟩

theorem ofInt?_eq_some_iff {n : Int} {w : Wide} : ofInt? n = some w ↔ w.val = n := by
  constructor
  · intro h
    unfold ofInt? at h
    split at h
    · rw [← Option.some.inj h]
    · cases h
  · intro h
    rw [← h, ofInt?_val]

/-- The digits of the value, after a `-` when it is negative. -/
def text (w : Wide) : String :=
  String.ofList (Text.intChars w.val)

/-- A signed numeral in range. -/
def read? (cs : List Char) : Option Wide :=
  (Text.readInt? cs).bind ofInt?

end Wide

end Mutation
