/-!
# Bytes read as text

UTF-8 with a mark in the place of what is not text. The first byte of a character says how many
bytes follow it and bounds the next one; every later one lies between `0x80` and `0xBF`. Where a
character breaks off, its bytes up to there stand for one mark, and reading goes on with the byte
that does not belong to it.
-/

namespace Mutation.Text

/-- The mark in the place of bytes that are not text. -/
def mark : Char := Char.ofNat 0xFFFD

/-- A character of which some bytes are read: the number they make up, how many bytes are to
follow, and the bounds of the next one. -/
structure Begun where
  code : Nat
  left : Nat
  least : Nat := 0x80
  most : Nat := 0xBF

/-- The character that a first byte begins. -/
def begin? (b : Nat) : Option Begun :=
  if b < 0x80 then some { code := b, left := 0 }
  else if b < 0xC2 then none
  else if b < 0xE0 then some { code := b - 0xC0, left := 1 }
  else if b = 0xE0 then some { code := 0, left := 2, least := 0xA0 }
  else if b = 0xED then some { code := 0xD, left := 2, most := 0x9F }
  else if b < 0xF0 then some { code := b - 0xE0, left := 2 }
  else if b = 0xF0 then some { code := 0, left := 3, least := 0x90 }
  else if b < 0xF4 then some { code := b - 0xF0, left := 3 }
  else if b = 0xF4 then some { code := 4, left := 3, most := 0x8F }
  else none

/-- The number of the character when all its bytes are there, and the bytes after them. -/
def complete : (code left least most : Nat) → List UInt8 → Option Nat × List UInt8
  | code, 0, _, _, bytes => (some code, bytes)
  | _, _ + 1, _, _, [] => (none, [])
  | code, left + 1, least, most, b :: bytes =>
    if least ≤ b.toNat ∧ b.toNat ≤ most then
      complete (64 * code + (b.toNat - 0x80)) left 0x80 0xBF bytes
    else (none, b :: bytes)

theorem length_complete_le (code left least most : Nat) (bytes : List UInt8) :
    (complete code left least most bytes).2.length ≤ bytes.length := by
  fun_induction complete code left least most bytes with
  | case1 => exact Nat.le_refl _
  | case2 => exact Nat.le_refl _
  | case3 _ _ _ _ _ _ _ ih => exact Nat.le_succ_of_le ih
  | case4 => exact Nat.le_refl _

/-- The characters of some bytes, marks in the place of what is not text. -/
def decodeChars : List UInt8 → List Char
  | [] => []
  | b :: bytes =>
    match begin? b.toNat with
    | none => mark :: decodeChars bytes
    | some c =>
      let result := complete c.code c.left c.least c.most bytes
      (result.1.map Char.ofNat).getD mark :: decodeChars result.2
termination_by bytes => bytes.length
decreasing_by
  · exact Nat.lt_succ_self _
  · exact Nat.lt_succ_of_le (length_complete_le ..)

/-- The text of some bytes, marks in the place of what is not text. -/
def decode (bytes : ByteArray) : String := String.ofList (decodeChars bytes.toList)

/-- A byte below `0x80` is a character by itself. -/
theorem decodeChars_cons_of_lt {b : UInt8} (h : b.toNat < 0x80) (bytes : List UInt8) :
    decodeChars (b :: bytes) = Char.ofNat b.toNat :: decodeChars bytes := by
  simp [decodeChars, begin?, complete, h]

end Mutation.Text
