import Mutation.Proofs.NumberText

/-!
# JSON text read back

What is written over several lines is read as the value that was written, except that a whole
number which was written with a point is read with the zero after the point (`Json.read?_pretty`).
Reading a value takes two steps for each of its characters at most, so the steps that the reader
allows itself are enough.
-/

namespace Mutation.Json

variable {negative : Bool} {rest : List Char}

/-! ### Strings -/

theorem hex?_hexDigit : ∀ n < 16, hex? (hexDigit n) = some n := by decide

/-- A letter after a backslash stands for the character it was written for. -/
theorem simpleEscape?_letter {c letter : Char} (h : escapeLetter? c = some letter) :
    letter ≠ 'u' ∧ simpleEscape? letter = some c := by
  have of_code (c : Char) (n : Nat) (h : c.toNat = n) : c = Char.ofNat n := by
    rw [← h, Char.ofNat_toNat]
  unfold escapeLetter? at h
  split_ifs at h with newline return' tab back feed <;> cases h
  · rw [newline]
    decide
  · rw [return']
    decide
  · rw [tab]
    decide
  · rw [of_code c 8 back]
    decide
  · rw [of_code c 12 feed]
    decide

/-- A backslash with a character other than `u` after it. -/
theorem readUnits_simple {c d : Char} (plain : d ≠ 'u') (stands : simpleEscape? d = some c)
    (rest : List Char) :
    readUnits ('\\' :: d :: rest) = (readUnits rest).map fun r => (c.toNat :: r.1, r.2) := by
  have opened : readUnits ('\\' :: d :: rest) =
      (readUnits rest).bind fun r => some (c.toNat :: r.1, r.2) := by
    rw [readUnits.eq_def]
    simp [stands, plain]
  rw [opened]
  cases readUnits rest <;> rfl

/-- A character is read as one unit, however it is written. -/
theorem readUnits_writeChar (c : Char) (rest : List Char) :
    readUnits (writeChar c rest) = (readUnits rest).map fun r => (c.toNat :: r.1, r.2) := by
  unfold writeChar
  split
  · rename_i letter found
    obtain ⟨plain, stands⟩ := simpleEscape?_letter found
    exact readUnits_simple plain stands rest
  · split
    · rename_i special
      refine readUnits_simple ?_ (if_pos ?_) rest
      · rcases special with rfl | rfl <;> decide
      · rcases special with rfl | rfl <;> decide
    · rename_i plain
      rw [not_or] at plain
      split
      · rename_i control
        have high : c.toNat / 16 < 16 := by omega
        have low : c.toNat % 16 < 16 := by omega
        have code : hex4? '0' '0' (hexDigit (c.toNat / 16)) (hexDigit (c.toNat % 16)) =
            some c.toNat := by
          have zero : hex? '0' = some 0 := by decide
          rw [hex4?, hex?_hexDigit _ high, hex?_hexDigit _ low, zero]
          simp only [Option.bind_eq_bind, Option.bind_some, Option.pure_def]
          congr 1
          omega
        rw [readUnits, code]
        cases readUnits rest <;> rfl
      · rename_i printed
        rw [readUnits.eq_def]
        simp [plain, printed]

theorem joinUnits_toNat (cs : List Char) : joinUnits (cs.map Char.toNat) = some cs := by
  have whole (c : Char) : isHigh c.toNat = false ∧ isLow c.toNat = false := by
    have valid : c.toNat < 0xD800 ∨ 0xDFFF < c.toNat ∧ c.toNat < 0x110000 := c.valid
    simp only [isHigh, isLow, Bool.and_eq_false_iff, decide_eq_false_iff_not]
    omega
  induction cs with
  | nil => rfl
  | cons c cs ih =>
    cases cs with
    | nil => simp [joinUnits, whole c]
    | cons d cs =>
      rw [List.map_cons, List.map_cons, joinUnits, (whole c).1, (whole c).2, ← List.map_cons, ih]
      simp

/-- The characters of a string are read back from their escapes, up to the closing quote. -/
theorem readUnits_writeChars (cs : List Char) (rest : List Char) :
    readUnits (writeChars cs rest) = some (cs.map Char.toNat, rest) := by
  induction cs with
  | nil => rfl
  | cons c cs ih =>
    rw [writeChars, readUnits_writeChar, ih]
    rfl

/-- So is the string. -/
theorem readString_writeChars (s : String) (rest : List Char) :
    readString (writeChars s.toList rest) = some (some s, rest) := by
  simp [readString, readUnits_writeChars, joinUnits_toNat]

/-! ### What a value is read as -/

mutual
/-- The value that is read where a value is written: whole numbers with a point have a zero after
the point. -/
def reread : Json → Json
  | .null => .null
  | .bool b => .bool b
  | .int negative n => .int negative n
  | .decimal negative d => .decimal negative (realFormat.reread d)
  | .str s => .str s
  | .garbled => .garbled
  | .arr items => .arr (rereadItems items)
  | .obj fields => .obj (rereadFields fields)

def rereadItems : List Json → List Json
  | [] => []
  | v :: vs => v.reread :: rereadItems vs

def rereadFields : List (String × Json) → List (String × Json)
  | [] => []
  | (k, v) :: fs => (k, v.reread) :: rereadFields fs
end

mutual
/-- Every number is a number when it is written: a zero has no exponent, which would be written as
zeros before the point. -/
def Legible : Json → Prop
  | .decimal _ d => d.mantissa = 0 → d.exponent = 0
  | .arr items => LegibleItems items
  | .obj fields => LegibleFields fields
  | _ => True

def LegibleItems : List Json → Prop
  | [] => True
  | v :: vs => v.Legible ∧ LegibleItems vs

def LegibleFields : List (String × Json) → Prop
  | [] => True
  | (_, v) :: fs => v.Legible ∧ LegibleFields fs
end

/-! ### Blanks and first characters -/

/-- A line break with its indentation is white space. -/
theorem skipSpace_newLine (depth : Nat) (cs : List Char) :
    skipSpace (newLine depth cs) = skipSpace cs := by
  have blank : ∀ c ∈ List.replicate (2 * depth) ' ', isSpace c = true := by
    intro c hc
    rw [List.eq_of_mem_replicate hc]
    rfl
  rw [skipSpace, newLine, List.dropWhile_cons_of_pos rfl, List.dropWhile_append_of_pos blank,
    skipSpace]

theorem skipSpace_cons {c : Char} (solid : isSpace c = false) (cs : List Char) :
    skipSpace (c :: cs) = c :: cs :=
  List.dropWhile_cons_of_neg (by simp [solid])

theorem skipSpace_skipSpace (cs : List Char) : skipSpace (skipSpace cs) = skipSpace cs := by
  induction cs with
  | nil => rfl
  | cons c cs ih =>
    cases solid : isSpace c with
    | true =>
      have skips : skipSpace (c :: cs) = skipSpace cs := List.dropWhile_cons_of_pos solid
      rw [skips, ih]
    | false => rw [skipSpace_cons solid, skipSpace_cons solid]

/-- A value is read behind white space as it is without. -/
theorem readValue_skipSpace (fuel : Nat) (cs : List Char) :
    readValue fuel (skipSpace cs) = readValue fuel cs := by
  cases fuel with
  | zero => rfl
  | succ fuel => rw [readValue, readValue, skipSpace_skipSpace]

/-- A new line in front of a value is skipped. -/
theorem readValue_newLine (fuel depth : Nat) (cs : List Char) :
    readValue fuel (newLine depth cs) = readValue fuel cs := by
  rw [← readValue_skipSpace, skipSpace_newLine, readValue_skipSpace]

/-- So are items. -/
theorem readItems_newLine (fuel depth : Nat) (cs : List Char) :
    readItems fuel (newLine depth cs) = readItems fuel cs := by
  cases fuel with
  | zero => rfl
  | succ fuel => rw [readItems, readItems, readValue_newLine]

/-- And fields. -/
theorem readFields_newLine (fuel depth : Nat) (cs : List Char) :
    readFields fuel (newLine depth cs) = readFields fuel cs := by
  cases fuel with
  | zero => rfl
  | succ fuel => rw [readFields, readFields, skipSpace_newLine]

theorem isSpace_of_isDigit {c : Char} (digit : c.isDigit = true) : isSpace c = false := by
  unfold isSpace
  simp only [Bool.or_eq_false_iff, beq_eq_false_iff_ne]
  refine ⟨⟨⟨?_, ?_⟩, ?_⟩, ?_⟩ <;> rintro rfl <;> cases digit

/-- A decimal without its sign starts with a digit. -/
theorem writeDecimal_head (f : RealFormat) (d : Decimal) :
    ∃ c cs, f.writeDecimal false d = c :: cs ∧ c.isDigit = true := by
  have digits : ∀ c ∈ Text.natChars d.mantissa, c.isDigit = true :=
    fun _ => Text.isDigit_of_mem_natChars
  cases chars : Text.natChars d.mantissa with
  | nil => exact absurd chars (Text.natChars_ne_nil _)
  | cons c cs =>
    rw [chars] at digits
    have digit := digits c List.mem_cons_self
    unfold RealFormat.writeDecimal RealFormat.positional
    dsimp only
    rw [if_neg Bool.false_ne_true, List.nil_append, chars]
    split
    · split
      · exact ⟨_, _, rfl, rfl⟩
      · rename_i some
        obtain ⟨k, hk⟩ : ∃ k, (d.exponent + ((c :: cs).length : Int) - 1 + 1).toNat = k + 1 :=
          ⟨_, (Nat.succ_pred_eq_of_pos (by omega)).symm⟩
        rw [hk, List.take_succ_cons]
        split
        · exact ⟨_, _, rfl, digit⟩
        · exact ⟨_, _, rfl, digit⟩
    · cases cs with
      | nil => exact ⟨_, _, rfl, digit⟩
      | cons c' cs => exact ⟨_, _, rfl, digit⟩

/-- A decimal is its sign and then its digits. -/
theorem writeDecimal_append (f : RealFormat) (negative : Bool) (d : Decimal) (rest : List Char) :
    f.writeDecimal negative d ++ rest = writeSign negative (f.writeDecimal false d ++ rest) := by
  cases negative <;> rfl

/-- A written value begins neither with a blank nor with the end of an array. -/
theorem writePretty_head (depth : Nat) (j : Json) (rest : List Char) :
    ∃ c cs, writePretty depth j rest = c :: cs ∧ isSpace c = false ∧ c ≠ ']' := by
  have signed (negative : Bool) {c : Char} (ds : List Char) (digit : c.isDigit = true) :
      ∃ d cs, writeSign negative (c :: ds) = d :: cs ∧ isSpace d = false ∧ d ≠ ']' := by
    cases negative with
    | false =>
      refine ⟨c, ds, rfl, isSpace_of_isDigit digit, ?_⟩
      rintro rfl
      cases digit
    | true => exact ⟨'-', _, rfl, by decide⟩
  cases j with
  | null => exact ⟨_, _, rfl, by decide⟩
  | bool b => cases b <;> exact ⟨_, _, rfl, by decide⟩
  | int negative n =>
    have digits : ∀ c ∈ Text.natChars n, c.isDigit = true :=
      fun _ => Text.isDigit_of_mem_natChars
    rw [writePretty, write]
    cases chars : Text.natChars n with
    | nil => exact absurd chars (Text.natChars_ne_nil n)
    | cons c cs => exact signed negative _ (digits c (chars ▸ List.mem_cons_self))
  | decimal negative d =>
    obtain ⟨c, cs, chars, digit⟩ := writeDecimal_head realFormat d
    rw [writePretty, write, writeDecimal_append, chars]
    exact signed negative _ digit
  | str s => exact ⟨_, _, rfl, by decide⟩
  | garbled => exact ⟨_, _, rfl, by decide⟩
  | arr items => cases items <;> exact ⟨_, _, rfl, by decide⟩
  | obj fields => cases fields <;> exact ⟨_, _, rfl, by decide⟩

/-! ### The lengths of texts -/

/-- Every piece that is written is longer than what follows it, so the length bounds the depth of a
text. -/
theorem length_writeChars (cs rest : List Char) : rest.length < (writeChars cs rest).length := by
  have one (c : Char) (rest : List Char) : rest.length < (writeChar c rest).length := by
    unfold writeChar
    split
    · simp only [List.length_cons]
      omega
    · split
      · simp only [List.length_cons]
        omega
      · split <;> simp only [List.length_cons] <;> omega
  induction cs with
  | nil => exact Nat.lt_succ_self _
  | cons c cs ih => exact ih.trans (one c _)

theorem length_newLine (depth : Nat) (rest : List Char) :
    (newLine depth rest).length = rest.length + 2 * depth + 1 := by
  rw [newLine, List.length_cons, List.length_append, List.length_replicate,
    Nat.add_comm (2 * depth)]

theorem length_writeSign {negative : Bool} {cs rest : List Char} (h : rest.length < cs.length) :
    rest.length < (writeSign negative cs).length := by
  cases negative with
  | false => exact h
  | true => exact Nat.lt_succ_of_lt h

mutual
/-- A written value takes at least one character. -/
theorem length_writePretty (depth : Nat) : (j : Json) → (rest : List Char) →
    rest.length < (writePretty depth j rest).length
  | .null, rest => by
    simp only [writePretty, write, List.length_cons]
    omega
  | .bool true, rest => by
    simp only [writePretty, write, List.length_cons]
    omega
  | .bool false, rest => by
    simp only [writePretty, write, List.length_cons]
    omega
  | .int negative n, rest => by
    have some := List.length_pos_iff.2 (Text.natChars_ne_nil n)
    rw [writePretty, write]
    apply length_writeSign
    rw [List.length_append]
    omega
  | .decimal negative d, rest => by
    obtain ⟨c, cs, chars, -⟩ := writeDecimal_head realFormat d
    rw [writePretty, write, writeDecimal_append, chars]
    apply length_writeSign
    rw [List.length_append, List.length_cons]
    omega
  | .str s, rest => by
    have chars := length_writeChars s.toList rest
    rw [writePretty, write, writeString, List.length_cons]
    omega
  | .garbled, rest => by
    simp only [writePretty, write, List.length_cons]
    omega
  | .arr [], rest => by
    simp only [writePretty, write, List.length_cons]
    omega
  | .obj [], rest => by
    simp only [writePretty, write, List.length_cons]
    omega
  | .arr (v :: vs), rest => by
    have items := length_prettyItems depth vs rest
    have first := length_writePretty (depth + 1) v (prettyItems depth vs rest)
    rw [writePretty, List.length_cons, length_newLine]
    omega
  | .obj ((k, v) :: fs), rest => by
    have fields := length_prettyFields depth fs rest
    have first := length_writePretty (depth + 1) v (prettyFields depth fs rest)
    have key := length_writeChars k.toList
      (':' :: ' ' :: writePretty (depth + 1) v (prettyFields depth fs rest))
    simp only [List.length_cons] at key
    rw [writePretty, List.length_cons, length_newLine, writeString, List.length_cons]
    omega

/-- Items are longer than what follows them: their closing bracket is there at least. -/
theorem length_prettyItems (depth : Nat) : (items : List Json) → (rest : List Char) →
    rest.length < (prettyItems depth items rest).length
  | [], rest => by
    rw [prettyItems, length_newLine, List.length_cons]
    omega
  | v :: vs, rest => by
    have items := length_prettyItems depth vs rest
    have first := length_writePretty (depth + 1) v (prettyItems depth vs rest)
    rw [prettyItems, List.length_cons, length_newLine]
    omega

/-- And so are fields. -/
theorem length_prettyFields (depth : Nat) : (fields : List (String × Json)) →
    (rest : List Char) → rest.length < (prettyFields depth fields rest).length
  | [], rest => by
    rw [prettyFields, length_newLine, List.length_cons]
    omega
  | (k, v) :: fs, rest => by
    have fields := length_prettyFields depth fs rest
    have first := length_writePretty (depth + 1) v (prettyFields depth fs rest)
    have key := length_writeChars k.toList
      (':' :: ' ' :: writePretty (depth + 1) v (prettyFields depth fs rest))
    simp only [List.length_cons] at key
    rw [prettyFields, List.length_cons, length_newLine, writeString, List.length_cons]
    omega
end

/-! ### Reading a value, an item and a field -/

variable {fuel : Nat} {c : Char} {cs more : List Char} {v : Json}

/-- A text that starts with a digit is read as a number without sign. -/
theorem readValue_digit (digit : c.isDigit = true) (cs : List Char) :
    readValue (fuel + 1) (c :: cs) = readNumber false (c :: cs) := by
  rw [readValue, skipSpace_cons (isSpace_of_isDigit digit)]
  split <;> rename_i same <;> first | rfl | (obtain ⟨rfl, -⟩ := List.cons.inj same; cases digit)

/-- A number is read behind its sign. -/
theorem readValue_sign (negative : Bool) (digit : c.isDigit = true) (cs : List Char) :
    readValue (fuel + 1) (writeSign negative (c :: cs)) = readNumber negative (c :: cs) := by
  cases negative with
  | false => exact readValue_digit digit cs
  | true => rfl

/-- An array is read when something other than its end follows the bracket. -/
theorem readValue_items {items : List Json} (start : skipSpace cs = c :: more) (other : c ≠ ']')
    (read : readItems fuel (c :: more) = some (items, rest)) :
    readValue (fuel + 1) ('[' :: cs) = some (.arr items, rest) := by
  have open' : skipSpace ('[' :: cs) = '[' :: cs := skipSpace_cons (by decide) cs
  simp [readValue, open', start, other, read]

/-- The last item is followed by the bracket. -/
theorem readItems_last (read : readValue fuel cs = some (v, more))
    (close : skipSpace more = ']' :: rest) : readItems (fuel + 1) cs = some ([v], rest) := by
  simp only [readItems, read, close]

/-- Every other item is followed by a comma and the rest. -/
theorem readItems_next {items : List Json} {others : List Char}
    (read : readValue fuel cs = some (v, more)) (comma : skipSpace more = ',' :: others)
    (next : readItems fuel others = some (items, rest)) :
    readItems (fuel + 1) cs = some (v :: items, rest) := by
  simp only [readItems, read, comma, next, Option.map_some]

/-- An object is read when a key follows the brace. -/
theorem readValue_fields {fields : List (String × Json)} (start : skipSpace cs = '"' :: more)
    (read : readFields fuel ('"' :: more) = some (some fields, rest)) :
    readValue (fuel + 1) ('{' :: cs) = some (.obj fields, rest) := by
  have open' : skipSpace ('{' :: cs) = '{' :: cs := skipSpace_cons (by decide) cs
  simp [readValue, open', start, read]

/-- A key and its value are read up to what follows the value. -/
theorem readFields_last {k : String} {value : List Char}
    (key : readString cs = some (some k, ':' :: value))
    (read : readValue fuel value = some (v, more))
    (close : skipSpace more = '}' :: rest) :
    readFields (fuel + 1) ('"' :: cs) = some (some [(k, v)], rest) := by
  have quote : skipSpace ('"' :: cs) = '"' :: cs := skipSpace_cons (by decide) cs
  have colon : skipSpace (':' :: value) = ':' :: value := skipSpace_cons (by decide) value
  simp [readFields, quote, colon, key, read, close, consField]

/-- Every field but the last is followed by a comma and the rest. -/
theorem readFields_next {k : String} {value others : List Char} {fields : List (String × Json)}
    (key : readString cs = some (some k, ':' :: value))
    (read : readValue fuel value = some (v, more))
    (comma : skipSpace more = ',' :: others)
    (next : readFields fuel others = some (some fields, rest)) :
    readFields (fuel + 1) ('"' :: cs) = some (some ((k, v) :: fields), rest) := by
  have quote : skipSpace ('"' :: cs) = '"' :: cs := skipSpace_cons (by decide) cs
  have colon : skipSpace (':' :: value) = ':' :: value := skipSpace_cons (by decide) value
  simp [readFields, quote, colon, key, read, comma, next, consField]

/-! ### Reading what was written -/

/-- A number ends where no digit, point or exponent follows. -/
theorem endsNumber_cons (h : c.isDigit = false ∧ c ≠ '.' ∧ c ≠ 'e' ∧ c ≠ 'E') (cs : List Char) :
    EndsNumber (c :: cs) := by
  rintro _ ⟨⟩
  exact h

/-- It ends at a line break. -/
theorem endsNumber_newLine (depth : Nat) (cs : List Char) : EndsNumber (newLine depth cs) :=
  endsNumber_cons (by decide) _

/-- And before further items. -/
theorem endsNumber_prettyItems (depth : Nat) (items : List Json) (rest : List Char) :
    EndsNumber (prettyItems depth items rest) := by
  cases items with
  | nil => exact endsNumber_newLine depth _
  | cons v vs => exact endsNumber_cons (by decide) _

/-- And before further fields. -/
theorem endsNumber_prettyFields (depth : Nat) (fields : List (String × Json)) (rest : List Char) :
    EndsNumber (prettyFields depth fields rest) := by
  cases fields with
  | nil => exact endsNumber_newLine depth _
  | cons f fs => exact endsNumber_cons (by decide) _

theorem readValue_blank (fuel : Nat) (cs : List Char) :
    readValue fuel (' ' :: cs) = readValue fuel cs := by
  have blank : skipSpace (' ' :: cs) = skipSpace cs := List.dropWhile_cons_of_pos rfl
  rw [← readValue_skipSpace, blank, readValue_skipSpace]

mutual
/-- A written value is read as itself, up to the form of its decimals. -/
theorem readValue_writePretty : (j : Json) → j.Legible → (depth fuel : Nat) → {rest : List Char} →
    EndsNumber rest → 2 * (writePretty depth j rest).length ≤ fuel + 2 * rest.length →
    readValue fuel (writePretty depth j rest) = some (j.reread, rest)
  | j, legible, depth, 0, rest, ends, enough => by
    have some := length_writePretty depth j rest
    omega
  | .null, legible, depth, fuel + 1, rest, ends, enough => rfl
  | .bool true, legible, depth, fuel + 1, rest, ends, enough => rfl
  | .bool false, legible, depth, fuel + 1, rest, ends, enough => rfl
  | .garbled, legible, depth, fuel + 1, rest, ends, enough => rfl
  | .str s, legible, depth, fuel + 1, rest, ends, enough => by
    have quote : skipSpace ('"' :: writeChars s.toList rest) = '"' :: writeChars s.toList rest :=
      skipSpace_cons (by decide) _
    simp [writePretty, write, writeString, readValue, quote, readString_writeChars, reread]
  | .int negative n, legible, depth, fuel + 1, rest, ends, enough => by
    have digits : ∀ c ∈ Text.natChars n, c.isDigit = true :=
      fun _ => Text.isDigit_of_mem_natChars
    have read := readNumber_natChars negative n ends
    rw [writePretty, write, reread]
    cases chars : Text.natChars n with
    | nil => exact absurd chars (Text.natChars_ne_nil n)
    | cons c cs =>
      rw [chars] at read
      exact (readValue_sign negative (digits c (chars ▸ List.mem_cons_self)) _).trans read
  | .decimal negative d, legible, depth, fuel + 1, rest, ends, enough => by
    obtain ⟨c, cs, chars, digit⟩ := writeDecimal_head realFormat d
    have read := readNumber_writeDecimal negative realFormat legible ends
    rw [chars] at read
    rw [writePretty, write, writeDecimal_append, chars, reread]
    exact (readValue_sign negative digit _).trans read
  | .arr [], legible, depth, fuel + 1, rest, ends, enough => rfl
  | .obj [], legible, depth, fuel + 1, rest, ends, enough => rfl
  | .arr (v :: vs), legible, depth, fuel + 1, rest, ends, enough => by
    have first := length_writePretty (depth + 1) v (prettyItems depth vs rest)
    have others := length_prettyItems depth vs rest
    rw [writePretty, List.length_cons, length_newLine] at enough
    obtain ⟨fuel, rfl⟩ : ∃ k, fuel = k + 1 := ⟨fuel - 1, by omega⟩
    obtain ⟨c, cs, text, solid, other⟩ :=
      writePretty_head (depth + 1) v (prettyItems depth vs rest)
    have read := readValue_writePretty v legible.1 (depth + 1) fuel
      (endsNumber_prettyItems depth vs rest) (by omega)
    have items := readItems_prettyItems vs legible.2 (by omega) read
    rw [writePretty, reread, rereadItems]
    rw [text] at items ⊢
    refine readValue_items ?_ other items
    rw [skipSpace_newLine, skipSpace_cons solid]
  | .obj ((k, v) :: fs), legible, depth, fuel + 1, rest, ends, enough => by
    have first := length_writePretty (depth + 1) v (prettyFields depth fs rest)
    have others := length_prettyFields depth fs rest
    have key := length_writeChars k.toList
      (':' :: ' ' :: writePretty (depth + 1) v (prettyFields depth fs rest))
    simp only [writePretty, List.length_cons, length_newLine, writeString] at enough key
    obtain ⟨fuel, rfl⟩ : ∃ k, fuel = k + 1 := ⟨fuel - 1, by omega⟩
    have read := readValue_writePretty v legible.1 (depth + 1) fuel
      (endsNumber_prettyFields depth fs rest) (by omega)
    rw [← readValue_blank] at read
    have fields := readFields_prettyFields fs legible.2 (by omega)
      (readString_writeChars k _) read
    rw [writePretty, reread, rereadFields]
    refine readValue_fields ?_ fields
    rw [skipSpace_newLine, writeString, skipSpace_cons (by decide)]

/-- The further items of an array are read. -/
theorem readItems_prettyItems : (items : List Json) → LegibleItems items → {depth fuel : Nat} →
    {cs rest : List Char} → {v : Json} →
    2 * (prettyItems depth items rest).length ≤ fuel + 2 * rest.length →
    readValue fuel cs = some (v, prettyItems depth items rest) →
    readItems (fuel + 1) cs = some (v :: rereadItems items, rest)
  | [], legible, depth, fuel, cs, rest, v, enough, read => by
    refine readItems_last read ?_
    rw [prettyItems, skipSpace_newLine, skipSpace_cons (by decide)]
  | w :: ws, legible, depth, fuel, cs, rest, v, enough, read => by
    have first := length_writePretty (depth + 1) w (prettyItems depth ws rest)
    have others := length_prettyItems depth ws rest
    rw [prettyItems, List.length_cons, length_newLine] at enough
    obtain ⟨fuel, rfl⟩ : ∃ k, fuel = k + 1 := ⟨fuel - 1, by omega⟩
    have next := readValue_writePretty w legible.1 (depth + 1) fuel
      (endsNumber_prettyItems depth ws rest) (by omega)
    have items := readItems_prettyItems ws legible.2 (by omega) next
    rw [← readItems_newLine (fuel + 1) (depth + 1)] at items
    refine readItems_next read ?_ items
    rw [prettyItems, skipSpace_cons (by decide)]

/-- The further fields of an object are read. -/
theorem readFields_prettyFields : (fields : List (String × Json)) → LegibleFields fields →
    {depth fuel : Nat} → {cs value rest : List Char} → {k : String} → {v : Json} →
    2 * (prettyFields depth fields rest).length ≤ fuel + 2 * rest.length →
    readString cs = some (some k, ':' :: value) →
    readValue fuel value = some (v, prettyFields depth fields rest) →
    readFields (fuel + 1) ('"' :: cs) = some (some ((k, v) :: rereadFields fields), rest)
  | [], legible, depth, fuel, cs, value, rest, k, v, enough, key, read => by
    refine readFields_last key read ?_
    rw [prettyFields, skipSpace_newLine, skipSpace_cons (by decide)]
  | (k', w) :: fs, legible, depth, fuel, cs, value, rest, k, v, enough, key, read => by
    have first := length_writePretty (depth + 1) w (prettyFields depth fs rest)
    have others := length_prettyFields depth fs rest
    have chars := length_writeChars k'.toList
      (':' :: ' ' :: writePretty (depth + 1) w (prettyFields depth fs rest))
    simp only [prettyFields, List.length_cons, length_newLine, writeString] at enough chars
    obtain ⟨fuel, rfl⟩ : ∃ k, fuel = k + 1 := ⟨fuel - 1, by omega⟩
    have next := readValue_writePretty w legible.1 (depth + 1) fuel
      (endsNumber_prettyFields depth fs rest) (by omega)
    rw [← readValue_blank] at next
    have fields := readFields_prettyFields fs legible.2 (by omega)
      (readString_writeChars k' _) next
    rw [← readFields_newLine (fuel + 1) (depth + 1)] at fields
    refine readFields_next key read ?_ fields
    rw [prettyFields, skipSpace_cons (by decide), writeString]
end

/-- The text of a value over several lines is read as the value. -/
theorem read?_pretty {j : Json} (legible : j.Legible) : read? j.pretty = some j.reread := by
  have ends : EndsNumber [] := by rintro _ ⟨⟩
  have read := readValue_writePretty j legible 0 (2 * (writePretty 0 j []).length + 1) ends
    (by rw [List.length_nil]; omega)
  rw [read?, pretty, String.toList_ofList, readChars?, read]
  rfl

end Mutation.Json
