import Mutation.CandidateFile
import Mutation.Proofs.ArgumentText

/-!
# Records read back

What is read from a record is its candidate, without the line breaks at the end of the argument; an
inverted range is refused (`Candidate.readRecordChars_recordChars_iff`). So a record is read back as its
candidate exactly if the range is not inverted and the argument does not end in a line break, which
holds of every candidate that was read (`Candidate.readRecord_record`).

A candidate whose argument holds no line break at all is *writable*: its record is one line of a
file, and a file of such records is read back as the candidates that were written
(`CandidateFile.read_chars`).
-/

namespace Mutation

namespace Text

/-- No character of the text ends a line. -/
def Unbroken (cs : List Char) : Prop := ∀ c ∈ cs, Candidate.isLineEnd c = false

instance (cs : List Char) : Decidable (Unbroken cs) :=
  List.decidableBAll (fun c => Candidate.isLineEnd c = false) cs

namespace Unbroken

variable {cs ds : List Char}

theorem append (h : Unbroken cs) (h' : Unbroken ds) : Unbroken (cs ++ ds) :=
  List.forall_mem_append.2 ⟨h, h'⟩

theorem cons {c : Char} (first : Candidate.isLineEnd c = false) (rest : Unbroken cs) :
    Unbroken (c :: cs) :=
  List.forall_mem_cons.2 ⟨first, rest⟩

theorem newline (h : Unbroken cs) : '\n' ∉ cs := fun mem => by cases h _ mem

theorem getLast? (h : Unbroken cs) : ∀ c ∈ cs.getLast?, Candidate.isLineEnd c = false :=
  fun c hc => h c (List.mem_of_mem_getLast? hc)

end Unbroken

theorem unbroken_nil : Unbroken [] := List.forall_mem_nil _

theorem unbroken_natChars (n : Nat) : Unbroken (natChars n) := by
  intro c hc
  cases ends : Candidate.isLineEnd c with
  | false => rfl
  | true =>
    have digit := isDigit_of_mem_natChars hc
    rw [Candidate.isLineEnd, Bool.or_eq_true, beq_iff_eq, beq_iff_eq] at ends
    rcases ends with rfl | rfl <;> cases digit

theorem dropEndWhile_eq_self {p : Char → Bool} {cs : List Char}
    (last : ∀ c ∈ cs.getLast?, p c = false) : dropEndWhile p cs = cs := by
  rw [dropEndWhile, ← List.head?_reverse] at *
  cases reversed : cs.reverse with
  | nil => exact (List.reverse_eq_nil_iff.1 reversed).symm
  | cons c rest =>
    rw [reversed] at last
    rw [List.dropWhile_cons_of_neg (by simp [last c rfl]), ← reversed, List.reverse_reverse]

/-- What is dropped at the end stands behind the last character that is kept. -/
theorem dropEndWhile_append {p : Char → Bool} {c : Char} (kept : p c = false) (cs ds : List Char) :
    dropEndWhile p (cs ++ c :: ds) = cs ++ c :: dropEndWhile p ds := by
  have reversed : (cs ++ c :: ds).reverse = ds.reverse ++ (c :: cs.reverse) := by simp
  have stops : (c :: cs.reverse).dropWhile p = c :: cs.reverse :=
    List.dropWhile_cons_of_neg (by simp [kept])
  rw [dropEndWhile, dropEndWhile, reversed, List.dropWhile_append, stops]
  split
  · rename_i empty
    simp [List.isEmpty_iff.1 empty]
  · simp

theorem getLast?_dropEndWhile {p : Char → Bool} (cs : List Char) :
    ∀ c ∈ (dropEndWhile p cs).getLast?, p c = false := by
  intro c hc
  have first := List.head?_dropWhile_not p cs.reverse
  rw [dropEndWhile, List.getLast?_reverse] at hc
  rw [hc] at first
  exact first

/-- Nothing is dropped exactly if the last character is kept. -/
theorem dropEndWhile_eq_self_iff {p : Char → Bool} {cs : List Char} :
    dropEndWhile p cs = cs ↔ ∀ c ∈ cs.getLast?, p c = false :=
  ⟨fun same => same ▸ getLast?_dropEndWhile cs, dropEndWhile_eq_self⟩

theorem eq_append_of_splitFirst {sep : Char} {cs a b : List Char}
    (split : splitFirst sep cs = some (a, b)) : cs = a ++ sep :: b := by
  induction cs generalizing a with
  | nil => cases split
  | cons c cs ih =>
    rw [splitFirst] at split
    split at split
    · cases split
      rename_i same
      rw [same, List.nil_append]
    · obtain ⟨⟨a', b'⟩, rest, same⟩ := Option.map_eq_some_iff.1 split
      cases same
      rw [ih rest, List.cons_append]

/-- The last character behind a separator is the last one of all. -/
theorem mem_getLast?_append {sep c : Char} {cs ds : List Char} (h : c ∈ ds.getLast?) :
    c ∈ (cs ++ sep :: ds).getLast? := by
  rw [List.getLast?_append, List.getLast?_cons, h]
  rfl

end Text

open Text

/-- A location is read from its text unless it is an inverted range. -/
theorem Location.readChars_chars_iff {l l' : Location} :
    readChars l.chars = .ok l' ↔ l' = l ∧ l.Ordered := by
  constructor
  · intro read
    cases l with
    | anchor p =>
      have ordered : (Location.anchor p).Ordered := trivial
      rw [readChars_chars ordered] at read
      cases read
      exact ⟨rfl, ordered⟩
    | range a b =>
      rw [readChars_range] at read
      split at read
      · cases read
      · cases read
        exact ⟨rfl, UInt32.not_lt.1 ‹_›⟩
  · rintro ⟨rfl, ordered⟩
    exact readChars_chars ordered

theorem exists_of_bind_ok {ε α β : Type} {r : Except ε α} {f : α → Except ε β} {b : β}
    (h : r >>= f = .ok b) : ∃ a, f a = .ok b := by
  cases r with
  | error fault => cases h
  | ok a => exact ⟨a, h⟩

/-- No inverted range is ever read. -/
theorem Location.ordered_of_readChars {cs : List Char} {l : Location} (read : readChars cs = .ok l) :
    l.Ordered := by
  unfold readChars at read
  split at read
  · cases read
  · split at read
    · generalize readPos _ = answer at read
      cases answer <;> cases read
      trivial
    · obtain ⟨a, read⟩ := exists_of_bind_ok read
      obtain ⟨b, read⟩ := exists_of_bind_ok read
      split at read
      · cases read
      · cases read
        exact UInt32.not_lt.1 ‹_›

theorem Location.unbroken_chars (l : Location) : Unbroken l.chars := by
  cases l with
  | anchor p => exact unbroken_natChars _
  | range a b => exact (unbroken_natChars _).append ((unbroken_natChars _).cons rfl)

theorem Location.comma_notMem_chars (l : Location) : ',' ∉ l.chars := by
  cases l with
  | anchor p => exact Operator.not_mem_natChars rfl _
  | range a b =>
    simp only [chars, List.mem_append, List.mem_cons, not_or]
    exact ⟨Operator.not_mem_natChars rfl _, by decide, Operator.not_mem_natChars rfl _⟩

/-- Every code is read as its kind. -/
theorem Kind.read_code (k : Kind) : read k.code = .ok k := by
  have found : ofCode? (String.ofList ((trimChars k.code.toList).map upperChar)) = some k := by
    cases k <;> decide +kernel
  rw [read, found]

theorem Kind.unbroken_code (k : Kind) : Unbroken k.code.toList ∧ ',' ∉ k.code.toList := by
  cases k <;> decide

namespace Candidate

variable {c : Candidate}

theorem isLineEnd_eq_false_iff {x : Char} : isLineEnd x = false ↔ x ≠ '\r' ∧ x ≠ '\n' := by
  rw [isLineEnd, Bool.or_eq_false_iff, beq_eq_false_iff_ne, beq_eq_false_iff_ne]

/-- From a record the candidate is read, without the line breaks at the end of its argument, unless
its range is inverted. -/
theorem readRecordChars_recordChars_iff {d : Candidate} :
    readRecordChars c.recordChars = .ok d ↔
      c.location.Ordered ∧
        d = { c with argument := String.ofList (dropEndWhile isLineEnd c.argument.toList) } := by
  have behind : dropEndWhile isLineEnd c.recordChars = c.location.chars ++ ',' ::
      (c.kind.code.toList ++ ',' :: dropEndWhile isLineEnd c.argument.toList) := by
    have comma : isLineEnd ',' = false := by decide
    rw [recordChars, ← List.cons_append, ← List.append_assoc, dropEndWhile_append comma,
      List.append_assoc, List.cons_append]
  rw [readRecordChars, behind, splitFirst_append (Location.comma_notMem_chars _)]
  simp only [splitFirst_append (Kind.unbroken_code _).2, Option.getD_some, Kind.read_code,
    String.ofList_toList]
  cases read : Location.readChars c.location.chars with
  | error fault =>
    refine ⟨by rintro ⟨⟩, fun h => ?_⟩
    rw [Location.readChars_chars h.1] at read
    cases read
  | ok location =>
    obtain ⟨rfl, ordered⟩ := Location.readChars_chars_iff.1 read
    simp [ordered, eq_comm]

/-- A record is read back as the candidate, unless its range is inverted or its argument ends in a
line break. -/
theorem readRecordChars_recordChars :
    readRecordChars c.recordChars = .ok c ↔
      c.location.Ordered ∧ ∀ x ∈ c.argument.toList.getLast?, isLineEnd x = false := by
  have kept : c = { c with argument := String.ofList (dropEndWhile isLineEnd c.argument.toList) } ↔
      dropEndWhile isLineEnd c.argument.toList = c.argument.toList := by
    constructor
    · intro same
      have argument := congrArg (·.argument.toList) same
      rw [String.toList_ofList] at argument
      exact argument.symm
    · intro same
      rw [same, String.ofList_toList]
  rw [readRecordChars_recordChars_iff, kept, dropEndWhile_eq_self_iff]

/-- The range of a candidate that was read is not inverted, and its argument does not end in a line
break: the argument is the end of the line, from which the line breaks are gone. -/
theorem ordered_of_readRecordChars {line : List Char} (read : readRecordChars line = .ok c) :
    c.location.Ordered ∧ ∀ x ∈ c.argument.toList.getLast?, isLineEnd x = false := by
  have last := getLast?_dropEndWhile (p := isLineEnd) line
  unfold readRecordChars at read
  split at read
  · cases read
  · rename_i location rest split
    dsimp only at read
    split at read
    · cases read
    · rename_i l ordered
      split at read
      · cases read
      · cases read
        refine ⟨Location.ordered_of_readChars ordered, fun x hx => last x ?_⟩
        rw [String.toList_ofList] at hx
        rw [eq_append_of_splitFirst split]
        cases parts : splitFirst ',' rest with
        | none =>
          rw [parts] at hx
          cases hx
        | some parts' =>
          rw [parts] at hx
          rw [eq_append_of_splitFirst parts]
          exact mem_getLast?_append (mem_getLast?_append hx)

/-- The record is one line of a file, and is read back. -/
structure Writable (c : Candidate) : Prop where
  ordered : c.location.Ordered
  argument : Unbroken c.argument.toList

theorem Writable.unbroken (h : c.Writable) : Unbroken c.recordChars :=
  c.location.unbroken_chars.append
    (.cons rfl ((Kind.unbroken_code _).1.append (.cons rfl h.argument)))

theorem Writable.read (h : c.Writable) : readRecordChars c.recordChars = .ok c :=
  readRecordChars_recordChars.2 ⟨h.ordered, h.argument.getLast?⟩

/-- A candidate is read back from its record exactly if it addresses no inverted range and its
argument does not end in a line break; and what was read once is read back. -/
theorem readRecord_record :
    (∀ c : Candidate, readRecord c.record = .ok c ↔
      (¬∃ a b, c.location = .range a b ∧ b < a) ∧
        ∀ x ∈ c.argument.toList.getLast?, x ≠ '\r' ∧ x ≠ '\n') ∧
      ∀ (s : String) (c : Candidate), readRecord s = .ok c → readRecord c.record = .ok c := by
  have chars (c : Candidate) : readRecord c.record = readRecordChars c.recordChars := by
    rw [readRecord, record, String.toList_ofList]
  have ordered (l : Location) : l.Ordered ↔ ¬∃ a b, l = .range a b ∧ b < a := by
    cases l with
    | anchor p => simp [Location.Ordered]
    | range a b => simp [Location.Ordered]
  constructor
  · intro c
    simp only [chars, readRecordChars_recordChars, ordered, isLineEnd_eq_false_iff]
  · intro s c read
    rw [chars]
    exact readRecordChars_recordChars.2 (ordered_of_readRecordChars read)

/-- A line with blanks, a sign, a leading zero, a code in small letters and an argument with a comma
and a line break inside is read, and its candidate is read back; an inverted range is not. -/
theorem readRecord_record_loose :
    readRecord " +7 - 012, vdl,x,\ny\r\n" = .ok ⟨.range 7 12, .variableDeletion, "x,\ny"⟩ ∧
      readRecord "7-12,VDL,x,\ny" = .ok ⟨.range 7 12, .variableDeletion, "x,\ny"⟩ ∧
      readRecord "12-7,VDL,x" ≠ .ok ⟨.range 12 7, .variableDeletion, "x"⟩ := by
  obtain ⟨back, again⟩ := readRecord_record
  have loose : readRecord " +7 - 012, vdl,x,\ny\r\n" =
      .ok ⟨.range 7 12, .variableDeletion, "x,\ny"⟩ := by rfl
  have strict : (⟨.range 7 12, .variableDeletion, "x,\ny"⟩ : Candidate).record =
      "7-12,VDL,x,\ny" := by decide +kernel
  have inverted : (⟨.range 12 7, .variableDeletion, "x"⟩ : Candidate).record = "12-7,VDL,x" := by
    decide +kernel
  refine ⟨loose, strict ▸ again _ _ loose, fun read => ?_⟩
  exact ((back _).1 (inverted.symm ▸ read)).1 ⟨12, 7, rfl, by decide⟩

/-- A record is never blank: it holds commas. -/
theorem recordChars_solid (c : Candidate) : c.recordChars.all isBlank = false :=
  List.all_eq_false.2 ⟨',', List.mem_append_right _ List.mem_cons_self, by decide⟩

end Candidate

namespace CandidateFile

variable {list : List Candidate}

theorem chars_append (before after : List Candidate) :
    chars (before ++ after) = chars before ++ chars after :=
  List.flatMap_append

theorem dropReturn_eq_self {line : List Char} (h : Unbroken line) : dropReturn line = line := by
  refine if_neg fun returned => ?_
  cases h.getLast? _ returned

/-- Behind the last record there is an empty line. -/
theorem splitAll_chars (h : ∀ c ∈ list, c.Writable) :
    splitAll '\n' (chars list) = list.map Candidate.recordChars ++ [[]] := by
  induction list with
  | nil => rfl
  | cons c list ih =>
    obtain ⟨first, rest⟩ := List.forall_mem_cons.1 h
    have split : chars (c :: list) = c.recordChars ++ '\n' :: chars list := by
      rw [chars, List.flatMap_cons, List.append_assoc]
      rfl
    rw [split, splitAll_append first.unbroken.newline, ih rest]
    rfl

theorem lines_chars (h : ∀ c ∈ list, c.Writable) :
    lines (chars list) = list.map Candidate.recordChars := by
  have plain : (list.map Candidate.recordChars).map dropReturn =
      list.map Candidate.recordChars := by
    rw [List.map_map]
    exact List.map_congr_left fun c hc => dropReturn_eq_self (h c hc).unbroken
  rw [lines, splitAll_chars h]
  simp [plain]

theorem readLines_records (h : ∀ c ∈ list, c.Writable) (path : String) (n : Nat) :
    readLines path n ((list.map Candidate.recordChars).map .ok) = .ok list := by
  induction list generalizing n with
  | nil => rfl
  | cons c list ih =>
    obtain ⟨first, rest⟩ := List.forall_mem_cons.1 h
    rw [List.map_cons, List.map_cons, readLines, c.recordChars_solid, if_neg Bool.false_ne_true,
      first.read]
    dsimp only
    rw [ih rest]
    rfl

/-- A file is read as the candidates that were written to it. -/
theorem read_chars (h : ∀ c ∈ list, c.Writable) (path : String) :
    read path (chars list) = .ok list := by
  rw [read, lines_chars h, readLines_records h]

end CandidateFile

end Mutation
