import Mutation.Candidate
import Mutation.Operator.Argument
import Mutation.Operator.Literals

/-!
# Arguments as text

A candidate carries its argument as text, and the operator reads it back. Each kind of argument
survives this: numerals and pairs of them, ranges, names, words, literals, and lists of literals.
No argument that is needed is blank, and a literal keeps its own blanks because it stands in
quotes.
-/

namespace Mutation

namespace Text

/-- Nothing is trimmed off a text whose ends are not blank. -/
theorem trimChars_eq_self {cs : List Char} (first : ∀ c ∈ cs.head?, isBlank c = false)
    (last : ∀ c ∈ cs.getLast?, isBlank c = false) : trimChars cs = cs := by
  have keepsFirst : cs.dropWhile isBlank = cs := by
    cases cs with
    | nil => rfl
    | cons c cs => simp [List.dropWhile, first c rfl]
  have keepsLast : cs.reverse.dropWhile isBlank = cs.reverse := by
    rw [← List.head?_reverse] at last
    cases rev : cs.reverse with
    | nil => rfl
    | cons c rest =>
      rw [rev] at last
      simp [List.dropWhile, last c rfl]
  rw [trimChars, keepsFirst, dropEndWhile, keepsLast, List.reverse_reverse]

/-- Where nothing is blank, there is nothing to trim. -/
theorem trimChars_of_solid {cs : List Char} (h : ∀ c ∈ cs, isBlank c = false) :
    trimChars cs = cs :=
  trimChars_eq_self (fun c hc => h c (List.mem_of_mem_head? hc))
    fun c hc => h c (List.mem_of_mem_getLast? hc)

/-- A text with one character that is not blank is not blank. -/
theorem isBlankText_eq_false {s : String} {c : Char} (hc : c ∈ s.toList)
    (solid : isBlank c = false) : isBlankText s = false := by
  rw [isBlankText, List.all_eq_false]
  exact ⟨c, hc, by simp [solid]⟩

/-- A digit is read as its distance from zero. -/
theorem digit?_of_isDigit {c : Char} (h : c.isDigit = true) :
    digit? c = some (c.toNat - '0'.toNat) := by
  simp only [Char.isDigit, Bool.and_eq_true, decide_eq_true_eq] at h
  exact if_pos ⟨h.1, h.2⟩

/-- A run of digits is read as the number it writes, on top of what was read. -/
theorem digitsFrom?_of_isDigit {cs : List Char} (h : ∀ c ∈ cs, c.isDigit = true) (acc : Nat) :
    digitsFrom? acc cs = some (Nat.ofDigitChars 10 cs acc) := by
  induction cs generalizing acc with
  | nil => rfl
  | cons c cs ih =>
    obtain ⟨first, rest⟩ := List.forall_mem_cons.1 h
    rw [digitsFrom?, digit?_of_isDigit first, Option.bind_some, ih rest, Nat.ofDigitChars_cons]

theorem isDigit_of_mem_natChars {n : Nat} {c : Char} (h : c ∈ natChars n) : c.isDigit = true :=
  Nat.isDigit_of_mem_toDigits (by decide) (by decide) h

theorem natChars_ne_nil (n : Nat) : natChars n ≠ [] := Nat.toDigits_ne_nil

theorem isBlank_of_isDigit {c : Char} (h : c.isDigit = true) : isBlank c = false := by
  simp only [Char.isDigit, Bool.and_eq_true, decide_eq_true_eq, ge_iff_le, UInt32.le_iff_toNat_le] at h
  have low : 48 ≤ c.toNat := h.1
  have high : c.toNat ≤ 57 := h.2
  simp only [isBlank, Bool.or_eq_false_iff, Bool.and_eq_false_iff, decide_eq_false_iff_not,
    beq_eq_false_iff_ne]
  omega

theorem trimChars_natChars (n : Nat) : trimChars (natChars n) = natChars n :=
  trimChars_of_solid fun _ hc => isBlank_of_isDigit (isDigit_of_mem_natChars hc)

theorem digits?_natChars (n : Nat) : digits? (natChars n) = some n := by
  have all := digitsFrom?_of_isDigit (fun c hc => isDigit_of_mem_natChars (n := n) hc) 0
  rw [natChars, Nat.ofDigitChars_ten_toDigits] at all
  cases eq : natChars n with
  | nil => exact absurd eq (natChars_ne_nil n)
  | cons c cs =>
    rw [← eq]
    rw [natChars] at eq ⊢
    rw [eq] at all ⊢
    exact all

/-- A numeral does not begin with a sign. -/
theorem natChars_head {n : Nat} {c : Char} {cs : List Char} (h : natChars n = c :: cs) :
    c ≠ '+' ∧ c ≠ '-' := by
  have digit : c.isDigit = true := isDigit_of_mem_natChars (h ▸ List.mem_cons_self)
  constructor <;> rintro rfl <;> cases digit

/-- A number is read back from its digits. -/
theorem readNat?_natChars (n : Nat) : readNat? (natChars n) = some n := by
  unfold readNat?
  split
  · rename_i same
    exact absurd rfl (natChars_head same).1
  · exact digits?_natChars n

/-- So is an integer, with its sign. -/
theorem readInt?_intChars (v : Int) : readInt? (intChars v) = some v := by
  cases v with
  | ofNat n =>
    unfold readInt? intChars
    split
    · rename_i same
      exact absurd rfl (natChars_head same).2
    · rw [readNat?_natChars]
      rfl
  | negSucc n =>
    change ((digits? (natChars (n + 1))).map fun n => -(n : Int)) = _
    rw [digits?_natChars]
    rfl

/-- So is a number that fits 64 bits. -/
theorem readWord64?_natChars {n : Nat} (h : n < UInt64.size) :
    readWord64? (natChars n) = some (UInt64.ofNat n) := by
  rw [readWord64?, readNat?_natChars, Option.bind_some, if_pos h]

/-- So is a position. -/
theorem readWord32?_natChars (p : UInt32) : readWord32? (natChars p.toNat) = some p := by
  rw [readWord32?, readNat?_natChars, Option.bind_some, if_pos p.toNat_lt_size, UInt32.ofNat_toNat]

theorem trimChars_intChars (v : Int) : trimChars (intChars v) = intChars v := by
  refine trimChars_of_solid fun c hc => ?_
  cases v with
  | ofNat n => exact isBlank_of_isDigit (isDigit_of_mem_natChars hc)
  | negSucc n =>
    rcases List.mem_cons.1 hc with rfl | hc
    · rfl
    · exact isBlank_of_isDigit (isDigit_of_mem_natChars hc)

/-- A text is split at its first separator. -/
theorem splitFirst_append {sep : Char} {a b : List Char} (h : sep ∉ a) :
    splitFirst sep (a ++ sep :: b) = some (a, b) := by
  induction a with
  | nil => simp [splitFirst]
  | cons c a ih =>
    rw [List.mem_cons, not_or] at h
    rw [List.cons_append, splitFirst, if_neg (Ne.symm h.1), ih h.2]
    rfl

/-- A text without separators is not split. -/
theorem splitFirst_eq_none {sep : Char} {cs : List Char} (h : sep ∉ cs) :
    splitFirst sep cs = none := by
  induction cs with
  | nil => rfl
  | cons c cs ih =>
    rw [List.mem_cons, not_or] at h
    rw [splitFirst, if_neg (Ne.symm h.1), ih h.2]
    rfl

theorem splitAll_of_not_mem {sep : Char} {part : List Char} (h : sep ∉ part) :
    splitAll sep part = [part] := by
  induction part with
  | nil => rfl
  | cons c part ih =>
    rw [List.mem_cons, not_or] at h
    rw [splitAll, if_neg (Ne.symm h.1), ih h.2]

/-- Splitting at every separator goes part by part. -/
theorem splitAll_append {sep : Char} {part rest : List Char} (h : sep ∉ part) :
    splitAll sep (part ++ sep :: rest) = part :: splitAll sep rest := by
  induction part with
  | nil => simp [splitAll]
  | cons c part ih =>
    rw [List.mem_cons, not_or] at h
    rw [List.cons_append, splitAll, if_neg (Ne.symm h.1), ih h.2]

/-- The parts of a joined text are found again when none of them holds the separator. -/
theorem splitAll_intercalate {sep : Char} {parts : List (List Char)} (h : ∀ p ∈ parts, sep ∉ p)
    (nonempty : parts ≠ []) : splitAll sep ([sep].intercalate parts) = parts := by
  induction parts with
  | nil => exact absurd rfl nonempty
  | cons part parts ih =>
    obtain ⟨first, rest⟩ := List.forall_mem_cons.1 h
    cases parts with
    | nil => rw [List.intercalate_singleton, splitAll_of_not_mem first]
    | cons next parts =>
      rw [List.intercalate_cons_cons, List.append_assoc, List.singleton_append,
        splitAll_append first, ih rest (by simp)]

end Text

open Text

namespace Operator

/-- An index below the largest word is read back. -/
theorem readIndex?_natText {n : Nat} (h : n < UInt64.size) :
    readIndex? (natText n).toList = some (UInt64.ofNat n) := by
  rw [natText, String.toList_ofList, readIndex?, trimChars_natChars, readWord64?_natChars h]

/-- Only digits stand in a written number. -/
theorem not_mem_natChars {c : Char} (h : c.isDigit = false) (n : Nat) : c ∉ natChars n :=
  fun hc => by simp [isDigit_of_mem_natChars hc] at h

/-- A pair of different indices is read back. -/
theorem readPair_natText {i j : Nat} (other : i ≠ j) (hi : i < UInt64.size)
    (hj : j < UInt64.size) : readPair (natText i ++ ";" ++ natText j) = .ok (i, j) := by
  have text : (natText i ++ ";" ++ natText j).toList = natChars i ++ ';' :: natChars j := by
    simp [natText]
  have differ : UInt64.ofNat i ≠ UInt64.ofNat j := by
    intro same
    have := congrArg UInt64.toNat same
    rw [UInt64.toNat_ofNat_of_lt' hi, UInt64.toNat_ofNat_of_lt' hj] at this
    exact other this
  simp only [readPair, text, splitFirst_append (not_mem_natChars (c := ';') rfl i), readIndex?,
    trimChars_natChars, readWord64?_natChars hi, readWord64?_natChars hj, if_neg differ,
    UInt64.toNat_ofNat_of_lt' hi, UInt64.toNat_ofNat_of_lt' hj]

/-- A position is read back from its digits. -/
theorem readPos_natChars (p : Pos) : Location.readPos (natChars p.toNat) = .ok p := by
  rw [Location.readPos, trimChars_natChars, readWord32?_natChars]

end Operator

/-- The location is no inverted range. -/
def Location.Ordered : Location → Prop
  | .anchor _ => True
  | .range a b => a ≤ b

/-- No blank stands in a written location. -/
theorem Location.solid_chars (l : Location) : ∀ c ∈ l.chars, isBlank c = false := by
  intro c hc
  cases l with
  | anchor p => exact isBlank_of_isDigit (isDigit_of_mem_natChars hc)
  | range a b =>
    rcases List.mem_append.1 hc with hc | hc
    · exact isBlank_of_isDigit (isDigit_of_mem_natChars hc)
    · rcases List.mem_cons.1 hc with rfl | hc
      · rfl
      · exact isBlank_of_isDigit (isDigit_of_mem_natChars hc)

/-- A range is read back unless it is inverted. -/
theorem Location.readChars_range (a b : Pos) :
    readChars (chars (.range a b)) = if b < a then .error (.inverted a b) else .ok (.range a b) := by
  have split : splitFirst '-' (chars (.range a b)) = some (natChars a.toNat, natChars b.toNat) :=
    splitFirst_append (Operator.not_mem_natChars rfl _)
  rw [readChars, trimChars_of_solid (solid_chars _)]
  cases eq : chars (.range a b) with
  | nil => simp [eq, splitFirst] at split
  | cons c cs =>
    rw [eq] at split
    simp only [split, Operator.readPos_natChars]
    rfl

/-- A location that is no inverted range is read back. -/
theorem Location.readChars_chars {l : Location} (h : l.Ordered) : readChars l.chars = .ok l := by
  cases l with
  | anchor p =>
    have whole : splitFirst '-' (natChars p.toNat) = none :=
      splitFirst_eq_none (Operator.not_mem_natChars rfl _)
    have read := Operator.readPos_natChars p
    rw [readChars, trimChars_of_solid (solid_chars _)]
    obtain ⟨c, cs, eq⟩ := List.exists_cons_of_ne_nil (natChars_ne_nil p.toNat)
    rw [eq] at whole read
    simp only [chars, eq, whole, read]
    rfl
  | range a b => rw [readChars_range, if_neg (UInt32.not_lt.2 h)]

namespace Operator

/-- The range of a span whose start is at or before its end is read back. -/
theorem readRange_text {s : Span} (h : s.start ≤ s.stop) :
    readRange s.rangeLocation.text = .ok (s.start, s.stop) := by
  have read : Location.readChars s.rangeLocation.chars = .ok s.rangeLocation :=
    Location.readChars_chars (l := s.rangeLocation) h
  rw [readRange, Location.read, Location.text, String.toList_ofList, read]
  rfl

/-- What is read from the text of a range is that range. -/
theorem readRange_text_inj {s : Span} {a b : Pos} (h : readRange s.rangeLocation.text = .ok (a, b)) :
    a = s.start ∧ b = s.stop := by
  rw [readRange, Location.read, Location.text, String.toList_ofList, Span.rangeLocation,
    Location.readChars_range] at h
  split at h
  · rename_i read
    split at read <;> cases read
    cases h
    exact ⟨rfl, rfl⟩
  · cases h

end Operator

namespace Literal

theorem unescape?_cons {c : Char} {cs : List Char} (h : c ≠ '\\') :
    unescape? (c :: cs) = (unescape? cs).map (c :: ·) := by
  rw [unescape?]
  · exact fun same _ => h same
  · exact fun _ _ same _ => h same

/-- An escaped character is read as one character. -/
theorem unescape?_escapeChar (c : Char) (cs : List Char) :
    unescape? (escapeChar c ++ cs) = (unescape? cs).map (c :: ·) := by
  by_cases special : c ∈ ['\\', '"', '\'', '\n', '\r', '\t']
  · simp only [List.mem_cons, List.not_mem_nil, or_false] at special
    rcases special with rfl | rfl | rfl | rfl | rfl | rfl <;>
      cases rest : unescape? cs <;> simp [escapeChar, unescape?, unescapeChar?, rest]
  · simp only [List.mem_cons, List.not_mem_nil, or_false, not_or] at special
    obtain ⟨h₁, h₂, h₃, h₄, h₅, h₆⟩ := special
    have plain : escapeChar c = [c] := by simp [escapeChar, h₁, h₂, h₃, h₄, h₅, h₆]
    rw [plain, List.singleton_append, unescape?_cons h₁]

/-- What is written inside quotes is read back. -/
theorem unescape?_escape (cs : List Char) : unescape? (escape cs) = some cs := by
  induction cs with
  | nil => rfl
  | cons c cs ih =>
    change unescape? (escapeChar c ++ escape cs) = _
    rw [unescape?_escapeChar, ih]
    rfl

/-- Quotes put around a text are taken off again. -/
theorem unquote?_quoted (q : Char) (cs : List Char) : unquote? q (q :: (cs ++ [q])) = some cs := by
  simp [unquote?]

/-- Quotes that are not blank keep the blanks between them. -/
theorem trimChars_quoted {q : Char} (solid : isBlank q = false) (cs : List Char) :
    trimChars (q :: (cs ++ [q])) = q :: (cs ++ [q]) := by
  refine trimChars_eq_self (fun c hc => ?_) fun c hc => ?_
  · cases hc
    exact solid
  · rw [← List.cons_append, List.getLast?_append] at hc
    cases hc
    exact solid

/-- Every literal but a real one is read back from its text. -/
theorem readAs_text {l : Literal} (real : ∀ v, l ≠ .real v) : readAs l.kind l.text = some l := by
  rw [readAs, text, String.toList_ofList]
  cases l with
  | real v => exact absurd rfl (real v)
  | int v =>
    rw [chars, trimChars_intChars, kind, readBody?, Wide.read?, readInt?_intChars, Option.bind_some,
      Wide.ofInt?_val, Option.map_some]
  | bool b => cases b <;> rfl
  | char c =>
    rw [chars, trimChars_quoted rfl]
    have inside : unescape? (escapeChar c) = some [c] := by
      simpa [unescape?] using unescape?_escapeChar c []
    simp only [kind, readBody?, unquote?_quoted, Option.bind_some, inside]
  | string s =>
    rw [chars, trimChars_quoted rfl]
    simp only [kind, readBody?, unquote?_quoted, Option.bind_some, unescape?_escape]
    simp
  | null => rfl

/-- The text of a literal that is not real is never blank: digits, words or quotes stand in it. -/
theorem isBlankText_text {l : Literal} (real : ∀ v, l ≠ .real v) : isBlankText l.text = false := by
  suffices some : ∃ c ∈ l.chars, isBlank c = false by
    obtain ⟨c, hc, solid⟩ := some
    exact isBlankText_eq_false (by rwa [text, String.toList_ofList]) solid
  cases l with
  | real v => exact absurd rfl (real v)
  | int v =>
    rw [chars]
    cases v.val with
    | ofNat n =>
      obtain ⟨c, hc⟩ := List.exists_mem_of_ne_nil _ (natChars_ne_nil n)
      exact ⟨c, hc, isBlank_of_isDigit (isDigit_of_mem_natChars hc)⟩
    | negSucc n => exact ⟨'-', List.mem_cons_self, rfl⟩
  | bool b => cases b <;> exact ⟨_, List.mem_cons_self, rfl⟩
  | char c => exact ⟨_, List.mem_cons_self, rfl⟩
  | string s => exact ⟨_, List.mem_cons_self, rfl⟩
  | null => exact ⟨_, List.mem_cons_self, rfl⟩

/-- The default of a type is read back, also from between other values. -/
structure Sayable (l : Literal) : Prop where
  read : readAs l.kind l.text = some l
  trimmed : trimChars l.chars = l.chars
  solid : isBlankText l.text = false
  apart : ';' ∉ l.chars

instance (l : Literal) : Decidable l.Sayable :=
  decidable_of_iff (readAs l.kind l.text = some l ∧ trimChars l.chars = l.chars ∧
    isBlankText l.text = false ∧ ';' ∉ l.chars)
    ⟨fun ⟨a, b, c, d⟩ => ⟨a, b, c, d⟩, fun ⟨a, b, c, d⟩ => ⟨a, b, c, d⟩⟩

/-- A default value has a text that can be said in one record. -/
theorem sayable_default {t : Ty} {l : Literal} (h : t.default? = some l) : l.Sayable := by
  have all : ∀ l ∈ [.int .zero, .real .zero, .bool false, .char 'D', .string ""], Sayable l := by
    decide +kernel
  refine all l ?_
  cases t <;> cases h <;> simp only [List.mem_cons, true_or, or_true]

/-- Joined texts are the texts with semicolons between them. -/
theorem toList_joinWith (ls : List Literal) :
    (joinWith ";" (ls.map text)).toList = [';'].intercalate (ls.map chars) := by
  have each : ls.map (String.toList ∘ text) = ls.map chars :=
    List.map_congr_left fun l _ => by simp [text]
  rw [joinWith, String.toList_intercalate, List.map_map, each]
  rfl

/-- Joined defaults are read back one by one. -/
theorem readValues_join {ls : List Literal} (h : ∀ l ∈ ls, l.Sayable) (nonempty : ls ≠ []) :
    Operator.readValues (joinWith ";" (ls.map text)) = ls.map text := by
  have apart : ∀ p ∈ ls.map chars, ';' ∉ p := by
    intro p hp
    obtain ⟨l, hl, rfl⟩ := List.mem_map.1 hp
    exact (h l hl).apart
  rw [Operator.readValues, toList_joinWith, splitAll_intercalate apart (by simpa using nonempty),
    List.map_map]
  refine List.map_congr_left fun l hl => ?_
  rw [Function.comp_apply, (h l hl).trimmed, text]

/-- Some literals joined are not blank. -/
theorem isBlankText_join {ls : List Literal} (h : ∀ l ∈ ls, l.Sayable) (nonempty : ls ≠ []) :
    isBlankText (joinWith ";" (ls.map text)) = false := by
  obtain ⟨l, rest, rfl⟩ := List.exists_cons_of_ne_nil nonempty
  obtain ⟨c, hc, solid⟩ := List.all_eq_false.1 (h l List.mem_cons_self).solid
  refine isBlankText_eq_false ?_ (by simpa using solid)
  rw [text, String.toList_ofList] at hc
  rw [toList_joinWith]
  cases rest with
  | nil => simpa using hc
  | cons next rest =>
    rw [List.map_cons, List.map_cons, List.intercalate_cons_cons]
    exact List.mem_append_left _ (List.mem_append_left _ hc)

end Literal

namespace Operator

/-- A candidate with an argument requests the operator that the argument denotes. -/
theorem make_argument_iff {location : Location} {kind : Kind} {a : String} {op : Operator}
    (takes : kind.takesArgument = true) (solid : isBlankText a = false) :
    make kind (Candidate.argument? ⟨location, kind, a⟩) = .ok op ↔ ofArgument kind a = .ok op := by
  have given : Candidate.argument? ⟨location, kind, a⟩ = some a := by
    refine if_neg fun empty => ?_
    rw [String.isEmpty_iff] at empty
    subst empty
    cases solid
  cases read : ofArgument kind a <;> simp [make, takes, given, Option.filter, solid, read]

/-- An argument that is not blank is handed to the reader of its kind. -/
theorem make_argument {location : Location} {kind : Kind} {a : String} {op : Operator}
    (takes : kind.takesArgument = true) (solid : isBlankText a = false)
    (read : ofArgument kind a = .ok op) :
    make kind (Candidate.argument? ⟨location, kind, a⟩) = .ok op :=
  (make_argument_iff takes solid).2 read

/-- Operators of some kinds need no argument. -/
theorem make_plain {kind : Kind} {op : Operator} (takes : kind.takesArgument = false)
    (read : ofArgument kind "" = .ok op) (a : Option String) : make kind a = .ok op := by
  simp [make, takes, read]

end Operator

end Mutation
