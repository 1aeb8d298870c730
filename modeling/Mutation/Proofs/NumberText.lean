import Mutation.Json.Reader
import Mutation.Json.Writer
import Mutation.Proofs.Rounding

/-!
# Numbers in JSON text

A number is read off the front of a text that goes on with neither a digit nor a point nor an
exponent. An integer comes back as it was (`Json.readNumber_natChars`). A decimal does so too,
except that one written positionally without digits after the point comes back with the zero that
is written there (`Json.readNumber_writeDecimal`); as a number it is the same
(`RealFormat.toDouble_reread`).
-/

namespace Mutation

namespace Text

/-- Only zero has a numeral that begins with a zero. -/
theorem natChars_head_ne_zero {n : Nat} (positive : 0 < n) {c : Char} {cs : List Char}
    (h : natChars n = c :: cs) : c ≠ '0' := by
  induction n using Nat.strong_induction_on generalizing c cs with
  | _ n ih =>
    unfold natChars at h
    by_cases small : n < 10
    · have digit : ∀ d < 10, 0 < d → d.digitChar ≠ '0' := by decide
      rw [Nat.toDigits_of_lt_base small] at h
      obtain ⟨rfl, -⟩ := List.cons.inj h
      exact digit n small positive
    · have tens : 0 < n / 10 := Nat.div_pos (Nat.not_lt.1 small) (by decide)
      rw [Nat.toDigits_of_base_le (by decide) (Nat.not_lt.1 small)] at h
      cases front : natChars (n / 10) with
      | nil => exact absurd front (natChars_ne_nil _)
      | cons d ds =>
        rw [natChars] at front
        rw [front] at h
        obtain ⟨rfl, -⟩ := List.cons.inj h
        exact ih (n / 10) (Nat.div_lt_self positive (by decide)) tens front

theorem natChars_leading {n : Nat} (h : (natChars n).head? = some '0') : natChars n = ['0'] := by
  rcases Nat.eq_zero_or_pos n with rfl | positive
  · exact Nat.toDigits_zero 10
  · cases chars : natChars n with
    | nil => exact absurd chars (natChars_ne_nil n)
    | cons c cs =>
      rw [chars] at h
      exact absurd (Option.some.inj h) (natChars_head_ne_zero positive chars)

theorem digits?_of_isDigit {cs : List Char} (nonempty : cs ≠ [])
    (digits : ∀ c ∈ cs, c.isDigit = true) : digits? cs = some (Nat.ofDigitChars 10 cs 0) := by
  cases cs with
  | nil => exact absurd rfl nonempty
  | cons c cs => exact digitsFrom?_of_isDigit digits 0

theorem ofDigitChars_natChars (n : Nat) : Nat.ofDigitChars 10 (natChars n) 0 = n :=
  Nat.ofDigitChars_ten_toDigits

end Text

open Text

/-- The decimal that is read where `d` is written: a whole number that is written positionally is
followed by a point and a zero. -/
def RealFormat.reread (f : RealFormat) (d : Decimal) : Decimal :=
  let e := d.exponent + (natChars d.mantissa).length - 1
  if (d.mantissa = 0 ∨ (f.least ≤ e ∧ e ≤ f.most)) ∧ 0 ≤ d.exponent then
    ⟨d.mantissa * 10 ^ (d.exponent.toNat + 1), -1⟩
  else d

theorem RealFormat.toDouble_reread (f : RealFormat) (d : Decimal) (negative : Bool) :
    (f.reread d).toDouble negative = d.toDouble negative := by
  unfold reread
  dsimp only
  split
  · rename_i whole
    rw [← Decimal.toDouble_mul_pow (m := d.mantissa) (d.exponent.toNat + 1)]
    congr 2
    omega
  · rfl

namespace Json

/-- A number in front of the text ends there. -/
def EndsNumber (rest : List Char) : Prop :=
  ∀ c ∈ rest.head?, c.isDigit = false ∧ c ≠ '.' ∧ c ≠ 'e' ∧ c ≠ 'E'

variable {whole fraction ds rest : List Char}

theorem span_digits (digits : ∀ c ∈ ds, c.isDigit = true)
    (stops : ∀ c ∈ rest.head?, c.isDigit = false) :
    (ds ++ rest).span Char.isDigit = (ds, rest) := by
  have none : rest.takeWhile Char.isDigit = [] ∧ rest.dropWhile Char.isDigit = rest := by
    cases rest with
    | nil => exact ⟨rfl, rfl⟩
    | cons c rest =>
      have stop : ¬c.isDigit = true := by simp [stops c rfl]
      exact ⟨List.takeWhile_cons_of_neg stop, List.dropWhile_cons_of_neg stop⟩
  rw [List.span_eq_takeWhile_dropWhile, List.takeWhile_append_of_pos digits,
    List.dropWhile_append_of_pos digits, none.1, none.2, List.append_nil]

theorem readWhole_digits (nonempty : whole ≠ []) (digits : ∀ c ∈ whole, c.isDigit = true)
    (leading : whole.head? = some '0' → whole = ['0'])
    (stops : ∀ c ∈ rest.head?, c.isDigit = false) :
    readWhole (whole ++ rest) = some (whole, rest) := by
  have spanned := span_digits digits stops
  unfold readWhole
  split
  · rename_i tail same
    cases whole with
    | nil => exact absurd rfl nonempty
    | cons c whole =>
      obtain ⟨rfl, rfl⟩ := List.cons.inj same
      obtain ⟨-, rfl⟩ := List.cons.inj (leading rfl)
      rfl
  · rw [spanned]
    split
    · rename_i same
      exact absurd (congrArg Prod.fst same) nonempty
    · rfl

theorem readFraction_digits (nonempty : fraction ≠ [])
    (digits : ∀ c ∈ fraction, c.isDigit = true) (stops : ∀ c ∈ rest.head?, c.isDigit = false) :
    readFraction ('.' :: (fraction ++ rest)) = some (fraction, rest) := by
  rw [readFraction, span_digits digits stops]
  split
  · rename_i same
    exact absurd (congrArg Prod.fst same) nonempty
  · rfl

theorem readFraction_none (stops : ∀ c ∈ rest.head?, c ≠ '.') :
    readFraction rest = some ([], rest) := by
  unfold readFraction
  split
  · exact absurd rfl (stops '.' rfl)
  · rfl

theorem readPower_none (ends : EndsNumber rest) : readPower rest = some (none, rest) := by
  cases rest with
  | nil => rfl
  | cons c rest =>
    obtain ⟨-, -, lower, upper⟩ := ends c rfl
    exact if_neg (by simp [lower, upper])

theorem readPower_natChars (n : Nat) (sign : List Char) (ends : EndsNumber rest)
    (signed : sign = [] ∨ sign = ['+'] ∨ sign = ['-']) :
    readPower ('e' :: (sign ++ (natChars n ++ rest))) =
      some (some (if sign = ['-'] then -(n : Int) else n), rest) := by
  have spanned : (natChars n ++ rest).span Char.isDigit = (natChars n, rest) :=
    span_digits (fun _ => isDigit_of_mem_natChars) fun c hc => (ends c hc).1
  rcases signed with rfl | rfl | rfl
  · cases chars : natChars n with
    | nil => exact absurd chars (natChars_ne_nil n)
    | cons d ds =>
      obtain ⟨plus, minus⟩ := natChars_head chars
      rw [chars, List.cons_append] at spanned
      have read := digits?_natChars n
      rw [chars] at read
      simp [readPower, spanned, read, plus, minus, -List.span_eq_takeWhile_dropWhile]
  · simp [readPower, spanned, digits?_natChars, -List.span_eq_takeWhile_dropWhile]
  · simp [readPower, spanned, digits?_natChars, -List.span_eq_takeWhile_dropWhile]

theorem readPower_power (f : RealFormat) (e : Int) (ends : EndsNumber rest) :
    readPower (f.power e ++ rest) = some (some e, rest) := by
  unfold RealFormat.power
  cases e with
  | ofNat n =>
    split
    · exact readPower_natChars n ['+'] ends (by simp)
    · exact readPower_natChars n [] ends (by simp)
  | negSucc n =>
    rw [if_neg (by omega)]
    exact readPower_natChars (n + 1) ['-'] ends (by simp)

/-- A natural number is read as an integer with the sign that stood before it. -/
theorem readNumber_natChars (negative : Bool) (n : Nat) (ends : EndsNumber rest) :
    readNumber negative (natChars n ++ rest) = some (.int negative n, rest) := by
  have stops : ∀ c ∈ rest.head?, c.isDigit = false := fun c hc => (ends c hc).1
  rw [readNumber, readWhole_digits (natChars_ne_nil n) (fun _ => isDigit_of_mem_natChars)
    natChars_leading stops]
  simp only [readFraction_none fun c hc => (ends c hc).2.1, readPower_none ends, List.append_nil,
    digits?_natChars, Option.bind_eq_bind, Option.bind_some, Option.pure_def]

/-- A number with a point and digits on both sides of it. -/
theorem readNumber_point (negative : Bool) (whole fraction : List Char) (nonempty : whole ≠ [])
    (digits : ∀ c ∈ whole, c.isDigit = true)
    (leading : whole.head? = some '0' → whole = ['0'])
    (nonempty' : fraction ≠ []) (digits' : ∀ c ∈ fraction, c.isDigit = true)
    (ends : EndsNumber rest) :
    readNumber negative (whole ++ '.' :: (fraction ++ rest)) =
      some (.decimal negative
        ⟨Nat.ofDigitChars 10 (whole ++ fraction) 0, -(fraction.length : Int)⟩, rest) := by
  have all : ∀ c ∈ whole ++ fraction, c.isDigit = true :=
    List.forall_mem_append.2 ⟨digits, digits'⟩
  rw [readNumber, readWhole_digits nonempty digits leading (by rintro c ⟨⟩; rfl)]
  simp only [readFraction_digits nonempty' digits' fun c hc => (ends c hc).1, readPower_none ends,
    digits?_of_isDigit (List.append_ne_nil_of_left_ne_nil nonempty _) all, Option.bind_eq_bind,
    Option.bind_some, Option.pure_def]
  split
  · exact absurd rfl nonempty'
  · simp

/-- A number with an exponent; its fraction may be missing. -/
theorem readNumber_power (negative : Bool) (f : RealFormat) (e : Int) (whole fraction : List Char)
    (nonempty : whole ≠ [])
    (digits : ∀ c ∈ whole, c.isDigit = true) (leading : whole.head? = some '0' → whole = ['0'])
    (digits' : ∀ c ∈ fraction, c.isDigit = true) (ends : EndsNumber rest) :
    readNumber negative
        (whole ++ ((if fraction = [] then [] else '.' :: fraction) ++ (f.power e ++ rest))) =
      some (.decimal negative
        ⟨Nat.ofDigitChars 10 (whole ++ fraction) 0, e - fraction.length⟩, rest) := by
  have all : ∀ c ∈ whole ++ fraction, c.isDigit = true :=
    List.forall_mem_append.2 ⟨digits, digits'⟩
  have stops : ∀ c ∈ (f.power e ++ rest).head?, c.isDigit = false ∧ c ≠ '.' := by
    rintro c ⟨⟩
    exact ⟨rfl, by decide⟩
  have read : readFraction ((if fraction = [] then [] else '.' :: fraction) ++
      (f.power e ++ rest)) = some (fraction, f.power e ++ rest) := by
    split
    · rename_i none
      rw [none]
      exact readFraction_none fun c hc => (stops c hc).2
    · rename_i some
      exact readFraction_digits some digits' fun c hc => (stops c hc).1
  have stops' : ∀ c ∈ ((if fraction = [] then [] else '.' :: fraction) ++
      (f.power e ++ rest)).head?, c.isDigit = false := by
    split
    · exact fun c hc => (stops c hc).1
    · rintro c ⟨⟩
      rfl
  rw [readNumber, readWhole_digits nonempty digits leading stops']
  simp only [read, readPower_power f e ends,
    digits?_of_isDigit (List.append_ne_nil_of_left_ne_nil nonempty _) all, Option.bind_eq_bind,
    Option.bind_some, Option.pure_def, Option.getD_some]

theorem forall_isDigit_replicate (n : Nat) : ∀ c ∈ List.replicate n '0', c.isDigit = true := by
  intro c hc
  rw [List.eq_of_mem_replicate hc]
  rfl

/-- Digits with a point after the first `k` of them. -/
theorem readNumber_positional (negative : Bool) {k : Int} (nonempty : ds ≠ [])
    (digits : ∀ c ∈ ds, c.isDigit = true)
    (leading : ds.head? = some '0' → ds = ['0'] ∧ k = 1) (ends : EndsNumber rest) :
    readNumber negative (RealFormat.positional ds k ++ rest) =
      some (.decimal negative
        (if k < ds.length then ⟨Nat.ofDigitChars 10 ds 0, k - ds.length⟩
          else ⟨Nat.ofDigitChars 10 ds 0 * 10 ^ ((k - ds.length).toNat + 1), -1⟩), rest) := by
  have size : 0 < ds.length := List.length_pos_iff.2 nonempty
  unfold RealFormat.positional
  split
  · -- all digits are behind the point
    rename_i small
    have read := readNumber_point negative ['0'] (List.replicate (-k).toNat '0' ++ ds) (by simp)
      (List.forall_mem_singleton.2 rfl) (fun _ => rfl)
      (List.append_ne_nil_of_right_ne_nil _ nonempty)
      (List.forall_mem_append.2 ⟨forall_isDigit_replicate _, digits⟩) ends
    have value : Nat.ofDigitChars 10 (['0'] ++ (List.replicate (-k).toNat '0' ++ ds)) 0 =
        Nat.ofDigitChars 10 ds 0 := by
      simp [Nat.ofDigitChars_cons, Nat.ofDigitChars_append, Nat.ofDigitChars_replicate_zero]
    have exponent : -((List.replicate (-k).toNat '0' ++ ds).length : Int) = k - ds.length := by
      rw [List.length_append, List.length_replicate]
      omega
    rw [value, exponent] at read
    rw [if_pos (by omega)]
    exact read
  · rename_i large
    dsimp only
    split
    · -- all digits are before the point
      rename_i behind
      have short : ds.length ≤ k.toNat := List.drop_eq_nil_iff.1 behind
      have read := readNumber_point negative (ds ++ List.replicate (k.toNat - ds.length) '0') ['0']
        (List.append_ne_nil_of_left_ne_nil nonempty _)
        (List.forall_mem_append.2 ⟨digits, forall_isDigit_replicate _⟩)
        (by
          rw [List.head?_append_of_ne_nil _ nonempty]
          intro zero
          obtain ⟨rfl, rfl⟩ := leading zero
          rfl)
        (by simp) (List.forall_mem_singleton.2 rfl) ends
      have value : Nat.ofDigitChars 10
          (ds ++ List.replicate (k.toNat - ds.length) '0' ++ ['0']) 0 =
          Nat.ofDigitChars 10 ds 0 * 10 ^ ((k - ds.length).toNat + 1) := by
        have same : (k - ds.length).toNat = k.toNat - ds.length := by omega
        rw [Nat.ofDigitChars_append, Nat.ofDigitChars_append, Nat.ofDigitChars_replicate_zero,
          same, Nat.pow_succ, Nat.ofDigitChars_cons, Nat.ofDigitChars_nil]
        simp only [Nat.sub_self, Nat.add_zero]
        ring
      rw [value] at read
      rw [if_neg (by omega), List.take_of_length_le short, List.append_assoc]
      exact read
    · -- the point is between the digits
      rename_i some
      have long : k.toNat < ds.length := by
        by_contra short
        exact some (List.drop_eq_nil_iff.2 (Nat.not_lt.1 short))
      have front : ds.take k.toNat ≠ [] :=
        List.length_pos_iff.1 (by rw [List.length_take]; omega)
      have read := readNumber_point negative (ds.take k.toNat) (ds.drop k.toNat) front
        (fun c hc => digits c (List.mem_of_mem_take hc))
        (by
          rw [List.head?_take, if_neg (by omega)]
          intro zero
          obtain ⟨rfl, rfl⟩ := leading zero
          exact absurd long (by decide))
        some (fun c hc => digits c (List.mem_of_mem_drop hc)) ends
      have exponent : -((ds.drop k.toNat).length : Int) = k - ds.length := by
        rw [List.length_drop]
        omega
      rw [List.take_append_drop, exponent] at read
      have none : List.replicate (k.toNat - ds.length) '0' = [] := by
        rw [Nat.sub_eq_zero_of_le long.le, List.replicate_zero]
      rw [if_pos (by omega), none, List.append_nil, List.append_assoc]
      exact read

/-- Digits with a point after the first of them, and an exponent. -/
theorem readNumber_scientific (negative : Bool) (f : RealFormat) (e : Int) (nonempty : ds ≠ [])
    (digits : ∀ c ∈ ds, c.isDigit = true) (ends : EndsNumber rest) :
    readNumber negative (f.scientific ds e ++ rest) =
      some (.decimal negative ⟨Nat.ofDigitChars 10 ds 0, e - (ds.length - 1 : Nat)⟩, rest) := by
  cases ds with
  | nil => exact absurd rfl nonempty
  | cons d ds =>
    obtain ⟨first, others⟩ := List.forall_mem_cons.1 digits
    have read := readNumber_power negative f e [d] ds (by simp)
      (by simpa using first) (by simp) others ends
    cases ds with
    | nil => exact read
    | cons d' ds =>
      rw [if_neg (by simp)] at read
      simpa [RealFormat.scientific] using read

/-- A decimal is read in the form it was written in. A zero has no exponent. -/
theorem readNumber_writeDecimal (negative : Bool) (f : RealFormat) {d : Decimal}
    (zero : d.mantissa = 0 → d.exponent = 0) (ends : EndsNumber rest) :
    readNumber negative (f.writeDecimal false d ++ rest) =
      some (.decimal negative (f.reread d), rest) := by
  have nonempty := natChars_ne_nil d.mantissa
  have digits : ∀ c ∈ natChars d.mantissa, c.isDigit = true := fun _ => isDigit_of_mem_natChars
  have size : 0 < (natChars d.mantissa).length := List.length_pos_iff.2 nonempty
  have value := ofDigitChars_natChars d.mantissa
  unfold RealFormat.writeDecimal RealFormat.reread
  dsimp only
  rw [if_neg Bool.false_ne_true, List.nil_append]
  split
  · rename_i plain
    have exponent : d.exponent + (natChars d.mantissa).length - 1 + 1 -
        (natChars d.mantissa).length = d.exponent := by omega
    rw [readNumber_positional negative nonempty digits ?_ ends, value, exponent]
    · by_cases whole : 0 ≤ d.exponent
      · rw [if_neg (by omega), if_pos ⟨plain, whole⟩]
      · rw [if_pos (by omega), if_neg fun both => whole both.2]
    · intro first
      have chars := natChars_leading first
      rw [chars] at value
      have none : d.mantissa = 0 := value.symm
      rw [chars, zero none]
      exact ⟨rfl, rfl⟩
  · rename_i scientific
    rw [readNumber_scientific negative f _ nonempty digits ends, value,
      if_neg fun both => scientific both.1]
    have exponent : d.exponent + (natChars d.mantissa).length - 1 -
        ((natChars d.mantissa).length - 1 : Nat) = d.exponent := by omega
    rw [exponent]

end Json

end Mutation
