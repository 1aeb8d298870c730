import Mathlib.Data.List.Nodup
import Mutation.Operator.OnExpr
import Mutation.Proofs.ArgumentText

/-!
# Values in place of a literal

A scan proposes for a literal its variants: the neighbours of a number and zero, the negation of a
boolean, the neighbouring characters, and for a text the empty one and the one with its two middle
characters exchanged. `Literal.Variant` says which they are, without regard to how they are listed;
those that are listed are exactly these, each once (`Literal.mem_replacements_iff`,
`Literal.nodup_replacements`).

The value is handed over as text and read back as a value of the kind of the literal it replaces.
Every literal but a real one is read back from its text (`Literal.text_roundTrip`), so the operator
puts the very value in place of the literal (`Literal.replacements_change`).
-/

namespace Mutation

/-! ### The middle of a text -/

/-- The two elements in the middle change places. In a list of odd length there is one element more
behind them than before. -/
def Crossed {α : Type} (xs ys : List α) : Prop :=
  ∃ before a b behind, xs = before ++ a :: b :: behind ∧ ys = before ++ b :: a :: behind ∧
    (behind.length = before.length ∨ behind.length = before.length + 1)

section

variable {α : Type}

theorem length_around (before behind : List α) (a b : α) :
    (before ++ a :: b :: behind).length = before.length + behind.length + 2 := by
  simp only [List.length_append, List.length_cons]
  omega

theorem swapAt_append (before behind : List α) (a b : α) :
    swapAt (before ++ a :: b :: behind) before.length (before.length + 1) =
      before ++ b :: a :: behind := by
  simp [swapAt]

/-- A list of two or more elements has a middle. -/
theorem exists_middle {xs : List α} (long : 2 ≤ xs.length) :
    ∃ before a b behind, xs = before ++ a :: b :: behind ∧ before.length + 1 = xs.length / 2 := by
  have split := List.take_append_drop (xs.length / 2 - 1) xs
  have before : (xs.take (xs.length / 2 - 1)).length + 1 = xs.length / 2 := by
    rw [List.length_take]
    omega
  have behind : 2 ≤ (xs.drop (xs.length / 2 - 1)).length := by
    rw [List.length_drop]
    omega
  cases rest : xs.drop (xs.length / 2 - 1) with
  | nil => simp [rest] at behind
  | cons a rest' =>
    cases rest' with
    | nil => simp [rest] at behind
    | cons b rest' => exact ⟨_, a, b, rest', by rw [← rest, split], before⟩

end

namespace Literal

theorem toList_scramble {s : String} {before behind : List Char} {a b : Char}
    (split : s.toList = before ++ a :: b :: behind)
    (middle : behind.length = before.length ∨ behind.length = before.length + 1) :
    (scramble s).toList = before ++ b :: a :: behind := by
  have length : s.toList.length = before.length + behind.length + 2 := by
    rw [split, length_around]
  have long : ¬s.toList.length < 2 := by omega
  have mid : s.toList.length / 2 = before.length + 1 := by omega
  rw [scramble, String.toList_ofList, if_neg long, mid, Nat.add_sub_cancel, split, swapAt_append]

/-- A text and its scramble differ by the exchange in the middle, and only they do. -/
theorem crossed_iff {s t : String} :
    Crossed s.toList t.toList ↔ 2 ≤ s.toList.length ∧ t = scramble s := by
  constructor
  · rintro ⟨before, a, b, behind, split, crossed, middle⟩
    have long : 2 ≤ s.toList.length := by
      rw [split, length_around]
      omega
    refine ⟨long, String.toList_injective ?_⟩
    rw [crossed, toList_scramble split middle]
  · rintro ⟨long, rfl⟩
    obtain ⟨before, a, b, behind, split, middle⟩ := exists_middle long
    have lengths : behind.length = before.length ∨ behind.length = before.length + 1 := by
      rw [split, length_around] at middle
      omega
    exact ⟨before, a, b, behind, split, toList_scramble split lengths, lengths⟩

theorem scramble_of_short {s : String} (short : s.toList.length < 2) : scramble s = s := by
  rw [scramble, if_pos short, String.ofList_toList]

/-! ### The rule -/

/-- Literals other than reals are compared as terms. -/
theorem same_iff {a b : Literal} (real : ∀ x, a ≠ .real x) : a.same b = true ↔ a = b := by
  have agree {α : Type} [BEq α] [LawfulBEq α] {f : α → Literal} (inj : ∀ x y, f x = f y → x = y)
      (x y : α) : (x == y) = true ↔ f x = f y :=
    beq_iff_eq.trans ⟨congrArg f, inj x y⟩
  cases a with
  | real x => exact absurd rfl (real x)
  | int x =>
    cases b with
    | int y => exact agree (fun _ _ => Literal.int.inj) x y
    | _ => exact ⟨nofun, nofun⟩
  | bool x =>
    cases b with
    | bool y => exact agree (fun _ _ => Literal.bool.inj) x y
    | _ => exact ⟨nofun, nofun⟩
  | char x =>
    cases b with
    | char y => exact agree (fun _ _ => Literal.char.inj) x y
    | _ => exact ⟨nofun, nofun⟩
  | string x =>
    cases b with
    | string y => exact agree (fun _ _ => Literal.string.inj) x y
    | _ => exact ⟨nofun, nofun⟩
  | null =>
    cases b with
    | null => exact ⟨fun _ => rfl, fun _ => rfl⟩
    | _ => exact ⟨nofun, nofun⟩

/-- The values that may stand in place of a literal of type `ty`. -/
inductive Variant (ty : Ty) (sentinel : String) : Literal → Literal → Prop where
  | up {v w : Wide} (next : w.val = v.val + 1) : Variant ty sentinel (.int v) (.int w)
  /-- Natural numbers are not counted down below zero. -/
  | down {v w : Wide} (next : w.val = v.val - 1) (natural : ty = .nat → 0 ≤ w.val) :
    Variant ty sentinel (.int v) (.int w)
  | zero {v w : Wide} (other : v.val ≠ 0) (zero : w.val = 0) : Variant ty sentinel (.int v) (.int w)
  | negation (b : Bool) : Variant ty sentinel (.bool b) (.bool !b)
  | after {c d : Char} (next : d.toNat = c.toNat + 1) : Variant ty sentinel (.char c) (.char d)
  | before {c d : Char} (next : d.toNat + 1 = c.toNat) : Variant ty sentinel (.char c) (.char d)
  /-- A text is put in place of the empty one. -/
  | filled : Variant ty sentinel (.string "") (.string sentinel)
  | emptied {s : String} (filled : s ≠ "") : Variant ty sentinel (.string s) (.string "")
  | crossed {s t : String} (middle : Crossed s.toList t.toList) (other : t ≠ s) :
    Variant ty sentinel (.string s) (.string t)

section

variable {ty : Ty} {sentinel : String} {l r : Literal}

theorem mem_intReplacements_iff {v w : Wide} :
    w ∈ intReplacements v ty ↔ w.val = v.val + 1 ∨ (w.val = v.val - 1 ∧ (ty = .nat → 0 ≤ w.val)) ∨
      (v.val ≠ 0 ∧ w.val = 0) := by
  have near (u : Wide) : u ∈ (Wide.ofInt? (v.val + 1)).toList ++
        ((Wide.ofInt? (v.val - 1)).toList.filter fun w => ty ≠ .nat || 0 ≤ w.val) ↔
      u.val = v.val + 1 ∨ (u.val = v.val - 1 ∧ (ty = .nat → 0 ≤ u.val)) := by
    rw [List.mem_append, List.mem_filter, Option.mem_toList, Option.mem_toList,
      Wide.ofInt?_eq_some_iff, Wide.ofInt?_eq_some_iff, Bool.or_eq_true, decide_eq_true_iff,
      decide_eq_true_iff, ← imp_iff_not_or]
  simp only [intReplacements]
  split
  · rename_i found
    rw [near]
    refine ⟨fun h => h.imp_right .inl, ?_⟩
    rintro (h | h | ⟨other, zero⟩)
    · exact .inl h
    · exact .inr h
    · simp only [Bool.or_eq_true, decide_eq_true_iff, List.any_eq_true, other, false_or] at found
      obtain ⟨u, hu, zero'⟩ := found
      have same : w.val = u.val := zero.trans zero'.symm
      rw [same]
      exact (near u).1 hu
  · rename_i apart
    simp only [Bool.or_eq_true, decide_eq_true_iff, not_or] at apart
    have atZero : w = .zero ↔ w.val = 0 := by
      rw [← Wide.ofInt?_eq_some_iff, eq_comm, ← Option.some_inj]
      rfl
    rw [List.mem_append, near, List.mem_singleton, atZero, or_assoc]
    simp [apart.1]

theorem charOfNat?_eq_some_iff {n : Nat} {d : Char} : charOfNat? n = some d ↔ d.toNat = n := by
  unfold charOfNat?
  constructor
  · intro h
    by_cases valid : n.isValidChar
    · rw [dif_pos valid] at h
      cases h
      rfl
    · rw [dif_neg valid] at h
      cases h
  · rintro rfl
    exact dif_pos d.valid

theorem mem_charReplacements_iff {c d : Char} :
    d ∈ charReplacements c ↔ d.toNat = c.toNat + 1 ∨ d.toNat + 1 = c.toNat := by
  have below : d ∈ (if c.toNat = 0 then [] else (charOfNat? (c.toNat - 1)).toList) ↔
      d.toNat + 1 = c.toNat := by
    split
    · rename_i first
      simp [first]
    · rw [Option.mem_toList, charOfNat?_eq_some_iff]
      omega
  rw [charReplacements, List.mem_append, Option.mem_toList, charOfNat?_eq_some_iff, below]

theorem mem_stringReplacements_iff {s t : String} :
    t ∈ stringReplacements s sentinel ↔
      (s = "" ∧ t = sentinel) ∨ (s ≠ "" ∧ t = "") ∨ (Crossed s.toList t.toList ∧ t ≠ s) := by
  have empty : s.isEmpty = true ↔ s = "" := String.isEmpty_iff
  rw [crossed_iff]
  unfold stringReplacements
  split
  · rename_i given
    obtain rfl := empty.1 given
    simp
  · rename_i given
    rw [empty] at given
    split
    · rename_i same
      have crossed : ¬(t = s ∧ t ≠ s) := fun h => h.2 h.1
      simp [given, same, and_assoc, crossed]
    · rename_i other
      have long : 2 ≤ s.toList.length :=
        Nat.le_of_not_lt fun short => other (scramble_of_short short)
      simp only [List.mem_cons, List.not_mem_nil, or_false, given, false_and, ne_eq,
        not_false_eq_true, true_and, false_or, long]
      exact or_congr_right ⟨fun h => ⟨h, h ▸ other⟩, And.left⟩

/-- The values that are proposed are the variants. -/
theorem mem_replacements_iff (real : ∀ v, l ≠ .real v) :
    r ∈ l.replacements ty sentinel ↔ Variant ty sentinel l r := by
  cases l with
  | real v => exact absurd rfl (real v)
  | null =>
    constructor <;> intro h <;> cases h
  | bool b =>
    rw [replacements, List.mem_singleton]
    constructor
    · rintro rfl
      exact .negation b
    · rintro ⟨⟩
      rfl
  | int v =>
    rw [replacements, List.mem_map]
    simp only [mem_intReplacements_iff]
    constructor
    · rintro ⟨w, next | ⟨next, natural⟩ | ⟨other, zero⟩, rfl⟩
      · exact .up next
      · exact .down next natural
      · exact .zero other zero
    · intro h
      cases h with
      | up next => exact ⟨_, .inl next, rfl⟩
      | down next natural => exact ⟨_, .inr (.inl ⟨next, natural⟩), rfl⟩
      | zero other zero => exact ⟨_, .inr (.inr ⟨other, zero⟩), rfl⟩
  | char c =>
    rw [replacements, List.mem_map]
    simp only [mem_charReplacements_iff]
    constructor
    · rintro ⟨d, next | next, rfl⟩
      · exact .after next
      · exact .before next
    · intro h
      cases h with
      | after next => exact ⟨_, .inl next, rfl⟩
      | before next => exact ⟨_, .inr next, rfl⟩
  | string s =>
    rw [replacements, List.mem_map]
    simp only [mem_stringReplacements_iff]
    constructor
    · rintro ⟨t, ⟨rfl, rfl⟩ | ⟨filled, rfl⟩ | ⟨middle, other⟩, rfl⟩
      · exact .filled
      · exact .emptied filled
      · exact .crossed middle other
    · intro h
      cases h with
      | filled => exact ⟨_, .inl ⟨rfl, rfl⟩, rfl⟩
      | emptied filled => exact ⟨_, .inr (.inl ⟨filled, rfl⟩), rfl⟩
      | crossed middle other => exact ⟨_, .inr (.inr ⟨middle, other⟩), rfl⟩

namespace Variant

/-- A natural number stays one. -/
theorem natural {v w : Wide} (h : Variant ty sentinel (.int v) (.int w)) (natural : ty = .nat)
    (positive : 0 ≤ v.val) : 0 ≤ w.val := by
  cases h with
  | up next => omega
  | down next kept => exact kept natural
  | zero other zero => omega

/-- A text that is not empty becomes so, or its two middle characters change places. -/
theorem text {s : String} (h : Variant ty sentinel (.string s) r) (given : s ≠ "") :
    r = .string "" ∨ ∃ t, r = .string t ∧ Crossed s.toList t.toList := by
  cases h with
  | filled => exact absurd rfl given
  | emptied _ => exact .inl rfl
  | crossed middle other => exact .inr ⟨_, rfl, middle⟩

variable (h : Variant ty sentinel l r)
include h

/-- A variant has the kind of the literal. -/
theorem kind_eq : r.kind = l.kind := by
  cases h <;> rfl

theorem not_real (v : Double) : r ≠ .real v := by
  cases h <;> rintro ⟨⟩

/-- A variant is another value. -/
theorem ne (filled : sentinel ≠ "") : r ≠ l := by
  intro same
  cases h with
  | up next =>
    cases same
    omega
  | down next natural =>
    cases same
    omega
  | zero other zero =>
    cases same
    exact other zero
  | negation b => cases b <;> cases same
  | after next =>
    cases same
    omega
  | before next =>
    cases same
    omega
  | filled => exact filled (string.inj same)
  | emptied given => exact given (string.inj same).symm
  | crossed middle other => exact other (string.inj same)

/-- The text of a variant is an argument. -/
theorem make : Operator.make .literalReplacement (some r.text) = .ok (.setLiteral r.text) := by
  have solid := isBlankText_text h.not_real
  have denoted : Operator.ofArgument .literalReplacement r.text = .ok (.setLiteral r.text) := rfl
  simp [Operator.make, Kind.takesArgument, Option.filter, solid, denoted]

/-- It is put in place of the literal. -/
theorem setLiteral (filled : sentinel ≠ "") {e : Expr} (he : e.kind = .literal l) :
    e.setLiteral r.text = .done { e with kind := .literal r } := by
  have read : readAs l.kind r.text = some r := h.kind_eq ▸ readAs_text h.not_real
  have other : ¬r.same l = true := fun same => h.ne filled ((same_iff h.not_real).1 same)
  simp only [Expr.setLiteral, he, read, if_neg other]

end Variant

end

/-! ### No value and no text twice -/

/-- Literals of one kind are known from their texts, real ones apart. -/
theorem text_inj {x y : Literal} (hx : ∀ v, x ≠ .real v) (hy : ∀ v, y ≠ .real v)
    (kind : x.kind = y.kind) (same : x.text = y.text) : x = y := by
  have read := readAs_text hx
  rw [same, kind, readAs_text hy] at read
  exact (Option.some.inj read).symm

theorem nodup_intReplacements (v : Wide) (ty : Ty) : (intReplacements v ty).Nodup := by
  have up {w : Wide} (h : w ∈ (Wide.ofInt? (v.val + 1)).toList) : w.val = v.val + 1 :=
    Wide.ofInt?_eq_some_iff.1 (Option.mem_toList.1 h)
  have down {w : Wide} (h : w ∈ (Wide.ofInt? (v.val - 1)).toList) : w.val = v.val - 1 :=
    Wide.ofInt?_eq_some_iff.1 (Option.mem_toList.1 h)
  have near : ((Wide.ofInt? (v.val + 1)).toList ++
      (Wide.ofInt? (v.val - 1)).toList.filter fun w => ty ≠ .nat || 0 ≤ w.val).Nodup := by
    refine List.nodup_append.2 ⟨Option.toList_nodup _, (Option.toList_nodup _).filter _, ?_⟩
    rintro w above _ below rfl
    have := up above
    have := down (List.mem_filter.1 below).1
    omega
  simp only [intReplacements]
  split
  · exact near
  · rename_i other
    simp only [Bool.or_eq_true, decide_eq_true_eq, List.any_eq_true, not_or, not_exists,
      not_and] at other
    refine List.nodup_append.2 ⟨near, List.nodup_singleton _, ?_⟩
    rintro w hw _ zero rfl
    obtain rfl := List.mem_singleton.1 zero
    exact other.2 _ hw rfl

theorem nodup_charReplacements (c : Char) : (charReplacements c).Nodup := by
  unfold charReplacements
  refine List.nodup_append.2 ⟨Option.toList_nodup _, ?_, ?_⟩
  · split
    · exact .nil
    · exact Option.toList_nodup _
  · rintro d above _ below rfl
    split at below
    · cases below
    · have := charOfNat?_eq_some_iff.1 (Option.mem_toList.1 above)
      have := charOfNat?_eq_some_iff.1 (Option.mem_toList.1 below)
      omega

theorem nodup_stringReplacements (s sentinel : String) : (stringReplacements s sentinel).Nodup := by
  unfold stringReplacements
  split
  · exact List.nodup_singleton _
  · rename_i filled
    split
    · exact List.nodup_singleton _
    · rename_i other
      have long : 2 ≤ s.toList.length :=
        Nat.le_of_not_lt fun short => other (scramble_of_short short)
      obtain ⟨before, a, b, behind, -, crossed, -⟩ := crossed_iff.2 ⟨long, rfl⟩
      refine List.nodup_cons.2 ⟨fun empty => ?_, List.nodup_singleton _⟩
      rw [← List.mem_singleton.1 empty] at crossed
      simp at crossed

/-- No value is proposed twice. -/
theorem nodup_replacements {l : Literal} (real : ∀ v, l ≠ .real v) (ty : Ty) (sentinel : String) :
    (l.replacements ty sentinel).Nodup := by
  cases l with
  | real v => exact absurd rfl (real v)
  | null => exact .nil
  | bool b => exact List.nodup_singleton _
  | int v => exact (nodup_intReplacements v ty).map fun _ _ => int.inj
  | char c => exact (nodup_charReplacements c).map fun _ _ => char.inj
  | string s => exact (nodup_stringReplacements s sentinel).map fun _ _ => string.inj

/-- Two values do not have the same text. -/
theorem nodup_texts {l : Literal} (real : ∀ v, l ≠ .real v) (ty : Ty) (sentinel : String) :
    ((l.replacements ty sentinel).map Literal.text).Nodup := by
  refine (nodup_replacements real ty sentinel).map_on fun x hx y hy same => ?_
  have first := (mem_replacements_iff real).1 hx
  have second := (mem_replacements_iff real).1 hy
  exact text_inj first.not_real second.not_real (first.kind_eq.trans second.kind_eq.symm) same

/-! ### What is read and what is put in place -/

/-- What is read as a literal of some kind is one. -/
theorem kind_of_readAs {kind : LiteralKind} {text : String} {l : Literal}
    (h : readAs kind text = some l) : l.kind = kind := by
  unfold readAs at h
  cases kind with
  | int | real | string =>
    obtain ⟨_, -, rfl⟩ := Option.map_eq_some_iff.1 h
    rfl
  | bool =>
    simp only [readBody?] at h
    split at h
    · cases h
      rfl
    · split at h <;> cases h
      rfl
  | char =>
    simp only [readBody?] at h
    split at h <;> cases h
    rfl
  | null =>
    simp only [readBody?] at h
    split at h <;> cases h
    rfl

/-- Every literal but a real one is read back from its text, whatever is read as a kind is of that
kind, and what is written inside quotes is read back. -/
theorem text_roundTrip :
    (∀ l : Literal, (∀ v, l ≠ .real v) → readAs l.kind l.text = some l) ∧
      (∀ (kind : LiteralKind) (s : String) (l : Literal), readAs kind s = some l → l.kind = kind) ∧
      ∀ s : String, unescape? (escape s.toList) = some s.toList :=
  ⟨fun _ real => readAs_text real, fun _ _ _ read => kind_of_readAs read,
    fun s => unescape?_escape s.toList⟩

/-- The least integer, and a text and a character that need every escape. -/
theorem text_roundTrip_escaped :
    readAs .int "-170141183460469231731687303715884105728" =
        some (.int ⟨-Wide.limit, by decide, by decide⟩) ∧
      readAs .string "\" \\\"\\\\\\'\\n\\r\\t \"" = some (.string " \"\\'\n\r\t ") ∧
      readAs .char "'\\''" = some (.char '\'') ∧ (Literal.char '\'').kind = .char ∧
      unescape? (escape "\\n".toList) = some "\\n".toList := by
  obtain ⟨read, kind, inside⟩ := text_roundTrip
  have least : (Literal.int ⟨-Wide.limit, by decide, by decide⟩).text =
      "-170141183460469231731687303715884105728" := by decide +kernel
  have quoted : (Literal.string " \"\\'\n\r\t ").text = "\" \\\"\\\\\\'\\n\\r\\t \"" := by
    decide +kernel
  have quote : (Literal.char '\'').text = "'\\''" := by decide +kernel
  have readQuote : readAs .char "'\\''" = some (.char '\'') := quote ▸ read (.char '\'') nofun
  exact ⟨least ▸ read (.int _) nofun, quoted ▸ read (.string _) nofun, readQuote,
    kind _ _ _ readQuote, inside _⟩

/-- The values proposed for a literal are its variants, each once and each another value of the kind
of the literal. In place of a text they are the empty one and the one with its two middle characters
exchanged, and a natural number stays one. The text of each, given to the operator, puts this value
in place of the literal. -/
theorem replacements_change {l : Literal} (real : ∀ v, l ≠ .real v) (ty : Ty) {sentinel : String}
    (filled : sentinel ≠ "") :
    (l.replacements ty sentinel).Nodup ∧
      (∀ r, r ∈ l.replacements ty sentinel ↔ Variant ty sentinel l r) ∧
      ∀ r ∈ l.replacements ty sentinel,
        r ≠ l ∧ r.kind = l.kind ∧
        (∀ v w, ty = .nat → l = .int v → 0 ≤ v.val → r = .int w → 0 ≤ w.val) ∧
        (∀ s, l = .string s → s ≠ "" →
          r = .string "" ∨ ∃ t, r = .string t ∧ Crossed s.toList t.toList) ∧
        Operator.make .literalReplacement (some r.text) = .ok (.setLiteral r.text) ∧
        ∀ (site : Site) (e : Expr), e.kind = .literal l → site.isTarget e.span = true →
          (Operator.setLiteral r.text).onExpr site e = .done { e with kind := .literal r } := by
  refine ⟨nodup_replacements real ty sentinel, fun r => mem_replacements_iff real, fun r hr => ?_⟩
  have variant := (mem_replacements_iff real).1 hr
  refine ⟨variant.ne filled, variant.kind_eq, ?_, ?_, variant.make, ?_⟩
  · rintro v w natural rfl positive rfl
    exact variant.natural natural positive
  · rintro s rfl given
    exact variant.text given
  · intro site e he target
    rw [Operator.onExpr, if_pos target]
    exact variant.setLiteral filled he

/-- A text in the middle of which a quote and a backslash change places. -/
theorem replacements_change_escaped :
    (∀ v, Literal.string "a\"\\b" ≠ .real v) ∧ "mutant" ≠ "" ∧
      .string "a\\\"b" ∈ (Literal.string "a\"\\b").replacements .string "mutant" ∧
      Operator.make .literalReplacement (some "\"a\\\\\\\"b\"") =
        .ok (.setLiteral "\"a\\\\\\\"b\"") ∧
      (Operator.setLiteral "\"a\\\\\\\"b\"").onExpr { target := .anchor 7 }
          ⟨.literal (.string "a\"\\b"), .token 7, .string⟩ =
        .done ⟨.literal (.string "a\\\"b"), .token 7, .string⟩ := by
  have real : ∀ v, Literal.string "a\"\\b" ≠ .real v := nofun
  have filled : "mutant" ≠ "" := by decide
  obtain ⟨-, variants, changes⟩ := replacements_change real .string filled
  have crossed : Variant .string "mutant" (.string "a\"\\b") (.string "a\\\"b") :=
    .crossed ⟨['a'], '"', '\\', ['b'], rfl, rfl, .inl rfl⟩ (by decide)
  have proposed := (variants _).2 crossed
  have text : (Literal.string "a\\\"b").text = "\"a\\\\\\\"b\"" := by decide +kernel
  obtain ⟨-, -, -, -, made, put⟩ := changes _ proposed
  rw [text] at made put
  exact ⟨real, filled, proposed, made, put { target := .anchor 7 } _ rfl rfl⟩

end Literal

end Mutation
