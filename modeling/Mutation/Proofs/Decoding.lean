import Mutation.Json.Decoder
import Mutation.Proofs.JsonText

/-!
# Decoding what was written

A decoder *restores* a value from its JSON form when it gives the value back for what is read
where the form is written, provided that its budget covers the nesting of the form. Each way of
writing a value has its rule: numbers and texts, lists, missing values, records and variants.
-/

namespace Mutation

namespace Json

mutual
/-- How deep arrays and objects are nested. -/
def depth : Json → Nat
  | .arr items => depthItems items + 1
  | .obj fields => depthFields fields + 1
  | _ => 0

def depthItems : List Json → Nat
  | [] => 0
  | v :: vs => max v.depth (depthItems vs)

/-- How deep arrays and objects are nested in the values of some fields. -/
def depthFields : List (String × Json) → Nat
  | [] => 0
  | (_, v) :: fs => max v.depth (depthFields fs)
end

@[simp] theorem depthFields_nil : depthFields [] = 0 := rfl

@[simp] theorem depthFields_cons (k : String) (v : Json) (fs : List (String × Json)) :
    depthFields ((k, v) :: fs) = max v.depth (depthFields fs) := rfl

@[simp] theorem rereadFields_nil : rereadFields [] = [] := rfl

@[simp] theorem rereadFields_cons (k : String) (v : Json) (fs : List (String × Json)) :
    rereadFields ((k, v) :: fs) = (k, v.reread) :: rereadFields fs := rfl

/-- Reading back keeps the keys. -/
theorem rereadFields_names (fields : List (String × Json)) :
    (rereadFields fields).map Prod.fst = fields.map Prod.fst := by
  induction fields with
  | nil => rfl
  | cons f fs ih => rw [rereadFields, List.map_cons, ih, List.map_cons]

end Json

namespace Decoder

open Json

/-- The decoder gives `a` back where `j` was written, if the budget `b` covers `j`. -/
abbrev Restores {α : Type} (d : Decoder α) (b : Nat) (j : Json) (a : α) : Prop :=
  j.depth ≤ b → d b j.reread = some a

variable {α : Type} {d : Decoder α} {b : Nat} {j : Json} {a : α}

/-! ### Numbers and texts -/

/-- A natural number below the limit is restored. -/
theorem natBelow_nat {limit n : Nat} (h : n < limit) :
    natBelow limit b (Json.nat n).reread = some n :=
  if_pos h

@[simp] theorem word32_word (n : UInt32) : word32 b (Json.word n).reread = some n := by
  rw [word32, Json.word, natBelow_nat n.toNat_lt_size, Option.map_some, UInt32.ofNat_toNat]

@[simp] theorem word64_nat (n : UInt64) : word64 b (Json.nat n.toNat).reread = some n := by
  rw [word64, natBelow_nat n.toNat_lt_size, Option.map_some, UInt64.ofNat_toNat]

/-- So is a wide integer. -/
@[simp] theorem wide_wide (n : Wide) : wide b (Json.wide n).reread = some n := by
  have value : (if decide (n.val < 0) = true then -(n.val.natAbs : Int) else n.val.natAbs) =
      n.val := by
    split
    · rename_i negative
      have below := of_decide_eq_true negative
      omega
    · rename_i nonnegative
      have least : ¬n.val < 0 := fun below => nonnegative (decide_eq_true below)
      omega
  rw [Json.wide, reread, wide, value, Wide.ofInt?_val]

/-- So is a finite real. -/
@[simp] theorem real_real {x : Double} (finite : x.isFinite = true) :
    real b (Json.real x).reread = some x := by
  rw [Json.real, if_pos finite, reread, real, real.finite, RealFormat.toDouble_reread,
    Double.toDouble_decimalOf finite, Double.ofMagnitude_self, if_pos finite]

@[simp] theorem bool_bool (v : Bool) : bool b (Json.bool v).reread = some v := rfl

@[simp] theorem string_str (s : String) : string b (Json.str s).reread = some s := rfl

/-- A character is restored from a text of length one. -/
@[simp] theorem char_str (c : Char) : char b (Json.str (String.ofList [c])).reread = some c := by
  rw [reread, char, String.toList_ofList]

/-! ### Lists and missing values -/

theorem Restores.nil : (list d).Restores b (.arr []) [] := by
  intro fits
  cases b with
  | zero => exact absurd fits (by simp [depth])
  | succ b => rfl

/-- A list is restored member by member, each one level deeper. -/
theorem Restores.cons {items : List Json} {as : List α} (first : ∀ c < b, d.Restores c j a)
    (others : (list d).Restores b (.arr items) as) :
    (list d).Restores b (.arr (j :: items)) (a :: as) := by
  intro fits
  cases b with
  | zero => exact absurd fits (by simp [depth])
  | succ b =>
    rw [depth, depthItems, Nat.add_le_add_iff_right, Nat.max_le] at fits
    have rest := others (Nat.add_le_add_right fits.2 1)
    rw [reread, list] at rest
    rw [reread, rereadItems, list, List.mapM_cons, first b (Nat.lt_succ_self b) fits.1, rest]
    rfl

/-- A list is restored when each of its members is. -/
theorem Restores.list {f : α → Json} {as : List α}
    (each : ∀ c < b, ∀ a ∈ as, d.Restores c (f a) a) :
    (Decoder.list d).Restores b (Json.list f as) as := by
  induction as with
  | nil => exact .nil
  | cons a as ih =>
    refine .cons (fun c less => each c less a List.mem_cons_self) (ih fun c less x hx => ?_)
    exact each c less x (List.mem_cons_of_mem a hx)

/-- What is missing is restored as missing. -/
theorem Restores.missing : (opt d).Restores b .null none := fun _ => rfl

/-- What is there is restored when it is not written as `null`. -/
theorem Restores.present (found : j.reread ≠ .null) (h : d.Restores b j a) :
    (opt d).Restores b j (some a) := by
  intro fits
  rw [opt, h fits]
  · rfl
  · exact found

/-- An optional part is restored when the part is. -/
theorem Restores.opt {f : α → Json} {a : Option α} (found : ∀ x, (f x).reread ≠ .null)
    (each : ∀ x ∈ a, d.Restores b (f x) x) : (Decoder.opt d).Restores b (Json.opt f a) a := by
  cases a with
  | none => exact .missing
  | some x => exact .present (found x) (each x rfl)

/-- A pair is written as a list of two values. -/
theorem Restores.pair {β : Type} {e : Decoder β} {k : Json} {v : β}
    (first : ∀ c < b, d.Restores c j a) (second : ∀ c < b, e.Restores c k v) :
    (Decoder.pair d e).Restores b (.arr [j, k]) (a, v) := by
  intro fits
  cases b with
  | zero => exact absurd fits (by simp [depth])
  | succ b =>
    rw [depth, depthItems, depthItems, depthItems, Nat.add_le_add_iff_right, Nat.max_le,
      Nat.max_le] at fits
    have less := Nat.lt_succ_self b
    rw [reread, rereadItems, rereadItems, rereadItems, Decoder.pair, first b less fits.1,
      second b less fits.2.1]
    rfl

/-! ### Records -/

namespace Fields

variable {name key : String} {rest : List (String × Json)} {named : Bool}

theorem lookup_cons_self (j : Json) : ((name, j) :: rest).lookup name = some j := by
  rw [List.lookup_cons_self]

theorem lookup_cons_ne (other : key ≠ name) (j : Json) :
    ((key, j) :: rest).lookup name = rest.lookup name := by
  have different : (name == key) = false := beq_eq_false_iff_ne.2 other.symm
  rw [List.lookup_cons, different]

/-- The field at hand is read with its decoder. -/
@[simp] theorem required_self (j : Json) :
    Fields.required ⟨(name, j) :: rest, named⟩ name d b = d b j := by
  rw [required, lookup_cons_self, Option.bind_some]

/-- A field that comes later is looked for in the rest. -/
@[simp] theorem required_next (other : key ≠ name) (j : Json) :
    Fields.required ⟨(key, j) :: rest, named⟩ name d b =
      Fields.required ⟨rest, named⟩ name d b := by
  rw [required, lookup_cons_ne other, required]

/-- The same for a field that may be missing. -/
@[simp] theorem optional_self (j : Json) :
    Fields.optional ⟨(name, j) :: rest, named⟩ name d b = opt d b j := by
  rw [optional, lookup_cons_self]

/-- One that comes later is looked for in the rest. -/
@[simp] theorem optional_next (other : key ≠ name) (j : Json) :
    Fields.optional ⟨(key, j) :: rest, named⟩ name d b =
      Fields.optional ⟨rest, named⟩ name d b := by
  rw [optional, lookup_cons_ne other, optional]

/-- The same for a field with a default. -/
@[simp] theorem defaulted_self (value : α) (j : Json) :
    Fields.defaulted ⟨(name, j) :: rest, named⟩ name value d b = d b j := by
  rw [defaulted, lookup_cons_self]

/-- One that comes later is looked for in the rest. -/
@[simp] theorem defaulted_next (value : α) (other : key ≠ name) (j : Json) :
    Fields.defaulted ⟨(key, j) :: rest, named⟩ name value d b =
      Fields.defaulted ⟨rest, named⟩ name value d b := by
  rw [defaulted, lookup_cons_ne other, defaulted]

end Fields

/-- A record is restored from its fields, when they are the ones that the decoder knows. -/
theorem Restores.record {names : List String} {f : Fields → Nat → Option α}
    {fields : List (String × Json)} (known : fields.map Prod.fst = names) (distinct : names.Nodup)
    (parts : ∀ c < b, depthFields fields ≤ c → f ⟨rereadFields fields, true⟩ c = some a) :
    (Decoder.record names f).Restores b (.obj fields) a := by
  intro fits
  cases b with
  | zero => exact absurd fits (by simp [depth])
  | succ b =>
    have all : (rereadFields fields).filter (fun p => names.contains p.1) =
        rereadFields fields := by
      refine List.filter_eq_self.2 fun p hp => ?_
      rw [List.contains_iff_mem, ← known, ← rereadFields_names]
      exact List.mem_map_of_mem hp
    have once : ((rereadFields fields).map Prod.fst).Nodup := by
      rw [rereadFields_names, known]
      exact distinct
    have read := parts b (Nat.lt_succ_self b) (Nat.le_of_succ_le_succ fits)
    rw [← all] at once read
    exact (if_pos once).trans read

/-! ### Variants -/

/-- A variant with data is decoded by its tag, with less budget for the data. -/
theorem Restores.tagged {tag : String}
    (payload : ∀ c < b, j.depth ≤ c → d (c + 1) (Json.tagged tag j.reread) = some a) :
    d.Restores b (Json.tagged tag j) a := by
  intro fits
  cases b with
  | zero => exact absurd fits (by simp [Json.tagged, depth])
  | succ b =>
    have less : j.depth ≤ b := by
      rw [Json.tagged, depth, depthFields_cons, depthFields_nil, Nat.max_zero] at fits
      exact Nat.le_of_succ_le_succ fits
    exact payload b (Nat.lt_succ_self b) less

end Decoder

end Mutation
