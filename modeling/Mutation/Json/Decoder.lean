import Mutation.Json.Value

/-!
# Decoding JSON values

A decoder takes a nesting budget: the number of arrays and objects that may still be opened
around the parts it looks at. What it does not look at, such as an unknown field, costs
nothing. A record may come as an object or as an array of its fields in order. A field is
*required*, *optional* (missing or `null` in an object, never missing in an array), or has a
*default* (missing in an object or at the end of an array, never `null`). A variant without
data is its tag as a string, or an object with `null` under the tag.
-/

namespace Mutation

/-- A decoder: a nesting budget, a value, and what the value denotes. -/
abbrev Decoder (α : Type) := Nat → Json → Option α

namespace Decoder

/-- How many arrays and objects a decoded value may nest. -/
def nestingLimit : Nat := 127

/-- Decodes a value within the nesting limit. -/
def run {α : Type} (d : Decoder α) (j : Json) : Option α := d nestingLimit j

/-- A natural number below `limit`. -/
def natBelow (limit : Nat) : Decoder Nat
  | _, .int false n => if n < limit then some n else none
  | _, _ => none

/-- A 32-bit number. -/
def word32 : Decoder UInt32 := fun b j => (natBelow UInt32.size b j).map UInt32.ofNat

/-- A 64-bit number. -/
def word64 : Decoder UInt64 := fun b j => (natBelow UInt64.size b j).map UInt64.ofNat

/-- A 128-bit integer. -/
def wide : Decoder Wide
  | _, .int negative n => Wide.ofInt? (if negative then -(n : Int) else n)
  | _, _ => none

/-- A number that is finite in binary64. -/
def real : Decoder Double
  | _, .int negative n => finite ((Decimal.mk n 0).toDouble negative)
  | _, .decimal negative d => finite (d.toDouble negative)
  | _, _ => none
where
  finite (x : Double) : Option Double := if x.isFinite then some x else none

/-- A boolean. -/
def bool : Decoder Bool
  | _, .bool b => some b
  | _, _ => none

/-- A text. -/
def string : Decoder String
  | _, .str s => some s
  | _, _ => none

/-- A text of one character. -/
def char : Decoder Char
  | _, .str s =>
    match s.toList with
    | [c] => some c
    | _ => none
  | _, _ => none

/-- A list. -/
def list {α : Type} (d : Decoder α) : Decoder (List α)
  | b + 1, .arr items => items.mapM (d b)
  | _, _ => none

/-- A value or `null`. -/
def opt {α : Type} (d : Decoder α) : Decoder (Option α)
  | _, .null => some none
  | b, j => (d b j).map some

/-- A list of exactly two values. -/
def pair {α β : Type} (d : Decoder α) (e : Decoder β) : Decoder (α × β)
  | b + 1, .arr [x, y] => do return (← d b x, ← e b y)
  | _, _ => none

/-- A text that `f` knows. -/
def word {α : Type} (f : String → Option α) : Decoder α := fun b j => (string b j).bind f

/-- A variant: its tag, its data if it has any, and the budget left for the data. -/
def variant : Decoder (String × Option Json × Nat)
  | b, .str tag => some (tag, none, b)
  | b + 1, .obj [(tag, payload)] => some (tag, some payload, b)
  | _, _ => none

/-- A variant without data, of which `f` knows the tags. -/
def unitVariant {α : Type} (f : String → Option α) : Decoder α := fun b j =>
  match variant b j with
  | some (tag, none, _) => f tag
  | some (tag, some .null, _) => f tag
  | _ => none

/-- The fields of a record as they were found. -/
structure Fields where
  found : List (String × Json)
  /-- The record was an object, so that optional fields may be missing. -/
  named : Bool

/-- A record with these field names: an object in which no known field is repeated, or an array
that is not longer than the list of names. -/
def record {α : Type} (names : List String) (f : Fields → Nat → Option α) : Decoder α
  | b + 1, .obj fields =>
    let known := fields.filter fun (k, _) => names.contains k
    if (known.map (·.1)).Nodup then f ⟨known, true⟩ b else none
  | b + 1, .arr items =>
    if items.length ≤ names.length then f ⟨names.zip items, false⟩ b else none
  | _, _ => none

namespace Fields

/-- A required field. -/
def required {α : Type} (r : Fields) (name : String) (d : Decoder α) (b : Nat) : Option α :=
  (r.found.lookup name).bind (d b)

/-- An optional field. -/
def optional {α : Type} (r : Fields) (name : String) (d : Decoder α) (b : Nat) :
    Option (Option α) :=
  match r.found.lookup name with
  | some j => opt d b j
  | none => if r.named then some none else none

/-- A field with a default. -/
def defaulted {α : Type} (r : Fields) (name : String) (value : α) (d : Decoder α) (b : Nat) :
    Option α :=
  match r.found.lookup name with
  | some j => d b j
  | none => some value

end Fields

end Decoder

end Mutation
