import Mutation.Number.Decimal
import Mutation.Number.Wide

/-!
# JSON values

Numbers keep the form they were written in: an integer is a sign and a magnitude, so `-0`
differs from `0`, and any number with a point or an exponent is a decimal. The fields of an
object keep their order and their repetitions.
-/

namespace Mutation

/-- A JSON value. -/
inductive Json where
  | null
  | bool (value : Bool)
  | int (negative : Bool) (magnitude : Nat)
  | decimal (negative : Bool) (value : Decimal)
  | str (value : String)
  /-- A string, or an object with a key, in which an escape for half of a surrogate pair stands
  alone, so that it denotes no text. -/
  | garbled
  | arr (items : List Json)
  | obj (fields : List (String × Json))

namespace Json

/-- A natural number. -/
def nat (n : Nat) : Json := .int false n

/-- A 32-bit number. -/
def word (n : UInt32) : Json := nat n.toNat

/-- A 128-bit integer. -/
def wide (n : Wide) : Json := .int (n.val < 0) n.val.natAbs

/-- A binary64 number; one that is not finite has no JSON form and becomes `null`. -/
def real (x : Double) : Json :=
  if x.isFinite then .decimal x.negative (x.decimalOf .even) else .null

/-- A value that may be missing; a missing one becomes `null`. -/
def opt {α : Type} (f : α → Json) : Option α → Json
  | none => .null
  | some a => f a

/-- The values of a list. -/
def list {α : Type} (f : α → Json) (as : List α) : Json := .arr (as.map f)

/-- A variant with data: an object with the tag as its one key. -/
def tagged (tag : String) (payload : Json) : Json := .obj [(tag, payload)]

/-- The value of the last field with this name. -/
def field? (name : String) : List (String × Json) → Option Json
  | [] => none
  | (k, v) :: rest => (field? name rest).or (if k = name then some v else none)

end Json

end Mutation
