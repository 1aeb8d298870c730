import Mutation.Tree.Literal

/-!
# Static types

Every expression of a resolved tree carries its type. `Ty.unknown` stands for a type that was
not resolved or cannot be expressed; it fits nothing, not even itself.
-/

namespace Mutation

/-- A resolved static type. -/
inductive Ty where
  | int
  | nat
  | real
  | bool
  | char
  | string
  | bitVector (width : UInt32)
  | seq (elem : Ty)
  | set (elem : Ty)
  | multiset (elem : Ty)
  | map (key value : Ty)
  | array (elem : Ty) (dims : UInt32)
  | tuple (items : List Ty)
  | class (name : String)
  | datatype (name : String)
  | unknown
deriving Inhabited

namespace Ty

mutual
/-- Equality of types as a check. -/
def beq : Ty → Ty → Bool
  | .int, .int => true
  | .nat, .nat => true
  | .real, .real => true
  | .bool, .bool => true
  | .char, .char => true
  | .string, .string => true
  | .bitVector a, .bitVector b => a == b
  | .seq a, .seq b => beq a b
  | .set a, .set b => beq a b
  | .multiset a, .multiset b => beq a b
  | .map a b, .map c d => beq a c && beq b d
  | .array a m, .array b n => beq a b && m == n
  | .tuple as, .tuple bs => beqList as bs
  | .class a, .class b => a == b
  | .datatype a, .datatype b => a == b
  | .unknown, .unknown => true
  | _, _ => false

def beqList : List Ty → List Ty → Bool
  | [], [] => true
  | a :: as, b :: bs => beq a b && beqList as bs
  | _, _ => false
end

mutual
theorem eq_of_beq : (a b : Ty) → beq a b = true → a = b
  | .int, b, h => by cases b <;> simp_all [beq]
  | .nat, b, h => by cases b <;> simp_all [beq]
  | .real, b, h => by cases b <;> simp_all [beq]
  | .bool, b, h => by cases b <;> simp_all [beq]
  | .char, b, h => by cases b <;> simp_all [beq]
  | .string, b, h => by cases b <;> simp_all [beq]
  | .bitVector _, b, h => by cases b <;> simp_all [beq]
  | .seq a, b, h => by
    cases b <;> simp [beq] at h
    rw [eq_of_beq a _ h]
  | .set a, b, h => by
    cases b <;> simp [beq] at h
    rw [eq_of_beq a _ h]
  | .multiset a, b, h => by
    cases b <;> simp [beq] at h
    rw [eq_of_beq a _ h]
  | .map a c, b, h => by
    cases b <;> simp [beq] at h
    rw [eq_of_beq a _ h.1, eq_of_beq c _ h.2]
  | .array a _, b, h => by
    cases b <;> simp [beq] at h
    rw [eq_of_beq a _ h.1, h.2]
  | .tuple as, b, h => by
    cases b <;> simp [beq] at h
    rw [eq_of_beqList as _ h]
  | .class _, b, h => by cases b <;> simp_all [beq]
  | .datatype _, b, h => by cases b <;> simp_all [beq]
  | .unknown, b, h => by cases b <;> simp_all [beq]

theorem eq_of_beqList : (as bs : List Ty) → beqList as bs = true → as = bs
  | [], bs, h => by cases bs <;> simp_all [beqList]
  | a :: as, bs, h => by
    cases bs <;> simp [beqList] at h
    rw [eq_of_beq a _ h.1, eq_of_beqList as _ h.2]
end

mutual
theorem beq_refl : (a : Ty) → beq a a = true
  | .int => rfl
  | .nat => rfl
  | .real => rfl
  | .bool => rfl
  | .char => rfl
  | .string => rfl
  | .bitVector _ => by simp [beq]
  | .seq a => by simp [beq, beq_refl a]
  | .set a => by simp [beq, beq_refl a]
  | .multiset a => by simp [beq, beq_refl a]
  | .map a b => by simp [beq, beq_refl a, beq_refl b]
  | .array a _ => by simp [beq, beq_refl a]
  | .tuple as => by simp [beq, beqList_refl as]
  | .class _ => by simp [beq]
  | .datatype _ => by simp [beq]
  | .unknown => rfl

theorem beqList_refl : (as : List Ty) → beqList as as = true
  | [] => rfl
  | a :: as => by simp [beqList, beq_refl a, beqList_refl as]
end

theorem beq_iff {a b : Ty} : beq a b = true ↔ a = b :=
  ⟨eq_of_beq a b, fun h => h ▸ beq_refl a⟩

instance : DecidableEq Ty := fun _ _ => decidable_of_iff _ beq_iff

/-- Integers of any form. -/
def isIntegral : Ty → Bool
  | .int | .nat | .bitVector _ => true
  | _ => false

/-- Integers and reals. -/
def isNumeric (t : Ty) : Bool := t.isIntegral || t = .real

/-- Types whose values have a literal form. -/
def isPrimitive (t : Ty) : Bool :=
  t.isNumeric || t = .bool || t = .char || t = .string

/-- Collections without an order. -/
def isSetLike : Ty → Bool
  | .set _ | .multiset _ => true
  | _ => false

/-- Collections with an order. -/
def isSequenceLike : Ty → Bool
  | .seq _ | .string => true
  | _ => false

/-- The declaration a type names. -/
def declared? : Ty → Option String
  | .class name | .datatype name => some name
  | _ => none

/-- The type of the elements of a collection, an array or a text. -/
def element? : Ty → Option Ty
  | .seq e | .set e | .multiset e | .array e _ => some e
  | .string => some .char
  | _ => none

/-- A value of type `a` fits where `b` is wanted: the types are equal and known, or each is
`int` or `nat`. -/
def fits (a b : Ty) : Bool :=
  match a, b with
  | .unknown, _ | _, .unknown => false
  | .int, .int | .int, .nat | .nat, .int | .nat, .nat => true
  | _, _ => a = b

/-- The value that stands in for any value of the type. -/
def default? : Ty → Option Literal
  | .int | .nat | .bitVector _ => some (.int .zero)
  | .real => some (.real .zero)
  | .bool => some (.bool false)
  | .char => some (.char 'D')
  | .string => some (.string "")
  | _ => none

/-- Three values of the type, to fill a collection with; distinct unless there are only two. -/
def samples? : Ty → Option (List Literal)
  | .int | .nat | .bitVector _ => some ([1, 2, 3].map fun n => .int (.ofByte n))
  | .real => some ([1, 2, 3].map fun n => .real (.ofNat n))
  | .bool => some [.bool true, .bool false, .bool true]
  | .char => some [.char 'a', .char 'b', .char 'c']
  | .string => some [.string "a", .string "b", .string "c"]
  | _ => none

mutual
/-- The text of a type. -/
def text : Ty → String
  | .int => "int"
  | .nat => "nat"
  | .real => "real"
  | .bool => "bool"
  | .char => "char"
  | .string => "string"
  | .bitVector w => "bv" ++ Text.natText w.toNat
  | .seq e => "seq<" ++ e.text ++ ">"
  | .set e => "set<" ++ e.text ++ ">"
  | .multiset e => "multiset<" ++ e.text ++ ">"
  | .map k v => "map<" ++ k.text ++ ", " ++ v.text ++ ">"
  | .array e dims =>
    "array" ++ (if dims ≤ 1 then "" else Text.natText dims.toNat) ++ "<" ++ e.text ++ ">"
  | .tuple items => "(" ++ Text.joinWith ", " (texts items) ++ ")"
  | .class name => name
  | .datatype name => name
  | .unknown => "?"

def texts : List Ty → List String
  | [] => []
  | t :: ts => t.text :: texts ts
end

end Ty

end Mutation
