/-!
# Edits of list elements

An edit says what becomes of one element of a list: it stays, or it gives way to one element,
to none, or to several.
-/

namespace Mutation

/-- An edit of one element of a list. -/
inductive Edit (α : Type) where
  | keep
  | replace (element : α)
  | remove
  | flatten (elements : List α)

namespace Edit

variable {α β : Type}

/-- The element stays. -/
def isKeep : Edit α → Bool
  | .keep => true
  | _ => false

/-- The element goes. -/
def isRemove : Edit α → Bool
  | .remove => true
  | _ => false

/-- The element gives way to a list. -/
def isFlatten : Edit α → Bool
  | .flatten _ => true
  | _ => false

/-- Changes the elements an edit carries. -/
def map (f : α → β) : Edit α → Edit β
  | .keep => .keep
  | .replace a => .replace (f a)
  | .remove => .remove
  | .flatten as => .flatten (as.map f)

/-- What stands in the place of `element` after the edit. -/
def result (element : α) : Edit α → List α
  | .keep => [element]
  | .replace a => [a]
  | .remove => []
  | .flatten as => as

/-- How many elements stand in the place of one after the edit. -/
def slots : Edit α → Nat
  | .keep => 1
  | .replace _ => 1
  | .remove => 0
  | .flatten as => as.length

/-- The list after an edit of its element at `index`. There is none when that element does not
exist, except that nothing is looked at to keep it. -/
def applyAt? (edit : Edit α) (list : List α) (index : Nat) : Option (List α) :=
  match edit with
  | .keep => some list
  | _ => list[index]?.map fun a => list.take index ++ edit.result a ++ list.drop (index + 1)

theorem length_result (element : α) (edit : Edit α) :
    (edit.result element).length = edit.slots := by
  cases edit <;> rfl

theorem applyAt?_append (edit : Edit α) (front : List α) (element : α) (rest : List α) :
    edit.applyAt? (front ++ element :: rest) front.length =
      some (front ++ (edit.result element ++ rest)) := by
  cases edit <;> simp [applyAt?, result]

end Edit

end Mutation
