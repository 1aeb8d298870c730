import Mutation.Source.Span
import Mutation.Walk.Edit

/-!
# Steps that can break off

The functions of this library are total. A program that keeps its lists in arrays and counts in
machine words is not: it reads, cuts and removes by position, adds and subtracts words, asserts
what it takes for granted, and calls itself on a stack, and where one of these does not work out
it breaks off. `Checked` computations are of that kind, and say why they break off. With each
step comes the condition under which it does not, and its result then.
-/

namespace Mutation

/-- Why a computation breaks off. -/
inductive Break where
  /-- A list has no element at this position. -/
  | position (index length : Nat)
  /-- A list has no such part. -/
  | part (start stop length : Nat)
  /-- Two elements that have to be distinct are one. -/
  | shared (index : Nat)
  /-- A number does not fit a word of 64 bits. -/
  | overflow
  /-- The anchor of a span does not lie in its range. -/
  | strayAnchor (span : Span)
  /-- A recursion or a loop goes on for longer than allowed. -/
  | endless

/-- A computation that can break off. -/
abbrev Checked (α : Type) := Except Break α

namespace Checked

variable {α β : Type}

@[simp] theorem ok_bind (a : α) (f : α → Checked β) : (Except.ok a >>= f) = f a := rfl

@[simp] theorem pure_eq (a : α) : (pure a : Checked α) = .ok a := rfl

@[simp] theorem map_ok (f : α → β) (a : α) : Except.map f (.ok a : Checked α) = .ok (f a) := rfl

/-- The element at a position. -/
def get (list : List α) (index : Nat) : Checked α :=
  match list[index]? with
  | some a => .ok a
  | none => .error (.position index list.length)

/-- The list with another element at a position. -/
def set (list : List α) (index : Nat) (a : α) : Checked (List α) :=
  if index < list.length then .ok (list.set index a) else .error (.position index list.length)

/-- The list without the element at a position. -/
def remove (list : List α) (index : Nat) : Checked (List α) :=
  if index < list.length then .ok (list.eraseIdx index)
  else .error (.position index list.length)

/-- The list without the element at a position, the last one put in its place. -/
def swapRemove (list : List α) (index : Nat) : Checked (α × List α) := do
  let a ← get list index
  let last ← get list (list.length - 1)
  return (a, (list.set index last).dropLast)

/-- The list with a further element at a position. -/
def insert (list : List α) (index : Nat) (a : α) : Checked (List α) :=
  if index ≤ list.length then .ok (list.insertIdx index a)
  else .error (.position index list.length)

/-- The list with the elements at two positions exchanged. -/
def swap (list : List α) (i j : Nat) : Checked (List α) := do
  let a ← get list i
  let b ← get list j
  return (list.set i b).set j a

/-- The part of a list from one position up to another. -/
def slice (list : List α) (start stop : Nat) : Checked (List α) :=
  if start ≤ stop ∧ stop ≤ list.length then .ok ((list.take stop).drop start)
  else .error (.part start stop list.length)

/-- The parts of a list before and from a position on. -/
def splitAt (list : List α) (index : Nat) : Checked (List α × List α) :=
  if index ≤ list.length then .ok (list.take index, list.drop index)
  else .error (.part index index list.length)

/-- The elements at two distinct positions, each read from a part of its own. -/
def pair (list : List α) (i j : Nat) : Checked (α × α) :=
  if i = j then .error (.shared i)
  else if i < j then do
    let (head, tail) ← splitAt list j
    return (← get head i, ← get tail 0)
  else do
    let (head, tail) ← splitAt list i
    return (← get tail 0, ← get head j)

/-- The sum of two words. -/
def add (m n : Nat) : Checked Nat :=
  if m + n < UInt64.size then .ok (m + n) else .error .overflow

/-- The difference of two words. -/
def sub (m n : Nat) : Checked Nat :=
  if n ≤ m then .ok (m - n) else .error .overflow

/-- A span, of which is asserted that its range holds its anchor. -/
def span (start stop anchor : Pos) : Checked Span :=
  if (Span.mk start stop anchor).anchoredB then .ok ⟨start, stop, anchor⟩
  else .error (.strayAnchor ⟨start, stop, anchor⟩)

/-- The position of the first element with a property, if there is one. -/
def position (p : α → Checked Bool) : List α → Checked (Option Nat)
  | [] => .ok none
  | a :: list => do
    if ← p a then return some 0 else return (← position p list).map (· + 1)

/-- A loop over a list by position, for so many rounds at most. A round keeps the element at the
position, and the loop goes on behind it, or takes the element out. -/
def sweep (length : β → Nat) (step : β → Nat → Checked (Bool × β)) : Nat → β → Nat → Checked β
  | 0, s, index => if index < length s then .error .endless else .ok s
  | rounds + 1, s, index =>
    if index < length s then do
      let (kept, s) ← step s index
      sweep length step rounds s (← if kept then add index 1 else .ok index)
    else .ok s

theorem get_of_getElem? {list : List α} {index : Nat} {a : α} (h : list[index]? = some a) :
    get list index = .ok a := by
  rw [get, h]

theorem remove_of_lt {list : List α} {index : Nat} (h : index < list.length) :
    remove list index = .ok (list.eraseIdx index) :=
  if_pos h

/-- An element in range is taken out, whatever is put in its place. -/
theorem swapRemove_of_getElem? {list : List α} {index : Nat} {a : α}
    (h : list[index]? = some a) : ∃ rest, swapRemove list index = .ok (a, rest) := by
  have inside : list.length - 1 < list.length := by
    have := (List.getElem?_eq_some_iff.1 h).1
    omega
  simp [swapRemove, get_of_getElem? h, get_of_getElem? (List.getElem?_eq_getElem inside)]

theorem insert_zero (list : List α) (a : α) : insert list 0 a = .ok (a :: list) := by
  simp [insert]

/-- Two elements in range change places. -/
theorem swap_of_getElem? {list : List α} {i j : Nat} {a b : α} (hi : list[i]? = some a)
    (hj : list[j]? = some b) : swap list i j = .ok ((list.set i b).set j a) := by
  simp [swap, get_of_getElem? hi, get_of_getElem? hj]

/-- A slice between two positions in order and in range is there. -/
theorem slice_of_le {list : List α} {start stop : Nat} (h : start ≤ stop)
    (h' : stop ≤ list.length) : slice list start stop = .ok ((list.take stop).drop start) :=
  if_pos ⟨h, h'⟩

/-- A list splits at every position up to its end. -/
theorem splitAt_of_le {list : List α} {index : Nat} (h : index ≤ list.length) :
    splitAt list index = .ok (list.take index, list.drop index) :=
  if_pos h

/-- Two elements are borrowed at once when their positions differ. -/
theorem pair_of_getElem? {list : List α} {i j : Nat} {a b : α} (hi : list[i]? = some a)
    (hj : list[j]? = some b) (distinct : i ≠ j) : pair list i j = .ok (a, b) := by
  have iIn := (List.getElem?_eq_some_iff.1 hi).1
  have jIn := (List.getElem?_eq_some_iff.1 hj).1
  unfold pair
  rw [if_neg distinct]
  split
  next before =>
    have first : (list.take j)[i]? = some a := by rw [List.getElem?_take_of_lt before, hi]
    have second : (list.drop j)[0]? = some b := by rw [List.getElem?_drop, Nat.add_zero, hj]
    simp [splitAt_of_le (Nat.le_of_lt jIn), get_of_getElem? first, get_of_getElem? second]
  next behind =>
    have first : (list.drop i)[0]? = some a := by rw [List.getElem?_drop, Nat.add_zero, hi]
    have second : (list.take i)[j]? = some b := by
      rw [List.getElem?_take_of_lt (by omega), hj]
    simp [splitAt_of_le (Nat.le_of_lt iIn), get_of_getElem? first, get_of_getElem? second]

/-- A sum that fits is computed. -/
theorem add_of_lt {m n : Nat} (h : m + n < UInt64.size) : add m n = .ok (m + n) := if_pos h

/-- A difference that is not negative is computed. -/
theorem sub_of_le {m n : Nat} (h : n ≤ m) : sub m n = .ok (m - n) := if_pos h

/-- A token's span has its anchor inside. -/
theorem span_token (p : Pos) : span p p p = .ok (Span.token p) := by
  simp [span, Span.anchoredB, Span.token]

/-- A position is searched for without breaking off when the test does not break off. -/
theorem position_ok {p : α → Checked Bool} {q : α → Bool} (h : ∀ a, p a = .ok (q a))
    (list : List α) : position p list = .ok (list.findIdx? q) := by
  induction list with
  | nil => rfl
  | cons a list ih =>
    rw [position, h, ih, List.findIdx?_cons]
    cases q a <;> rfl

/-- The rule for `sweep`: the invariant speaks of the position and of the elements that are left,
and each round does away with one of them. -/
theorem sweep_ok {I : Nat → List α → β → Prop} {length : β → Nat}
    {step : β → Nat → Checked (Bool × β)}
    (total : ∀ {index rest s}, I index rest s →
      length s = index + rest.length ∧ length s < UInt64.size)
    (round : ∀ {index a rest s}, I index (a :: rest) s →
      ∃ kept s', step s index = .ok (kept, s') ∧ I (if kept then index + 1 else index) rest s')
    {index : Nat} {rest : List α} {s : β} (h : I index rest s) :
    ∃ last t, sweep length step rest.length s index = .ok t ∧ I last [] t := by
  induction rest generalizing index s with
  | nil =>
    have done : ¬ index < length s := by
      rw [(total h).1]
      exact Nat.lt_irrefl _
    exact ⟨index, s, if_neg done, h⟩
  | cons a rest ih =>
    obtain ⟨here, fits⟩ := total h
    rw [List.length_cons] at here
    obtain ⟨kept, s', stepped, inv⟩ := round h
    obtain ⟨last, t, swept, done⟩ := ih inv
    refine ⟨last, t, ?_, done⟩
    rw [List.length_cons, sweep, if_pos (by omega), stepped, ok_bind]
    cases kept with
    | true => simpa [add_of_lt (show index + 1 < UInt64.size by omega)] using swept
    | false => simpa using swept

section

variable (front rest : List α) (a : α) {index : Nat} (h : index = front.length)

include h

/-!
Loops go through a list by position; at each round the elements in front are done. The next four
lemmas are the steps of a loop at the first element that is left.
-/

/-- The element at hand is the one behind the front. -/
theorem get_next : get (front ++ a :: rest) index = .ok a := by
  simp [get, h]

/-- It is replaced behind the front. -/
theorem set_next (b : α) : set (front ++ a :: rest) index b = .ok (front ++ b :: rest) := by
  simp [set, h]

/-- Or taken out behind the front. -/
theorem remove_next : remove (front ++ a :: rest) index = .ok (front ++ rest) := by
  simp [remove, h, List.eraseIdx_append_of_length_le]

theorem lt_next : index < (front ++ a :: rest).length := by
  simp [h]

end

/-- A loop has come to a position of the list: `rest` stands from there on, and with `left` in the
place of it the list is the result. -/
def Reached (index : Nat) (list rest left result : List α) : Prop :=
  ∃ front, front.length = index ∧ list = front ++ rest ∧ front ++ left = result

namespace Reached

variable {index : Nat} {list rest left result : List α} {a : α}

theorem start (list result : List α) : Reached 0 list list result result := ⟨[], rfl, rfl, rfl⟩

/-- The position and what is left make up the list. -/
theorem length (h : Reached index list rest left result) : list.length = index + rest.length := by
  obtain ⟨front, rfl, rfl, -⟩ := h
  exact List.length_append

/-- With nothing left, the list is the result. -/
theorem finish (h : Reached index list [] [] result) : list = result := by
  obtain ⟨front, -, rfl, rfl⟩ := h
  rfl

/-- The element at hand is in range. -/
theorem get (h : Reached index list (a :: rest) left result) : Checked.get list index = .ok a := by
  obtain ⟨front, rfl, rfl, -⟩ := h
  exact get_next front rest a rfl

/-- Keeping it moves on by one. -/
theorem skip (h : Reached index list (a :: rest) (a :: left) result) :
    Reached (index + 1) list rest left result := by
  obtain ⟨front, rfl, rfl, rfl⟩ := h
  exact ⟨front ++ [a], by simp, by simp, by simp⟩

/-- Replacing it moves on by one. -/
theorem set {b : α} (h : Reached index list (a :: rest) (b :: left) result) :
    ∃ list', Checked.set list index b = .ok list' ∧ Reached (index + 1) list' rest left result := by
  obtain ⟨front, rfl, rfl, rfl⟩ := h
  exact ⟨_, set_next front rest a rfl b, front ++ [b], by simp, by simp, by simp⟩

/-- Taking it out keeps the position, which is then that of the next one. -/
theorem remove (h : Reached index list (a :: rest) left result) :
    ∃ list', Checked.remove list index = .ok list' ∧ Reached index list' rest left result := by
  obtain ⟨front, rfl, rfl, rfl⟩ := h
  exact ⟨_, remove_next front rest a rfl, front, rfl, rfl, rfl⟩

end Reached

end Checked

/-- The list after an edit of its element at a position, and how many elements stand there
then. -/
def Edit.checkedAt {α : Type} (edit : Edit α) (list : List α) (index : Nat) :
    Checked (List α × Nat) :=
  match edit.applyAt? list index with
  | some list => .ok (list, edit.slots)
  | none => .error (.position index list.length)

/-- An edit at the position of an element splices its result behind the front. -/
theorem Edit.checkedAt_next {α : Type} (edit : Edit α) (front rest : List α) (a : α) {index : Nat}
    (h : index = front.length) : edit.checkedAt (front ++ a :: rest) index =
      .ok (front ++ edit.result a ++ rest, edit.slots) := by
  rw [h, checkedAt, edit.applyAt?_append, List.append_assoc]

end Mutation
