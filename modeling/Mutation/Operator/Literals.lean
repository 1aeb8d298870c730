import Mutation.Tree.Ty

/-!
# Replacement values of literals

Which values a scan proposes in place of a literal: its neighbours and zero for a number, the
negation of a boolean, the neighbouring code points of a character, and for a text the empty
one and the one with its two middle characters exchanged.
-/

namespace Mutation

/-- The list with its elements at `i` and `j` exchanged; unchanged when one of them is
missing. -/
def swapAt {α : Type} (list : List α) (i j : Nat) : List α :=
  match list[i]?, list[j]? with
  | some a, some b => (list.set i b).set j a
  | _, _ => list

/-- The character with this code, if it is the code of one. -/
def charOfNat? (n : Nat) : Option Char :=
  if h : n.isValidChar then some (Char.ofNatAux n h) else none

namespace Literal

/-- Integers in place of `v`: its neighbours, and zero unless it or a neighbour is zero. A natural
number stays one. -/
def intReplacements (v : Wide) (ty : Ty) : List Wide :=
  let up := (Wide.ofInt? (v.val + 1)).toList
  let down := (Wide.ofInt? (v.val - 1)).toList.filter fun w => ty ≠ .nat || 0 ≤ w.val
  let near := up ++ down
  if v.val = 0 || near.any fun w => w.val = 0 then near else near ++ [.zero]

/-- Reals in place of `v`: its neighbours at distance one, and zero unless it or a neighbour is
zero. -/
def realReplacements (v : Double) : List Double :=
  let near := [v.plusInt 1, v.plusInt (-1)]
  if v.isZero || near.any Double.isZero then near else near ++ [.zero]

/-- The characters with the neighbouring codes. -/
def charReplacements (c : Char) : List Char :=
  let n := c.toNat
  (charOfNat? (n + 1)).toList ++ (if n = 0 then [] else (charOfNat? (n - 1)).toList)

/-- A text with its two middle characters exchanged. -/
def scramble (s : String) : String :=
  let cs := s.toList
  let mid := cs.length / 2
  String.ofList (if cs.length < 2 then cs else swapAt cs (mid - 1) mid)

/-- Texts in place of `s`; `sentinel` is put in place of the empty one. -/
def stringReplacements (s sentinel : String) : List String :=
  if s.isEmpty then [sentinel]
  else if scramble s = s then [""]
  else ["", scramble s]

/-- The values proposed in place of a literal of type `ty`, in order. -/
def replacements (l : Literal) (ty : Ty) (sentinel : String) : List Literal :=
  match l with
  | .int v => (intReplacements v ty).map .int
  | .real v => (realReplacements v).map .real
  | .bool b => [.bool !b]
  | .char c => (charReplacements c).map .char
  | .string s => (stringReplacements s sentinel).map .string
  | .null => []

end Literal

end Mutation
