import Mathlib.Algebra.GroupWithZero.Nat
import Mathlib.Algebra.Order.BigOperators.Group.List
import Mathlib.Algebra.Order.Group.Nat
import Mutation.Proofs.Place
import Mutation.Tree.Size

/-!
# What the size of a tree bounds

Every part is smaller than the whole and a list is no longer than it is large, so a bound on the
size of a module is a bound on the length of each of its lists, on the depth of its nesting, and on
how much of it can be deleted.
-/

namespace Mutation

namespace Expr

@[simp] theorem sizeList_nil : sizeList [] = 0 := by rw [sizeList]

@[simp] theorem sizeList_cons (e : Expr) (es : List Expr) :
    sizeList (e :: es) = e.size + sizeList es := by
  rw [sizeList]

/-- Some expressions are as large as the sum of their sizes. -/
theorem sizeList_eq_sum (es : List Expr) : sizeList es = (es.map size).sum := by
  induction es with
  | nil => rfl
  | cons e es ih => rw [sizeList, ih, List.map_cons, List.sum_cons]

@[simp] theorem sizeList_append (es fs : List Expr) :
    sizeList (es ++ fs) = sizeList es + sizeList fs := by
  simp [sizeList_eq_sum]

theorem sizeOpt_eq (e : Option Expr) : sizeOpt e = sizeList e.toList := by
  cases e <;> rfl

end Expr

theorem MapEntry.sizeList_eq (entries : List MapEntry) :
    sizeList entries = Expr.sizeList (entries.flatMap fun entry => [entry.key, entry.value]) := by
  induction entries with
  | nil => rfl
  | cons entry entries ih =>
    obtain ⟨key, value⟩ := entry
    simp [sizeList, Expr.sizeList, ih, Nat.add_assoc]

/-- The shape of an expression is as large as its direct parts are together. -/
theorem ExprKind.size_eq (kind : ExprKind) : kind.size = Expr.sizeList kind.parts := by
  cases kind with
  | chain c =>
    obtain ⟨operands, ops, resolved⟩ := c
    rw [size, Chain.size, parts]
  | mapDisplay entries => rw [size, MapEntry.sizeList_eq, parts]
  | call r method args => rw [size, Expr.sizeOpt_eq, parts, Expr.sizeList_append]
  | arrayAlloc t dims init =>
    cases init <;> simp [size, parts, Expr.sizeOptList]
  | _ => simp [size, parts, Expr.sizeList, Nat.add_assoc]

namespace Expr

theorem size_eq (e : Expr) : e.size = sizeList e.kind.parts + 1 := by
  obtain ⟨kind, span, ty⟩ := e
  rw [size, kind.size_eq]

theorem size_pos (e : Expr) : 0 < e.size := by
  rw [size_eq]
  omega

theorem size_le_of_mem {e : Expr} {es : List Expr} (h : e ∈ es) : e.size ≤ sizeList es := by
  rw [sizeList_eq_sum]
  exact List.le_sum_of_mem (List.mem_map_of_mem h)

/-- A part of an expression is smaller than the expression. -/
theorem size_lt_of_part {e c : Expr} (h : c ∈ e.kind.parts) : c.size < e.size := by
  rw [size_eq e]
  exact Nat.lt_succ_of_le (size_le_of_mem h)

theorem length_le_sizeList (es : List Expr) : es.length ≤ sizeList es := by
  induction es with
  | nil => exact Nat.zero_le _
  | cons e es ih =>
    have := e.size_pos
    rw [sizeList, List.length_cons]
    omega

end Expr

theorem Stmt.size_eq (s : Stmt) : s.size = s.kind.size + 1 := by
  obtain ⟨kind, span, ghost⟩ := s
  rw [size]

theorem Stmt.size_pos (s : Stmt) : 0 < s.size := by
  rw [size_eq]
  omega

theorem MatchCase.sizeList_cons (c : MatchCase) (cases : List MatchCase) :
    sizeList (c :: cases) = Stmt.sizeList c.body + sizeList cases := by
  obtain ⟨pattern, body, span⟩ := c
  rw [sizeList]

/-- A statement list is no longer than it is large. -/
theorem Stmt.length_le_sizeList (list : List Stmt) : list.length ≤ sizeList list := by
  induction list with
  | nil => exact Nat.zero_le _
  | cons s list ih =>
    have := s.size_pos
    rw [sizeList, List.length_cons]
    omega

theorem Stmt.sizeList_append (front list : List Stmt) :
    sizeList (front ++ list) = sizeList front + sizeList list := by
  induction front with
  | nil => simp [sizeList]
  | cons s front ih => simp [sizeList, ih, Nat.add_assoc]

theorem Member.size_pos (m : Member) : 0 < m.size := by
  cases m <;> exact Nat.succ_pos _

/-- A member list is no longer than it is large. -/
theorem Member.length_le_sizeList (ms : List Member) : ms.length ≤ sizeList ms := by
  induction ms with
  | nil => exact Nat.zero_le _
  | cons m ms ih =>
    have := m.size_pos
    rw [sizeList, List.length_cons]
    omega

/-- A declaration is no larger than the declarations that it is one of. -/
theorem Decl.size_le_of_mem {d : Decl} {ds : List Decl} (h : d ∈ ds) : d.size ≤ sizeList ds := by
  induction h with
  | head ds => exact Nat.le_add_right _ _
  | tail c _ ih => exact Nat.le_trans ih (Nat.le_add_left _ _)

/-- The members of a declaration are no larger than the module. -/
theorem Module.members_size_le {m : Module} {d : Decl} (h : d ∈ m.decls) :
    Member.sizeList d.members ≤ m.size := by
  have small : d.size ≤ m.size := Decl.size_le_of_mem h
  cases d <;> exact small

end Mutation
