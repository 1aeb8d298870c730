import Mathlib.Algebra.GroupWithZero.Nat
import Mathlib.Algebra.Order.BigOperators.Group.List
import Mathlib.Algebra.Order.Group.Nat
import Mathlib.Data.List.Forall2
import Mutation.Proofs.Cascade
import Mutation.Proofs.Edited
import Mutation.Tree.Alike

/-!
# Trees that are alike

Equality of trees and `Module.alike` have in common that they compare trees piece by piece: pieces
that are alike have the same shape and the same data, the same ranges, and parts that are alike in
turn. `Likeness` is what both of them give about two pieces (`likeness_eq`, `likeness_alike`), so
what follows from it tells trees apart under either reading of "different".

Two things follow. When a tree is like what it becomes by an exchange at a place, then what was at
the place is like what came there (`Exchanged.unaltered`), so a difference need only be shown at the
place of an edit. And trees that are alike have as many statements and declare as many locals
(`Likeness.total`), so no piece is like a proper part of itself.
-/

namespace Mutation

/-- Shapes of one form with the same data, their parts apart. -/
def ExprKind.Resembles : ExprKind → ExprKind → Prop
  | .literal a, .literal b => a.same b = true ∨ a = b
  | .name a, .name b => a = b
  | .binary op _ _, .binary op' _ _ => op = op'
  | .unary op _, .unary op' _ => op = op'
  | .member _ field, .member _ field' => field = field'
  | .tupleIndex _ i, .tupleIndex _ i' => i = i'
  | .call r method _, .call r' method' _ => r.isSome = r'.isSome ∧ method = method'
  | .arrayAlloc _ _ init, .arrayAlloc _ _ init' => init.isSome = init'.isSome
  | .ctor _ c _, .ctor _ c' _ => c = c'
  | .this, .this | .chain _, .chain _ | .index .., .index .. | .display .., .display ..
  | .mapDisplay _, .mapDisplay _ | .ite .., .ite .. | .old _, .old _ => True
  | _, _ => False

theorem ExprKind.Resembles.refl (kind : ExprKind) : kind.Resembles kind := by
  cases kind <;> simp [Resembles]

section

variable (R : Piece → Piece → Prop)

/-- Expressions that are alike as far as `R` tells about their parts. -/
structure Expr.Corresponds (e f : Expr) : Prop where
  span : e.span.coincides f.span = true
  kind : e.kind.Resembles f.kind
  parts : List.Forall₂ (fun a b => R (.expr a) (.expr b)) e.kind.parts f.kind.parts

/-- Statements that are alike as far as `R` tells about their parts. -/
structure Stmt.Corresponds (s t : Stmt) : Prop where
  span : s.span.coincides t.span = true
  isIf : s.isIf = t.isIf
  declares : s.declares.length = t.declares.length
  exprs : List.Forall₂ (fun a b => R (.expr a) (.expr b)) (s.kind.exprs .everything)
    (t.kind.exprs .everything)
  lists : List.Forall₂ (fun a b => R (.stmts a.2) (.stmts b.2)) s.kind.lists t.kind.lists
  branch : List.Forall₂ (fun a b => R (.stmt a) (.stmt b)) s.elseBranch?.toList
    t.elseBranch?.toList

/-- The relation compares piece by piece. -/
structure Likeness : Prop where
  expr {e f} : R (.expr e) (.expr f) → e.Corresponds R f
  stmts {a b} : R (.stmts a) (.stmts b) → List.Forall₂ (fun s t => R (.stmt s) (.stmt t)) a b
  stmt {s t} : R (.stmt s) (.stmt t) → s.Corresponds R t
  method {a b : Method} : R (.member (.method a)) (.member (.method b)) →
    List.Forall₂
      (fun x y => R (.stmts x.stmts) (.stmts y.stmts) ∧ x.span.coincides y.span = true)
      a.body.toList b.body.toList
  function {f g : Function} : R (.member (.function f)) (.member (.function g)) →
    List.Forall₂ (fun x y => R (.expr x) (.expr y)) f.body.toList g.body.toList
  members {a b} : R (.members a) (.members b) →
    List.Forall₂ (fun x y => R (.member x) (.member y)) a b
  decl {c d} : R (.decl c) (.decl d) → R (.members c.members) (.members d.members)
  module {a b} : R (.module a) (.module b) →
    List.Forall₂ (fun c d => R (.decl c) (.decl d)) a.decls b.decls

end

section

variable {α : Type} {r : α → α → Prop}

/-- Lists that are alike are so at every index. -/
theorem forall₂_at {as bs : List α} (h : List.Forall₂ r as bs) {i : Nat} {a b : α}
    (ha : as[i]? = some a) (hb : bs[i]? = some b) : r a b := by
  induction h generalizing i with
  | nil => simp at ha
  | cons first _ ih =>
    cases i with
    | zero =>
      cases ha
      cases hb
      exact first
    | succ i => exact ih ha hb

/-- What stands at one place of two lists that are alike is alike. -/
theorem forall₂_split (pre : List α) {post post' : List α} {a b : α}
    (h : List.Forall₂ r (pre ++ a :: post) (pre ++ b :: post')) : r a b :=
  forall₂_at h (i := pre.length) (by simp) (by simp)

end

/-- Lists that are alike have the same image under what does not tell their members apart. -/
theorem map_eq_of_forall₂ {α β : Type} {r : α → α → Prop} {f : α → β} {as bs : List α}
    (h : List.Forall₂ r as bs) (each : ∀ a ∈ as, ∀ b, r a b → f a = f b) :
    as.map f = bs.map f := by
  induction h with
  | nil => rfl
  | @cons a b as bs first _ ih =>
    rw [List.map_cons, List.map_cons, each a List.mem_cons_self b first,
      ih fun a ha => each a (List.mem_cons_of_mem _ ha)]

/-- Equality compares piece by piece. -/
theorem likeness_eq : Likeness (· = ·) where
  expr := by
    rintro e _ ⟨⟩
    exact ⟨Span.coincides_iff.2 ⟨rfl, rfl⟩, .refl _, List.forall₂_same.2 fun _ _ => rfl⟩
  stmts := by
    rintro list _ ⟨⟩
    exact List.forall₂_same.2 fun _ _ => rfl
  stmt := by
    rintro s _ ⟨⟩
    exact ⟨Span.coincides_iff.2 ⟨rfl, rfl⟩, rfl, rfl, List.forall₂_same.2 fun _ _ => rfl,
      List.forall₂_same.2 fun _ _ => rfl, List.forall₂_same.2 fun _ _ => rfl⟩
  method := by
    rintro a _ ⟨⟩
    exact List.forall₂_same.2 fun _ _ => ⟨rfl, Span.coincides_iff.2 ⟨rfl, rfl⟩⟩
  function := by
    rintro f _ ⟨⟩
    exact List.forall₂_same.2 fun _ _ => rfl
  members := by
    rintro list _ ⟨⟩
    exact List.forall₂_same.2 fun _ _ => rfl
  decl := by
    rintro d _ ⟨⟩
    rfl
  module := by
    rintro m _ ⟨⟩
    exact List.forall₂_same.2 fun _ _ => rfl

/-- Pieces of one sort that are alike. -/
def Piece.alike : Piece → Piece → Bool
  | .expr e, .expr f => e.alike f
  | .stmt s, .stmt t => s.alike t
  | .stmts a, .stmts b => Stmt.alikeList a b
  | .member x, .member y => x.alike y
  | .members a, .members b => alikeLists Member.alike a b
  | .decl c, .decl d => c.alike d
  | .module a, .module b => a.alike b
  | _, _ => false

/-- The comparison of two lists goes member by member. -/
theorem alikeLists_iff {α : Type} {alike : α → α → Bool} {as bs : List α} :
    alikeLists alike as bs = true ↔ List.Forall₂ (fun a b => alike a b = true) as bs := by
  induction as generalizing bs with
  | nil => cases bs <;> simp [alikeLists]
  | cons a as ih => cases bs <;> simp [alikeLists, ih]

/-- The comparison of two optional pieces is that of two lists with at most one member. -/
theorem alikeOpts_iff {α : Type} {alike : α → α → Bool} {a b : Option α} :
    alikeOpts alike a b = true ↔
      List.Forall₂ (fun a b => alike a b = true) a.toList b.toList := by
  cases a <;> cases b <;> simp [alikeOpts]

theorem Expr.alikeList_iff {es fs : List Expr} :
    Expr.alikeList es fs = true ↔ List.Forall₂ (fun a b => a.alike b = true) es fs := by
  induction es generalizing fs with
  | nil => cases fs <;> simp [Expr.alikeList]
  | cons e es ih => cases fs <;> simp [Expr.alikeList, ih]

theorem Stmt.alikeList_iff {a b : List Stmt} :
    Stmt.alikeList a b = true ↔ List.Forall₂ (fun s t => s.alike t = true) a b := by
  induction a generalizing b with
  | nil => cases b <;> simp [Stmt.alikeList]
  | cons s a ih => cases b <;> simp [Stmt.alikeList, ih]

theorem Expr.forall₂_of_alikeOpt {a b : Option Expr} (h : Expr.alikeOpt a b = true) :
    List.Forall₂ (fun a b => a.alike b = true) a.toList b.toList := by
  cases a <;> cases b <;> simp_all [Expr.alikeOpt]

theorem Stmt.forall₂_of_alikeOpt {a b : Option Stmt} (h : Stmt.alikeOpt a b = true) :
    List.Forall₂ (fun s t => s.alike t = true) a.toList b.toList := by
  cases a <;> cases b <;> simp_all [Stmt.alikeOpt]

theorem Expr.forall₂_of_alikeOptList {a b : Option (List Expr)}
    (h : Expr.alikeOptList a b = true) :
    a.isSome = b.isSome ∧ List.Forall₂ (fun a b => a.alike b = true) (a.getD []) (b.getD []) := by
  cases a <;> cases b <;> simp_all [Expr.alikeOptList, Expr.alikeList_iff]

/-- Displays that are alike have keys and values that are alike, in order. -/
theorem MapEntry.forall₂_of_alikeList {as bs : List MapEntry}
    (h : MapEntry.alikeList as bs = true) :
    List.Forall₂ (fun a b => a.alike b = true) (as.flatMap fun entry => [entry.key, entry.value])
      (bs.flatMap fun entry => [entry.key, entry.value]) := by
  induction as generalizing bs with
  | nil => cases bs <;> simp_all [MapEntry.alikeList]
  | cons a as ih =>
    cases bs with
    | nil => simp [MapEntry.alikeList] at h
    | cons b bs =>
      obtain ⟨key, value⟩ := a
      obtain ⟨key', value'⟩ := b
      simp only [MapEntry.alikeList, Bool.and_eq_true] at h
      exact .cons h.1.1 (.cons h.1.2 (ih h.2))

/-- Of two optional pieces that are alike, both are there or neither is. -/
theorem isSome_of_forall₂ {α β : Type} {r : α → β → Prop} {a : Option α} {b : Option β}
    (h : List.Forall₂ r a.toList b.toList) : a.isSome = b.isSome := by
  cases a <;> cases b <;> simp_all

/-- The comparison of two shapes compares their data and then their parts. -/
theorem ExprKind.corresponds_of_alike {kind kind' : ExprKind} (h : kind.alike kind' = true) :
    kind.Resembles kind' ∧
      List.Forall₂ (fun a b => a.alike b = true) kind.parts kind'.parts := by
  unfold ExprKind.alike at h
  split at h
  all_goals try simp only [Bool.and_eq_true, beq_iff_eq, decide_eq_true_eq] at h
  next => exact ⟨.inl h, .nil⟩
  next => exact ⟨h, .nil⟩
  next => exact ⟨trivial, .nil⟩
  next => exact ⟨h.1.1, .cons h.1.2 (.cons h.2 .nil)⟩
  next => exact ⟨h.1, .cons h.2 .nil⟩
  next c c' =>
    obtain ⟨operands, ops, resolved⟩ := c
    obtain ⟨operands', ops', resolved'⟩ := c'
    simp only [Chain.alike, Bool.and_eq_true] at h
    exact ⟨trivial, Expr.alikeList_iff.1 h.1.1⟩
  next => exact ⟨h.2, .cons h.1 .nil⟩
  next => exact ⟨h.2, .cons h.1 .nil⟩
  next => exact ⟨trivial, .cons h.1 (.cons h.2 .nil)⟩
  next =>
    have receivers := Expr.forall₂_of_alikeOpt h.1.1
    exact ⟨⟨isSome_of_forall₂ receivers, h.1.2⟩,
      List.rel_append receivers (Expr.alikeList_iff.1 h.2)⟩
  next => exact ⟨trivial, Expr.alikeList_iff.1 h.2⟩
  next => exact ⟨trivial, MapEntry.forall₂_of_alikeList h⟩
  next =>
    obtain ⟨given, values⟩ := Expr.forall₂_of_alikeOptList h.2
    exact ⟨given, List.rel_append (Expr.alikeList_iff.1 h.1.2) values⟩
  next => exact ⟨h.1.2, Expr.alikeList_iff.1 h.2⟩
  next => exact ⟨trivial, .cons h.1.1 (.cons h.1.2 (.cons h.2 .nil))⟩
  next => exact ⟨trivial, .cons h .nil⟩
  next => cases h

/-- An assignment made of targets and values has these targets. -/
@[simp] theorem Update.targets_make (targets values : List Expr) :
    (Update.make targets values).targets = targets := rfl

/-- And these values, whether or not there are as many of them. -/
@[simp] theorem Update.values_make (targets values : List Expr) :
    (Update.make targets values).values = values := rfl

theorem StmtKind.exprs_update (u : Update) :
    (StmtKind.update u).exprs .everything = u.targets ++ u.values := by
  simp [exprs, Coverage.everything]

/-- Assignments that are alike have targets and values that are alike, whatever their pairs. -/
theorem Update.forall₂_of_alike {u u' : Update} (h : u.alike u' = true) :
    List.Forall₂ (fun a b => a.alike b = true) u.targets u'.targets ∧
      List.Forall₂ (fun a b => a.alike b = true) u.values u'.values := by
  simp only [Update.alike, Bool.and_eq_true] at h
  exact ⟨Expr.alikeList_iff.1 h.1.1, Expr.alikeList_iff.1 h.1.2⟩

theorem Block.alike_iff {b b' : Block} :
    b.alike b' = true ↔
      Stmt.alikeList b.stmts b'.stmts = true ∧ b.span.coincides b'.span = true := by
  obtain ⟨list, span⟩ := b
  obtain ⟨list', span'⟩ := b'
  rw [Block.alike, Bool.and_eq_true]

theorem MatchCase.forall₂_of_alikeList {as bs : List MatchCase}
    (h : MatchCase.alikeList as bs = true) :
    List.Forall₂ (fun a b => Stmt.alikeList a.body b.body = true) as bs := by
  induction as generalizing bs with
  | nil => cases bs <;> simp_all [MatchCase.alikeList]
  | cons a as ih =>
    cases bs with
    | nil => simp [MatchCase.alikeList] at h
    | cons b bs =>
      obtain ⟨pattern, body, span⟩ := a
      obtain ⟨pattern', body', span'⟩ := b
      simp only [MatchCase.alikeList, Bool.and_eq_true] at h
      exact .cons h.1.1.2 (ih h.2)

/-- The comparison of two statements compares their data, expressions, lists and branches. -/
theorem Stmt.corresponds_of_alike {s t : Stmt} (h : s.alike t = true) :
    s.Corresponds (fun p q => p.alike q = true) t := by
  obtain ⟨kind, span, ghost⟩ := s
  obtain ⟨kind', span', ghost'⟩ := t
  simp only [Stmt.alike, Bool.and_eq_true] at h
  obtain ⟨⟨h, ranges⟩, -⟩ := h
  unfold StmtKind.alike at h
  split at h
  all_goals try simp only [Bool.and_eq_true, Block.alike_iff] at h
  next d d' =>
    obtain ⟨locals, init⟩ := d
    obtain ⟨locals', init'⟩ := d'
    simp only [VarDecl.alike, Bool.and_eq_true] at h
    have count : (locals.map (·.name)).length = (locals'.map (·.name)).length := by
      rw [List.length_map, List.length_map, (alikeLists_iff.1 h.1).length_eq]
    refine ⟨ranges, rfl, count, ?_, .nil, .nil⟩
    cases init with
    | none => cases init' <;> simp_all [alikeOpts, StmtKind.exprs]
    | some init =>
      cases init' with
      | none => simp [alikeOpts] at h
      | some init' => exact (Update.forall₂_of_alike h.2).2
  next u u' =>
    obtain ⟨targets, values⟩ := Update.forall₂_of_alike h
    refine ⟨ranges, rfl, rfl, ?_, .nil, .nil⟩
    rw [StmtKind.exprs_update, StmtKind.exprs_update]
    exact List.rel_append targets values
  next => exact ⟨ranges, rfl, rfl, .cons h .nil, .nil, .nil⟩
  next => exact ⟨ranges, rfl, rfl, Expr.alikeList_iff.1 h, .nil, .nil⟩
  next =>
    exact ⟨ranges, rfl, rfl, Expr.forall₂_of_alikeOpt h.1.1, .cons h.1.2.1 .nil,
      Stmt.forall₂_of_alikeOpt h.2⟩
  next =>
    obtain ⟨⟨⟨guard, invariants⟩, decreases⟩, body, -⟩ := h
    have clauses := List.rel_append (Expr.alikeList_iff.1 invariants) (Expr.alikeList_iff.1 decreases)
    exact ⟨ranges, rfl, rfl, List.rel_append (Expr.forall₂_of_alikeOpt guard) clauses,
      .cons body .nil, .nil⟩
  next =>
    obtain ⟨⟨⟨⟨⟨-, start⟩, stop⟩, -⟩, invariants⟩, body, -⟩ := h
    have clauses := List.rel_append (Expr.forall₂_of_alikeOpt stop) (Expr.alikeList_iff.1 invariants)
    exact ⟨ranges, rfl, rfl, .cons start clauses, .cons body .nil, .nil⟩
  next => exact ⟨ranges, rfl, rfl, .nil, .nil, .nil⟩
  next => exact ⟨ranges, rfl, rfl, .nil, .nil, .nil⟩
  next => exact ⟨ranges, rfl, rfl, .nil, .cons h.1 .nil, .nil⟩
  next =>
    refine ⟨ranges, rfl, rfl, .cons h.1 .nil, ?_, .nil⟩
    refine List.forall₂_map_left_iff.2 (List.forall₂_map_right_iff.2 ?_)
    exact MatchCase.forall₂_of_alikeList h.2
  next => exact ⟨ranges, rfl, rfl, .cons h .nil, .nil, .nil⟩
  next => exact ⟨ranges, rfl, rfl, .cons h .nil, .nil, .nil⟩
  next => exact ⟨ranges, rfl, rfl, Expr.alikeList_iff.1 h, .nil, .nil⟩
  next => cases h

/-- `Module.alike` and the comparisons below it compare piece by piece. -/
theorem likeness_alike : Likeness fun p q => p.alike q = true where
  expr := by
    rintro ⟨kind, span, ty⟩ ⟨kind', span', ty'⟩ h
    simp only [Piece.alike, Expr.alike, Bool.and_eq_true] at h
    obtain ⟨resembles, parts⟩ := ExprKind.corresponds_of_alike h.1.1
    exact ⟨h.1.2, resembles, parts⟩
  stmts h := Stmt.alikeList_iff.1 h
  stmt h := Stmt.corresponds_of_alike h
  method {a b} h := by
    simp only [Piece.alike, Member.alike, Method.alike, Bool.and_eq_true] at h
    exact (alikeOpts_iff.1 h.1.1.1.2).imp fun _ _ => Block.alike_iff.1
  function {f g} h := by
    simp only [Piece.alike, Member.alike, Function.alike, Bool.and_eq_true] at h
    exact Expr.forall₂_of_alikeOpt h.1.1.1.2
  members h := alikeLists_iff.1 h
  decl {c d} h := by
    cases c <;> cases d <;> simp_all [Piece.alike, Decl.alike, Decl.members]
  module {a b} h := by
    simp only [Piece.alike, Module.alike, Bool.and_eq_true] at h
    exact alikeLists_iff.1 h.2

section

variable {R : Piece → Piece → Prop} (hR : Likeness R)

include hR

/-- A piece that is like itself with another part: then so are the parts. -/
theorem Carries.alike {spans : List Span} {c c' x x' : Piece} (hc : Carries spans c c' x x')
    (h : R x x') : R c c' := by
  have exprs {es es' : List Expr} (pre : List Expr) {e e' : Expr}
      (all : List.Forall₂ (fun a b => R (.expr a) (.expr b)) (pre ++ e :: es) (pre ++ e' :: es')) :
      R (.expr e) (.expr e') :=
    forall₂_split (r := fun a b => R (.expr a) (.expr b)) pre all
  have held {b b' : Span × List Stmt} {bs bs' : List (Span × List Stmt)}
      (pre : List (Span × List Stmt))
      (all : List.Forall₂ (fun a b => R (.stmts a.2) (.stmts b.2)) (pre ++ b :: bs)
        (pre ++ b' :: bs')) : R (.stmts b.2) (.stmts b'.2) :=
    forall₂_split (r := fun a b => R (.stmts a.2) (.stmts b.2)) pre all
  cases hc with
  | part plain split =>
    have parts := (hR.expr h).parts
    rw [ExprKind.parts_resync, ExprKind.parts_withParts (by simp [split]), split] at parts
    exact exprs _ parts
  | target index =>
    have all := (hR.stmt h).exprs
    rw [StmtKind.exprs_update, StmtKind.exprs_update, List.append_assoc] at all
    rw [Update.targets_make, Update.values_make, List.append_assoc] at all
    exact exprs _ all
  | value =>
    have all := (hR.stmt h).exprs
    rw [StmtKind.exprs_update, StmtKind.exprs_update, ← List.append_assoc] at all
    rw [Update.targets_make, Update.values_make, ← List.append_assoc] at all
    exact exprs _ all
  | init =>
    have all := (hR.stmt h).exprs
    rw [StmtKind.exprs, StmtKind.exprs, Update.values_make] at all
    exact exprs _ all
  | ret | print => exact exprs _ (hR.stmt h).exprs
  | expr | assert | assume | matchSource | ifGuard | whileGuard | forStart =>
    exact exprs [] (hR.stmt h).exprs
  | forStop => exact exprs [_] (hR.stmt h).exprs
  | thenBranch | whileBody | forBody | block => exact held [] (hR.stmt h).lists
  | elseBranch =>
    have branch := (hR.stmt h).branch
    exact forall₂_split (r := fun s t => R (.stmt s) (.stmt t)) [] branch
  | caseBody =>
    have lists := (hR.stmt h).lists
    rw [StmtKind.lists, StmtKind.lists, List.map_append, List.map_append] at lists
    exact held _ lists
  | element => exact forall₂_split (r := fun s t => R (.stmt s) (.stmt t)) _ (hR.stmts h)
  | methodBody given =>
    have body := hR.method h
    rw [given] at body
    exact (List.forall₂_cons.1 body).1.1
  | functionBody given =>
    have body := hR.function h
    rw [given] at body
    exact (List.forall₂_cons.1 body).1
  | member => exact forall₂_split (r := fun x y => R (.member x) (.member y)) _ (hR.members h)
  | «class» => exact hR.decl h
  | datatype => exact hR.decl h
  | decl => exact forall₂_split (r := fun c d => R (.decl c) (.decl d)) _ (hR.module h)

/-- What comes to a place is like what was there. -/
def Place.Unaltered (R : Piece → Piece → Prop) : (p : Place) → p.Content → Prop
  | .members list, list' => R (.members list) (.members list')
  | .stmts list, list' => R (.stmts list) (.stmts list')
  | .element s, new => ∃ t, new = [t] ∧ R (.stmt s) (.stmt t)
  | .expr e, e' => R (.expr e) (.expr e')

/-- A tree that is like what becomes of it by an exchange has not changed at the place. -/
theorem Exchanged.unaltered {p : Place} {new : p.Content} {spans : List Span} {x x' : Piece}
    (h : Exchanged p new spans x x') (same : R x x') : p.Unaltered R new := by
  induction h with
  | members => exact same
  | stmts => exact same
  | @element pre s post new =>
    have all := hR.stmts same
    have one : new.length = 1 := by
      have count := all.length_eq
      simp only [List.length_append, List.length_cons] at count
      omega
    obtain ⟨t, rfl⟩ := List.length_eq_one_iff.1 one
    exact ⟨t, rfl, forall₂_split (r := fun s t => R (.stmt s) (.stmt t)) pre all⟩
  | expr => exact same
  | inside hc _ ih => exact ih (hc.alike hR same)

/-- An expression is not like one of its parts, since that would have a part like itself again. -/
theorem Expr.not_alike_part (e : Expr) : ∀ x ∈ e.kind.parts, ¬R (.expr e) (.expr x) := by
  induction e using Expr.induct with
  | step e ih =>
    intro x hx same
    obtain ⟨i, hi, rfl⟩ := List.getElem_of_mem hx
    have parts := (hR.expr same).parts
    have inside : i < (e.kind.parts[i]).kind.parts.length := parts.length_eq ▸ hi
    exact ih _ hx _ (List.getElem_mem inside)
      (forall₂_at (r := fun a b => R (.expr a) (.expr b)) parts (List.getElem?_eq_getElem hi)
        (List.getElem?_eq_getElem inside))

/-- The sum of a number over the statements directly inside a statement. -/
def Stmt.sumInside (f : Stmt → Nat) (s : Stmt) : Nat :=
  (s.kind.lists.map fun b => (b.2.map f).sum).sum + (s.elseBranch?.toList.map f).sum

/-- A number that a statement has from its own and its parts' is the same for statements that are
alike, if their own numbers are. -/
theorem Likeness.total {f : Stmt → Nat} (own : Stmt → Nat)
    (sum : ∀ s : Stmt, f s = own s + s.sumInside f)
    (kept : ∀ s t, R (.stmt s) (.stmt t) → own s = own t) (s : Stmt) :
    ∀ t, R (.stmt s) (.stmt t) → f s = f t := by
  induction s using Stmt.induct with
  | step s ihLists ihBranch =>
    intro t same
    have corresponds := hR.stmt same
    have lists := map_eq_of_forall₂ (f := fun b : Span × List Stmt => (b.2.map f).sum)
      corresponds.lists fun b hb b' held =>
        congrArg List.sum (map_eq_of_forall₂ (hR.stmts held) (ihLists b hb))
    have branch := map_eq_of_forall₂ (f := f) corresponds.branch fun t ht =>
      ihBranch t (Option.mem_toList.1 ht)
    rw [sum s, sum t, kept s t same, Stmt.sumInside, lists, branch, Stmt.sumInside]

end

theorem Stmt.weightList_eq (list : List Stmt) : Stmt.weightList list = (list.map Stmt.weight).sum := by
  induction list with
  | nil => rfl
  | cons s list ih => rw [Stmt.weightList, List.map_cons, List.sum_cons, ih]

theorem Block.weight_eq (b : Block) : b.weight = (b.stmts.map Stmt.weight).sum := by
  obtain ⟨list, span⟩ := b
  rw [Block.weight, Stmt.weightList_eq]

theorem MatchCase.weightList_eq (cases : List MatchCase) :
    MatchCase.weightList cases = (cases.map fun c => Stmt.weightList c.body).sum := by
  induction cases with
  | nil => rfl
  | cons c cases ih =>
    obtain ⟨pattern, body, span⟩ := c
    rw [MatchCase.weightList, List.map_cons, List.sum_cons, ih]

/-- A statement weighs one more than what is inside it. -/
theorem Stmt.weight_eq (s : Stmt) : s.weight = 1 + s.sumInside Stmt.weight := by
  obtain ⟨kind, span, ghost⟩ := s
  rw [Stmt.weight, Nat.add_comm]
  congr 1
  unfold Stmt.sumInside
  cases kind with
  | ifElse guard body next =>
    cases next <;>
      simp [StmtKind.weight, StmtKind.lists, Stmt.elseBranch?, Block.weight_eq, Stmt.weightOpt]
  | matchOn source cases =>
    simp [StmtKind.weight, StmtKind.lists, Stmt.elseBranch?, MatchCase.weightList_eq,
      Stmt.weightList_eq, Function.comp_def]
  | _ => simp [StmtKind.weight, StmtKind.lists, Stmt.elseBranch?, Block.weight_eq]

theorem Stmt.localCountList_eq (list : List Stmt) :
    Stmt.localCountList list = (list.map Stmt.localCount).sum := by
  induction list with
  | nil => rfl
  | cons s list ih => rw [Stmt.localCountList, List.map_cons, List.sum_cons, ih]

theorem Block.localCount_eq (b : Block) : b.localCount = (b.stmts.map Stmt.localCount).sum := by
  obtain ⟨list, span⟩ := b
  rw [Block.localCount, Stmt.localCountList_eq]

theorem MatchCase.localCountList_eq (cases : List MatchCase) :
    MatchCase.localCountList cases = (cases.map fun c => Stmt.localCountList c.body).sum := by
  induction cases with
  | nil => rfl
  | cons c cases ih =>
    obtain ⟨pattern, body, span⟩ := c
    rw [MatchCase.localCountList, List.map_cons, List.sum_cons, ih]

/-- A statement declares its own locals and those of what is inside it. -/
theorem Stmt.localCount_eq (s : Stmt) :
    s.localCount = s.declares.length + s.sumInside Stmt.localCount := by
  obtain ⟨kind, span, ghost⟩ := s
  rw [Stmt.localCount]
  unfold Stmt.sumInside
  cases kind with
  | varDecl d => simp [StmtKind.localCount, StmtKind.lists, elseBranch?, declares, VarDecl.names]
  | ifElse guard body next =>
    cases next <;>
      simp [StmtKind.localCount, StmtKind.lists, elseBranch?, declares, Block.localCount_eq,
        Stmt.localCountOpt]
  | matchOn source cases =>
    simp [StmtKind.localCount, StmtKind.lists, elseBranch?, declares, MatchCase.localCountList_eq,
      Stmt.localCountList_eq, Function.comp_def]
  | _ => simp [StmtKind.localCount, StmtKind.lists, elseBranch?, declares, Block.localCount_eq]

section

variable {R : Piece → Piece → Prop} (hR : Likeness R)

include hR

/-- Statements that are alike have one weight. -/
theorem Stmt.weight_alike {s t : Stmt} (same : R (.stmt s) (.stmt t)) : s.weight = t.weight :=
  hR.total (fun _ => 1) Stmt.weight_eq (fun _ _ _ => rfl) s t same

/-- Lists that are alike declare as many locals. -/
theorem Stmt.localCountList_alike {list list' : List Stmt} (same : R (.stmts list) (.stmts list')) :
    Stmt.localCountList list = Stmt.localCountList list' := by
  rw [Stmt.localCountList_eq, Stmt.localCountList_eq]
  refine congrArg List.sum (map_eq_of_forall₂ (hR.stmts same) fun s _ t same => ?_)
  exact hR.total _ Stmt.localCount_eq (fun _ _ same => (hR.stmt same).declares) s t same

end

/-- A statement in a list of another weighs less than the other. -/
theorem Stmt.weight_lt_of_held {s t : Stmt} {b : Span × List Stmt} (hb : b ∈ s.kind.lists)
    (ht : t ∈ b.2) : t.weight < s.weight := by
  have inner : t.weight ≤ (b.2.map Stmt.weight).sum :=
    List.le_sum_of_mem (List.mem_map_of_mem ht)
  have outer : (b.2.map Stmt.weight).sum ≤
      (s.kind.lists.map fun b => (b.2.map Stmt.weight).sum).sum :=
    List.le_sum_of_mem (List.mem_map_of_mem hb (f := fun b => (b.2.map Stmt.weight).sum))
  rw [Stmt.weight_eq s, Stmt.sumInside]
  omega

/-- So does the branch of an `if`. -/
theorem Stmt.weight_lt_of_branch {s t : Stmt} (ht : s.elseBranch? = some t) :
    t.weight < s.weight := by
  rw [Stmt.weight_eq s, Stmt.sumInside, ht]
  simp only [Option.toList_some, List.map_cons, List.map_nil, List.sum_singleton]
  omega

end Mutation
