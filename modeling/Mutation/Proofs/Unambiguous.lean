import Mathlib.Data.List.Pairwise
import Mutation.Proofs.Nesting
import Mutation.Proofs.Reduction
import Mutation.Proofs.Settling

/-!
# Targets that are met once

An operator acts on one sort of place, and among expressions on few shapes. In a module in which
no two nodes that an operator could mistake for each other share a range or an anchor, at most one
place answers (`Module.Unambiguous.eq`), so the first place that a search comes to is the only one.
-/

namespace Mutation

/-- The constructors of expressions. -/
inductive Shape where
  | literal | name | this | binary | unary | chain | member | tupleIndex | index | call | display
  | mapDisplay | arrayAlloc | ctor | ite | old
deriving DecidableEq

/-- The constructor of an expression. -/
def ExprKind.shape : ExprKind → Shape
  | .literal _ => .literal
  | .name _ => .name
  | .this => .this
  | .binary .. => .binary
  | .unary .. => .unary
  | .chain _ => .chain
  | .member .. => .member
  | .tupleIndex .. => .tupleIndex
  | .index .. => .index
  | .call .. => .call
  | .display .. => .display
  | .mapDisplay _ => .mapDisplay
  | .arrayAlloc .. => .arrayAlloc
  | .ctor .. => .ctor
  | .ite .. => .ite
  | .old _ => .old

/-- The shapes of value reads. -/
def Shape.reads : List Shape := [.name, .call, .member, .index, .tupleIndex]

/-- The shapes that have an initializer. -/
def Shape.initializers : List Shape := [.display, .arrayAlloc]

/-- The shapes of expressions an operator acts on. -/
def Operator.shapes : Operator → List Shape
  | .setOperator _ | .setBool _ | .keepOperand _ => [.binary]
  | .insertNegation _ | .setVariable _ | .insertThis _ => [.name]
  | .deleteNegation => [.unary]
  | .setLiteral _ => [.literal]
  | .setDefault _ => Shape.reads
  | .setInit _ => Shape.initializers
  | .deleteThis _ | .setField _ => [.member]
  | .setComponent _ => [.tupleIndex]
  | .setCtor _ => [.ctor]
  | .keepArgument _ | .keepReceiver | .setCallee _ | .swapArguments .. => [.call]
  | _ => []

/-- No more than one shape, or those of one of the operators that act on several. -/
def Shape.Alike (shapes : List Shape) : Prop :=
  shapes.length ≤ 1 ∨ shapes = Shape.reads ∨ shapes = Shape.initializers

theorem Operator.shapes_alike (op : Operator) : Shape.Alike op.shapes := by
  cases op <;> first
    | exact .inl (Nat.le_refl _)
    | exact .inl (Nat.zero_le _)
    | exact .inr (.inl rfl)
    | exact .inr (.inr rfl)

/-- The expression does not share its anchor or range with one that it could be mistaken for. -/
structure Expr.Distinct (e f : Expr) : Prop where
  anchor : e.kind.shape = f.kind.shape → e.span.anchor ≠ f.span.anchor
  range : e.kind.shape = f.kind.shape → e.span.coincides f.span = false
  reads : e.kind.shape ∈ Shape.reads → f.kind.shape ∈ Shape.reads →
    e.span.coincides f.span = false
  initializers : e.kind.shape ∈ Shape.initializers → f.kind.shape ∈ Shape.initializers →
    e.span.coincides f.span = false

/-- The spans of a statement and of the `else if` links of its chain. -/
def Stmt.chainSpans (s : Stmt) : List Span := s.span :: Stmt.elseIfSpans s.elseBranch?

namespace Place

/-- The spans of the elements of a statement list and of their `else if` links. -/
def stmtSpans : Place → List Span
  | .stmts list => list.flatMap Stmt.chainSpans
  | _ => []

/-- The methods of a member list. -/
def methods : Place → List Method
  | .members list => list.filterMap Member.method?
  | _ => []

end Place

/-- No two nodes that an operator could mistake for each other share a range or an anchor. -/
structure Module.Unambiguous (m : Module) : Prop where
  exprs : (m.places .everything).Pairwise fun i j =>
    ∀ e f, i.2 = .expr e → j.2 = .expr f → e.Distinct f
  stmts : ((m.places .everything).flatMap fun i => i.2.stmtSpans).Pairwise fun s t =>
    s.coincides t = false
  methods : ((m.places .everything).flatMap fun i => i.2.methods).Pairwise fun a b =>
    a.span.coincides b.span = false
  names : ∀ i ∈ m.places .everything, (i.2.methods.map (·.name)).Nodup

/-- No two elements of statement lists share a range, nor do the links of their chains. -/
def Module.StmtsApart (m : Module) : Prop :=
  ((m.places .everything).flatMap fun i => i.2.stmtSpans).Pairwise fun s t => s.coincides t = false

instance (m : Module) : Decidable m.StmtsApart := inferInstanceAs (Decidable (List.Pairwise _ _))

instance (e f : Expr) : Decidable (e.Distinct f) :=
  decidable_of_iff ((e.kind.shape = f.kind.shape → e.span.anchor ≠ f.span.anchor) ∧
      (e.kind.shape = f.kind.shape → e.span.coincides f.span = false) ∧
      (e.kind.shape ∈ Shape.reads → f.kind.shape ∈ Shape.reads →
        e.span.coincides f.span = false) ∧
      (e.kind.shape ∈ Shape.initializers → f.kind.shape ∈ Shape.initializers →
        e.span.coincides f.span = false))
    ⟨fun ⟨a, b, c, d⟩ => ⟨a, b, c, d⟩, fun ⟨a, b, c, d⟩ => ⟨a, b, c, d⟩⟩

/-- Whether the expressions at two places are distinct can be decided. -/
def Place.decidableDistinct : (p q : Place) →
    Decidable (∀ e f, p = .expr e → q = .expr f → e.Distinct f)
  | .expr e, .expr f => decidable_of_iff (e.Distinct f)
    ⟨fun h _ _ he hf => by cases he; cases hf; exact h, fun h => h e f rfl rfl⟩
  | .expr _, .members _ | .expr _, .stmts _ | .expr _, .element _ => isTrue nofun
  | .members _, _ | .stmts _, _ | .element _, _ => isTrue nofun

instance (m : Module) : Decidable m.Unambiguous :=
  have : DecidableRel fun i j : String × Place =>
      ∀ e f, i.2 = .expr e → j.2 = .expr f → e.Distinct f :=
    fun i j => Place.decidableDistinct i.2 j.2
  decidable_of_iff (_ ∧ _ ∧ _ ∧ _)
    ⟨fun ⟨a, b, c, d⟩ => ⟨a, b, c, d⟩, fun ⟨a, b, c, d⟩ => ⟨a, b, c, d⟩⟩

/-- The sorts of places. -/
inductive Level where
  | members | stmts | element | expr
deriving DecidableEq

/-- The sort of a place. -/
def Place.level : Place → Level
  | .members _ => .members
  | .stmts _ => .stmts
  | .element _ => .element
  | .expr _ => .expr

/-- The sort of places an operator acts on. -/
def Operator.level : Operator → Level
  | .swapBodies _ => .members
  | .swapInits .. | .deleteVariable _ => .stmts
  | .setReturn _ | .deleteStmt | .insertBreak | .keepBranch _ | .deleteBranch
  | .exchangeDefault _ | .keepCase _ => .element
  | _ => .expr

section

variable {op : Operator} {site : Site}

/-- An operator answers only at places of its sort. -/
theorem Operator.level_of_answers {p : Place} (h : (op.onPlace site p).answers = true) :
    p.level = op.level := by
  cases p with
  | members list =>
    rw [Operator.onPlace, Outcome.answers_answer] at h
    cases op <;> first | rfl | cases h
  | stmts list =>
    rw [Operator.onPlace, Outcome.answers_answer] at h
    cases op <;> first | rfl | cases h
  | element s => cases op <;> first | rfl | simp [Operator.onPlace, Operator.onStmt] at h
  | expr e => cases op <;> first | rfl | simp [Operator.onPlace, Operator.onExpr] at h

/-- An operator answers only at expressions of its shapes that its target addresses. -/
theorem Operator.shape_of_answers {e : Expr} (h : (op.onExpr site e).answers = true) :
    site.isTarget e.span = true ∧ e.kind.shape ∈ op.shapes := by
  cases target : site.isTarget e.span with
  | false => simp [onExpr, target] at h
  | true =>
    refine ⟨rfl, ?_⟩
    obtain ⟨kind, span, ty⟩ := e
    unfold onExpr at h
    rw [if_pos target] at h
    cases op <;> first
      | cases h
      | cases kind <;> first
        | cases h
        | simp [ExprKind.shape, shapes, Shape.reads, Shape.initializers]

mutual
/-- Only a link of the chain is taken out. -/
theorem Stmt.mem_of_unlink {target : Location} : (s : Stmt) → (s.unlink? target).isSome = true →
    ∃ span ∈ Stmt.elseIfSpans s.elseBranch?, target.matchesB span = true
  | ⟨.ifElse guard thenBranch next, span, ghost⟩, h =>
    Stmt.mem_of_unlinkBelow next (by simpa [Stmt.unlink?] using h)

theorem Stmt.mem_of_unlinkBelow {target : Location} :
    (s : Option Stmt) → (Stmt.unlinkBelow? target s).isSome = true →
    ∃ span ∈ Stmt.elseIfSpans s, target.matchesB span = true
  | none, h => by simp [Stmt.unlinkBelow?] at h
  | some ⟨kind, span, ghost⟩, h => by
    rw [Stmt.unlinkBelow?] at h
    split at h
    · cases h
    · split at h
      · rename_i here
        obtain ⟨isIf, matches'⟩ := Bool.and_eq_true_iff.1 here
        cases kind <;> simp [Stmt.isIf] at isIf
        exact ⟨span, List.mem_cons_self, matches'⟩
      · rw [Option.isSome_map] at h
        cases kind <;> simp only [Stmt.unlink?, Option.isSome_none, Bool.false_eq_true] at h
        obtain ⟨link, mem, found⟩ := Stmt.mem_of_unlinkBelow _ (by simpa using h)
        exact ⟨link, List.mem_cons_of_mem _ mem, found⟩
end

theorem Operator.chain_of_answers {s : Stmt} (h : (op.onStmt site s).answers = true) :
    ∃ span ∈ s.chainSpans, site.isTarget span = true := by
  cases target : site.isTarget s.span with
  | true => exact ⟨s.span, List.mem_cons_self, target⟩
  | false =>
    cases op with
    | deleteBranch =>
      simp only [onStmt, Stmt.deleteBranch] at h
      split at h
      · change site.target.matchesB s.span = false at target
        rw [target, if_neg Bool.false_ne_true] at h
        cases unlinked : s.unlink? site.target with
        | none => simp [unlinked] at h
        | some left =>
          obtain ⟨span, mem, found⟩ := Stmt.mem_of_unlink s
            (Option.isSome_iff_exists.2 ⟨left, unlinked⟩)
          exact ⟨span, List.mem_cons_of_mem _ mem, found⟩
      · cases h
    | _ => simp [onStmt, target] at h

theorem Operator.element_of_answers {list : List Stmt}
    (h : (op.onStmts site list).1.answers = true) :
    ∃ s ∈ list, site.isTarget s.span = true := by
  cases op with
  | swapInits start stop =>
    simp only [onStmts, Stmt.swapInits] at h
    split at h
    · cases h
    · rename_i i found
      obtain ⟨hi, here, -⟩ := List.findIdx?_eq_some_iff_getElem.1 found
      exact ⟨list[i], List.getElem_mem hi, (Bool.and_eq_true_iff.1 here).1⟩
  | deleteVariable name =>
    simp only [onStmts, Stmt.deleteVariable] at h
    split at h
    · cases h
    · rename_i front s after found
      obtain ⟨rfl, here⟩ := splitAtFirst_eq_some found
      exact ⟨s, by simp, (Bool.and_eq_true_iff.1 here).1⟩
  | _ => cases h

theorem Operator.method_of_answers {list : List Member}
    (h : (op.onMembers site list).answers = true) :
    ∃ d ∈ list.filterMap Member.method?, site.isTarget d.span = true := by
  cases op with
  | swapBodies name =>
    simp only [onMembers, Member.swapBodies] at h
    split at h
    · cases h
    · rename_i i found
      obtain ⟨hi, here, -⟩ := List.findIdx?_eq_some_iff_getElem.1 found
      obtain ⟨isMethod, target⟩ := Bool.and_eq_true_iff.1 here
      obtain ⟨d, hd⟩ := Option.isSome_iff_exists.1 isMethod
      refine ⟨d, List.mem_filterMap.2 ⟨list[i], List.getElem_mem hi, hd⟩, ?_⟩
      cases eq : list[i] <;> simp_all [Member.method?, Member.span, Site.isTarget]
  | _ => cases h

end

theorem Location.coincides_of_matchesB {target : Location} {s t : Span} {a b : Pos}
    (range : target = .range a b) (hs : target.matchesB s = true) (ht : target.matchesB t = true) :
    s.coincides t = true := by
  subst range
  simp only [matchesB, Bool.and_eq_true, beq_iff_eq] at hs ht
  exact Span.coincides_iff.2 ⟨hs.1.trans ht.1.symm, hs.2.trans ht.2.symm⟩

/-- Two lists that hold elements in conflict are one. -/
theorem eq_of_pairwise_flatMap {α β : Type} {R : β → β → Prop} (symm : ∀ x y, R x y → R y x)
    {l : List α} {f : α → List β} (h : (l.flatMap f).Pairwise R) {a b : α} (ha : a ∈ l)
    (hb : b ∈ l) {x y : β} (hx : x ∈ f a) (hy : y ∈ f b) (conflict : ¬R x y) : a = b := by
  by_contra differ
  have both : Std.Symm fun a b => ∀ x ∈ f a, ∀ y ∈ f b, R x y :=
    ⟨fun a b h x hx y hy => symm y x (h y hy x hx)⟩
  exact conflict ((List.pairwise_flatMap.1 h).2.forall ha hb differ x hx y hy)

theorem Span.coincides_comm (s t : Span) : s.coincides t = t.coincides s := by
  rw [Bool.eq_iff_iff, coincides_iff, coincides_iff]
  exact ⟨fun h => ⟨h.1.symm, h.2.symm⟩, fun h => ⟨h.1.symm, h.2.symm⟩⟩

theorem Expr.Distinct.symm {e f : Expr} (h : e.Distinct f) : f.Distinct e where
  anchor := fun same => (h.anchor same.symm).symm
  range := fun same => by rw [Span.coincides_comm]; exact h.range same.symm
  reads := fun hf he => by rw [Span.coincides_comm]; exact h.reads he hf
  initializers := fun hf he => by rw [Span.coincides_comm]; exact h.initializers he hf

namespace Module.StmtsApart

variable {m : Module} {owner owner' : String}

/-- Statements that share the range of an element or a link are one element of one list. -/
theorem stmt_eq (h : m.StmtsApart) {list list' : List Stmt}
    (hi : (owner, .stmts list) ∈ m.places .everything)
    (hj : (owner', .stmts list') ∈ m.places .everything) {s t : Stmt} (hs : s ∈ list)
    (ht : t ∈ list') {x y : Span} (hx : x ∈ s.chainSpans) (hy : y ∈ t.chainSpans)
    (same : x.coincides y = true) : owner = owner' ∧ list = list' ∧ s = t := by
  have symm : ∀ x y : Span, x.coincides y = false → y.coincides x = false := fun x y h => by
    rwa [Span.coincides_comm]
  have conflict : ¬x.coincides y = false := by simp [same]
  have one := eq_of_pairwise_flatMap symm h hi hj
    (List.mem_flatMap.2 ⟨s, hs, hx⟩) (List.mem_flatMap.2 ⟨t, ht, hy⟩) conflict
  cases one
  have inside := (List.pairwise_flatMap.1 h).1 _ hi
  exact ⟨rfl, rfl, eq_of_pairwise_flatMap symm inside hs ht hx hy conflict⟩

/-- No two elements of a list share a range. -/
theorem list (h : m.StmtsApart) {list : List Stmt}
    (hi : (owner, .stmts list) ∈ m.places .everything) :
    list.Pairwise fun s t => s.span.coincides t.span = false := by
  have inside := (List.pairwise_flatMap.1 h).1 _ hi
  refine (List.pairwise_flatMap.1 inside).2.imp fun apart => ?_
  exact apart _ List.mem_cons_self _ List.mem_cons_self

end Module.StmtsApart

namespace Module.Unambiguous

variable {m : Module} {owner owner' : String}

/-- Statements that share the range of an element or a link are one element of one list. -/
theorem stmt_eq (h : m.Unambiguous) {list list' : List Stmt}
    (hi : (owner, .stmts list) ∈ m.places .everything)
    (hj : (owner', .stmts list') ∈ m.places .everything) {s t : Stmt} (hs : s ∈ list)
    (ht : t ∈ list') {x y : Span} (hx : x ∈ s.chainSpans) (hy : y ∈ t.chainSpans)
    (same : x.coincides y = true) : owner = owner' ∧ list = list' ∧ s = t :=
  StmtsApart.stmt_eq h.stmts hi hj hs ht hx hy same

theorem method_eq (h : m.Unambiguous) {list list' : List Member}
    (hi : (owner, .members list) ∈ m.places .everything)
    (hj : (owner', .members list') ∈ m.places .everything) {a b : Method}
    (ha : a ∈ list.filterMap Member.method?) (hb : b ∈ list'.filterMap Member.method?)
    (same : a.span.coincides b.span = true) : owner = owner' ∧ list = list' := by
  have symm : ∀ a b : Method, a.span.coincides b.span = false →
      b.span.coincides a.span = false := fun a b h => by rwa [Span.coincides_comm]
  have one := eq_of_pairwise_flatMap symm h.methods hi hj ha hb (by simp [same])
  cases one
  exact ⟨rfl, rfl⟩

theorem expr_eq (h : m.Unambiguous) {e f : Expr}
    (hi : (owner, .expr e) ∈ m.places .everything)
    (hj : (owner', .expr f) ∈ m.places .everything) (conflict : ¬e.Distinct f) :
    owner = owner' ∧ e = f := by
  have both : Std.Symm fun i j : String × Place =>
      ∀ e f, i.2 = .expr e → j.2 = .expr f → e.Distinct f :=
    ⟨fun i j h e f he hf => (h f e hf he).symm⟩
  by_contra differ
  refine conflict (h.exprs.forall hi hj ?_ e f rfl rfl)
  rintro one
  cases one
  exact differ ⟨rfl, rfl⟩

/-- Expressions of the shapes of one operator that one target addresses are in conflict. -/
theorem not_distinct {shapes : List Shape} {target : Location} {e f : Expr}
    (alike : Shape.Alike shapes) (single : shapes.length ≤ 1 ∨ ∃ a b, target = .range a b)
    (he : target.matchesB e.span = true) (hf : target.matchesB f.span = true)
    (se : e.kind.shape ∈ shapes) (sf : f.kind.shape ∈ shapes) : ¬e.Distinct f := by
  intro apart
  have one (few : shapes.length ≤ 1) : e.kind.shape = f.kind.shape := by
    obtain ⟨shape, only⟩ : ∃ shape, shapes = [shape] := by
      cases shapes with
      | nil => cases se
      | cons shape rest => exact ⟨shape, by simp_all⟩
    rw [only, List.mem_singleton] at se sf
    rw [se, sf]
  cases target with
  | anchor pos =>
    rcases single with few | ⟨a, b, range⟩
    · refine apart.anchor (one few) ?_
      simp only [Location.matchesB, beq_iff_eq] at he hf
      rw [he, hf]
    · cases range
  | range a b =>
    have same := Location.coincides_of_matchesB rfl he hf
    suffices other : e.span.coincides f.span = false by simp [same] at other
    rcases alike with few | reads | initializers
    · exact apart.range (one few)
    · exact apart.reads (reads ▸ se) (reads ▸ sf)
    · exact apart.initializers (initializers ▸ se) (initializers ▸ sf)

/-- At most one place answers. -/
theorem eq (h : m.Unambiguous) {op : Operator} {site site' : Site} (same : site'.target = site.target)
    (single : op.level = .expr → op.shapes.length ≤ 1 ∨ ∃ a b, site.target = .range a b)
    (range : op.level ≠ .expr → ∃ a b, site.target = .range a b) {i j : String × Place}
    (hi : i ∈ m.places .everything) (hj : j ∈ m.places .everything)
    (ai : (op.onPlace site i.2).answers = true) (aj : (op.onPlace site' j.2).answers = true) :
    i = j := by
  have levels := (Operator.level_of_answers ai).trans (Operator.level_of_answers aj).symm
  have level := Operator.level_of_answers ai
  obtain ⟨owner, p⟩ := i
  obtain ⟨owner', q⟩ := j
  cases p <;> cases q <;> cases levels <;> rw [Operator.onPlace, Outcome.answers_answer] at ai aj
  case members list list' =>
    obtain ⟨a, b, range⟩ := range (by simp [← level, Place.level])
    obtain ⟨x, hx, tx⟩ := Operator.method_of_answers ai
    obtain ⟨y, hy, ty⟩ := Operator.method_of_answers aj
    rw [Site.isTarget, same] at ty
    obtain ⟨rfl, rfl⟩ := h.method_eq hi hj hx hy (Location.coincides_of_matchesB range tx ty)
    rfl
  case stmts list list' =>
    obtain ⟨a, b, range⟩ := range (by simp [← level, Place.level])
    obtain ⟨s, hs, ts⟩ := Operator.element_of_answers ai
    obtain ⟨t, ht, tt⟩ := Operator.element_of_answers aj
    rw [Site.isTarget, same] at tt
    obtain ⟨rfl, rfl, -⟩ := h.stmt_eq hi hj hs ht List.mem_cons_self List.mem_cons_self
      (Location.coincides_of_matchesB range ts tt)
    rfl
  case element s t =>
    obtain ⟨a, b, range⟩ := range (by simp [← level, Place.level])
    obtain ⟨x, hx, tx⟩ := Operator.chain_of_answers ai
    obtain ⟨y, hy, ty⟩ := Operator.chain_of_answers aj
    rw [Site.isTarget, same] at ty
    obtain ⟨list, hl, hs⟩ := Module.exists_list hi
    obtain ⟨list', hl', ht⟩ := Module.exists_list hj
    obtain ⟨rfl, -, rfl⟩ := h.stmt_eq hl hl' hs ht hx hy
      (Location.coincides_of_matchesB range tx ty)
    rfl
  case expr e f =>
    obtain ⟨te, se⟩ := Operator.shape_of_answers ai
    obtain ⟨tf, sf⟩ := Operator.shape_of_answers aj
    rw [Site.isTarget, same] at tf
    obtain ⟨rfl, rfl⟩ := h.expr_eq hi hj (not_distinct op.shapes_alike (single level.symm) te tf se sf)
    rfl

end Module.Unambiguous

end Mutation
