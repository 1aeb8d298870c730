import Mathlib.Data.List.Perm.Basic
import Mutation.Proofs.Agreement
import Mutation.Proofs.Apart

/-!
# Candidates tell places apart

Where a candidate is and of which kind says at which place it was proposed: in an unambiguous module
no candidate is proposed at two places, whatever is known at them
(`Module.Unambiguous.places_disjoint`). The kind gives the sort of the place. Among places of one
sort the location gives the place, since their landmarks are told apart by the module: expressions
by anchors and ranges, and the others by ranges.

An element of a list is a place of its own, while the module tells elements apart in their lists.
The elements among the places of a tree are those of its lists, in another order
(`Place.perm_elementSpans`).
-/

namespace Mutation

/-- No candidate is proposed at both places. -/
def Place.Disjoint (p q : Place) : Prop :=
  ∀ v w : View, ∀ c ∈ p.proposals v, c ∉ q.proposals w

/-- The spans of an element and of the `else if` links of its chain. -/
def Place.elementSpans : Place → List Span
  | .element s => s.chainSpans
  | _ => []

/-- The sort of places at which candidates of a kind are proposed. The deletion of a variable is
proposed at its declaration, although it changes the list. -/
def Kind.source (kind : Kind) : Level :=
  if kind = .variableDeletion then .element else kind.level

theorem Kind.source_of_level {kind : Kind} {level : Level} (h : kind.level = level)
    (other : level ≠ .stmts) : kind.source = level := by
  rw [source, if_neg, h]
  rintro rfl
  exact other h.symm

theorem Place.source_of_mem {p : Place} {v : View} {c : Candidate} (hc : c ∈ p.proposals v) :
    c.kind.source = p.level := by
  cases p with
  | members list =>
    obtain ⟨a, b, -, -, -, -, rfl⟩ := Member.mem_exchanges hc
    rfl
  | stmts list =>
    obtain ⟨s, t, first, second, -, -, -, -, rfl⟩ := Stmt.mem_exchanges hc
    rfl
  | element s =>
    rcases (Stmt.addressed hc).1 with level | deletion
    · exact Kind.source_of_level level (by rintro ⟨⟩)
    · rw [Kind.source, if_pos deletion, level]
  | expr e => exact Kind.source_of_level (View.mem_expr hc).2 (by rintro ⟨⟩)

/-! ### Elements as places -/

/-- The elements among the places are those of the lists. -/
theorem Place.composes_elementSpans : Composes .everything fun l =>
    (l.flatMap elementSpans).Perm (l.flatMap stmtSpans) where
  nil := .refl _
  append h h' := by
    rw [List.flatMap_append, List.flatMap_append]
    exact h.append h'
  expr _ h := h
  list list each := by
    have held : ((Stmt.placesList .everything list).flatMap stmtSpans) =
        list.flatMap fun s => (s.places .everything).flatMap stmtSpans := by
      rw [Stmt.placesList_eq, List.flatMap_assoc]
      rfl
    calc (Place.stmts list :: Stmt.placesList .everything list).flatMap elementSpans
      _ = list.flatMap fun s => s.chainSpans ++ (s.places .everything).flatMap elementSpans := by
        rw [List.flatMap_cons, Stmt.placesList_eq, List.flatMap_assoc]
        rfl
      List.Perm _ (list.flatMap Stmt.chainSpans ++
          list.flatMap fun s => (s.places .everything).flatMap elementSpans) :=
        (List.flatMap_append_perm _ _ _).symm
      List.Perm _ (list.flatMap Stmt.chainSpans ++
          list.flatMap fun s => (s.places .everything).flatMap stmtSpans) :=
        (List.Perm.flatMap_left list each).append_left _
      _ = (Place.stmts list :: Stmt.placesList .everything list).flatMap stmtSpans := by
        rw [List.flatMap_cons, held]
        rfl
  members _ h := h

theorem Module.perm_elementSpans (m : Module) :
    ((m.places .everything).flatMap fun i => i.2.elementSpans).Perm
      ((m.places .everything).flatMap fun i => i.2.stmtSpans) := by
  unfold Module.places
  induction m.decls with
  | nil => exact .refl _
  | cons d ds ih =>
    rw [Decl.placesList, List.flatMap_append, List.flatMap_append, List.flatMap_map,
      List.flatMap_map]
    exact (Place.composes_elementSpans.inDecl d).append ih

/-! ### Landmarks -/

theorem Span.coincides_of_rangeLocation {s t : Span} (h : s.rangeLocation = t.rangeLocation) :
    s.coincides t = true := by
  simpa [Span.rangeLocation, Span.coincides_iff] using h

section

variable {c : Candidate} {v w : View}

/-- Expressions for which one candidate is proposed are in conflict. -/
theorem Expr.not_distinct_of_mem {e f : Expr} (he : c ∈ v.expr e) (hf : c ∈ w.expr f) :
    ¬e.Distinct f := by
  obtain ⟨shapeE, location⟩ := View.addressed he
  obtain ⟨shapeF, -⟩ := View.addressed hf
  have single := c.kind.single_shape e.span
  rw [← location] at single
  exact Module.Unambiguous.not_distinct c.kind.shapes_alike single (View.mem_expr he).1
    (View.mem_expr hf).1 shapeE shapeF

theorem Stmt.exists_span_of_mem_exchanges {list : List Stmt} (hc : c ∈ Stmt.exchanges list) :
    ∃ span ∈ list.flatMap Stmt.chainSpans, c.location = span.rangeLocation := by
  obtain ⟨s, t, first, second, order, -, -, -, rfl⟩ := Stmt.mem_exchanges hc
  have hs : s ∈ list := order.subset List.mem_cons_self
  exact ⟨s.span, List.mem_flatMap.2 ⟨s, hs, List.mem_cons_self⟩, rfl⟩

theorem Member.exists_method_of_mem_exchanges {list : List Member}
    (hc : c ∈ Member.exchanges list) :
    ∃ d ∈ list.filterMap Member.method?, c.location = d.span.rangeLocation := by
  obtain ⟨a, b, order, -, -, -, rfl⟩ := Member.mem_exchanges hc
  exact ⟨a, order.subset List.mem_cons_self, rfl⟩

end

/-- The elements among the places are told apart as they are in their lists. -/
theorem Module.Unambiguous.elements {m : Module} (h : m.Unambiguous) :
    ((m.places .everything).flatMap fun i => i.2.elementSpans).Pairwise fun s t =>
      s.coincides t = false :=
  m.perm_elementSpans.symm.pairwise h.stmts fun {x y} apart => by rwa [Span.coincides_comm]

/-- No candidate is proposed at two places of an unambiguous module. -/
theorem Module.Unambiguous.places_disjoint {m : Module} (h : m.Unambiguous) :
    (m.places .everything).Pairwise fun i j => i.2.Disjoint j.2 := by
  have elements := (List.pairwise_flatMap.1 h.elements).2
  have lists := (List.pairwise_flatMap.1 h.stmts).2
  have methods := (List.pairwise_flatMap.1 h.methods).2
  refine (((h.exprs.and elements).and lists).and methods).imp ?_
  rintro ⟨_, p⟩ ⟨_, q⟩ ⟨⟨⟨exprs, elements⟩, lists⟩, methods⟩ v w c hp hq
  have level : p.level = q.level :=
    (Place.source_of_mem hp).symm.trans (Place.source_of_mem hq)
  cases p <;> cases q <;> cases level
  case members list list' =>
    obtain ⟨a, ha, here⟩ := Member.exists_method_of_mem_exchanges hp
    obtain ⟨b, hb, there⟩ := Member.exists_method_of_mem_exchanges hq
    have same := Span.coincides_of_rangeLocation (here.symm.trans there)
    exact Bool.false_ne_true ((methods a ha b hb).symm.trans same)
  case stmts list list' =>
    obtain ⟨x, hx, here⟩ := Stmt.exists_span_of_mem_exchanges hp
    obtain ⟨y, hy, there⟩ := Stmt.exists_span_of_mem_exchanges hq
    have same := Span.coincides_of_rangeLocation (here.symm.trans there)
    exact Bool.false_ne_true ((lists x hx y hy).symm.trans same)
  case element s t =>
    obtain ⟨x, hx, here⟩ := (Stmt.addressed hp).2
    obtain ⟨y, hy, there⟩ := (Stmt.addressed hq).2
    have same := Span.coincides_of_rangeLocation (here.symm.trans there)
    exact Bool.false_ne_true ((elements x hx y hy).symm.trans same)
  case expr e f => exact Expr.not_distinct_of_mem hp hq (exprs e f rfl rfl)

end Mutation
