import Mutation.Proofs.Unambiguous

/-!
# Parts that are apart

In an unambiguous module the places of a node's parts stand one behind the other in the list of all
places (`Module.sublist_places`). So the parts of one node are told apart by their position even
where they are equal as terms: two arguments of a call, the values of two declarations in a list,
the bodies of two cases, the bodies of two methods.
-/

namespace Mutation

/-- The places inside a place. -/
def Place.inside (w : Coverage) : Place → List Place
  | .members list => Member.placesList w list
  | .stmts list => Stmt.placesList w list
  | .element s => s.places w
  | .expr e => e.kind.places w

/-- A property of lists of places that holds of the places in a tree because it holds of those in
its parts. -/
structure Place.Composes (w : Coverage) (P : List Place → Prop) : Prop where
  nil : P []
  append : ∀ {l l' : List Place}, P l → P l' → P (l ++ l')
  expr : ∀ e : Expr, P (e.kind.places w) → P (.expr e :: e.kind.places w)
  list : ∀ list : List Stmt, (∀ s ∈ list, P (s.places w)) →
    P (.stmts list :: Stmt.placesList w list)
  members : ∀ list : List Member, P (Member.placesList w list) →
    P (.members list :: Member.placesList w list)

section

variable {w : Coverage}

namespace Place.Composes

variable {P : List Place → Prop}

theorem gate (h : Composes w P) {c : Bool} {l : List Place} (hl : P l) :
    P (if c then l else []) := by
  cases c with
  | false => exact h.nil
  | true => exact hl

theorem exprs_of (h : Composes w P) {es : List Expr} (each : ∀ e ∈ es, P (e.places w)) :
    P (Expr.placesList w es) := by
  induction es with
  | nil => exact h.nil
  | cons e es ih =>
    obtain ⟨first, rest⟩ := List.forall_mem_cons.1 each
    exact h.append first (ih rest)

theorem inExpr (h : Composes w P) (e : Expr) : P (e.places w) := by
  induction e using Expr.induct with
  | step e ih =>
    obtain ⟨kind, span, ty⟩ := e
    rw [Expr.places_mk]
    refine h.gate (h.expr ⟨kind, span, ty⟩ ?_)
    by_cases old : ∃ x, kind = .old x
    · obtain ⟨x, rfl⟩ := old
      exact h.gate (ih x List.mem_cons_self)
    · rw [ExprKind.places_eq fun x hx => old ⟨x, hx⟩]
      exact h.exprs_of ih

theorem exprs (h : Composes w P) (es : List Expr) : P (Expr.placesList w es) :=
  h.exprs_of fun e _ => h.inExpr e

theorem exprOpt (h : Composes w P) (e : Option Expr) : P (Expr.placesOpt w e) := by
  cases e with
  | none => exact h.nil
  | some e => exact h.inExpr e

theorem clause (h : Composes w P) (es : List Expr) : P (Expr.clausePlaces w es) :=
  h.gate (h.exprs es)

theorem targets (h : Composes w P) (es : List Expr) : P (Expr.targetPlaces w es) := by
  induction es with
  | nil => exact h.nil
  | cons e es ih => exact h.append (h.gate (h.inExpr e)) ih

theorem held (h : Composes w P) {b : Span × List Stmt} (each : ∀ s ∈ b.2, P (s.places w)) :
    P (Stmt.heldPlaces w b) :=
  h.gate (h.list b.2 each)

theorem cases (h : Composes w P) {cases : List MatchCase}
    (each : ∀ c ∈ cases, ∀ s ∈ c.body, P (s.places w)) : P (MatchCase.placesList w cases) := by
  induction cases with
  | nil => exact h.nil
  | cons c cases ih =>
    obtain ⟨first, rest⟩ := List.forall_mem_cons.1 each
    obtain ⟨pattern, body, span⟩ := c
    exact h.append (h.held (b := (span, body)) first) (ih rest)

theorem inStmt (h : Composes w P) (s : Stmt) : P (s.places w) := by
  induction s using Stmt.induct with
  | step s ihLists ihBranch =>
    obtain ⟨kind, span, ghost⟩ := s
    rw [Stmt.places]
    refine h.gate ?_
    have block {b : Block} (hb : (b.span, b.stmts) ∈ kind.lists) : P (b.places w) := by
      rw [Block.places_eq]
      exact h.held (ihLists _ hb)
    cases kind with
    | varDecl d =>
      obtain ⟨locals, init⟩ := d
      cases init with
      | none => exact h.nil
      | some init => exact h.exprs init.values
    | update u => exact h.append (h.targets _) (h.exprs _)
    | expr e | assert e | assume e => exact h.inExpr e
    | ret es | print es => exact h.exprs es
    | breakLoop | continueLoop => exact h.nil
    | block b => exact block List.mem_cons_self
    | ifElse guard body next =>
      refine h.append (h.append (h.exprOpt guard) (block List.mem_cons_self)) ?_
      cases next with
      | none => exact h.nil
      | some t => exact ihBranch t rfl
    | whileLoop guard invariants decreases body =>
      exact h.append (h.append (h.append (h.exprOpt guard) (h.clause _)) (h.clause _))
        (block List.mem_cons_self)
    | forLoop index start stop ascending invariants body =>
      exact h.append (h.append (h.append (h.inExpr start) (h.exprOpt stop)) (h.clause _))
        (block List.mem_cons_self)
    | matchOn source cases =>
      refine h.append (h.inExpr source) (h.cases fun c hc => ?_)
      exact ihLists (c.span, c.body) (List.mem_map_of_mem hc)

theorem inMember (h : Composes w P) (x : Member) : P (x.places w) := by
  refine h.gate ?_
  have contract (c : Contract) : P (c.places w) :=
    h.append (h.append (h.append (h.clause _) (h.clause _)) (h.clause _)) (h.clause _)
  cases x with
  | field f => exact h.nil
  | method d =>
    refine h.append (contract d.contract) ?_
    cases d.body with
    | none => exact h.nil
    | some b =>
      rw [Block.placesOpt, Block.places_eq]
      exact h.held fun s _ => h.inStmt s
  | function f => exact h.append (contract f.contract) (h.exprOpt f.body)

/-- The property holds of the places in a declaration. -/
theorem inDecl (h : Composes w P) (d : Decl) : P (d.places w) := by
  refine h.gate (h.members d.members ?_)
  induction d.members with
  | nil => exact h.nil
  | cons x xs ih => exact h.append (h.inMember x) ih

end Place.Composes

/-- Each place in the list has the places inside it behind it. -/
def Place.Closed (w : Coverage) (l : List Place) : Prop :=
  ∀ p ∈ l, (p :: p.inside w).Sublist l

namespace Place.Closed

variable {l l' : List Place}

theorem append (h : Closed w l) (h' : Closed w l') : Closed w (l ++ l') := by
  intro p hp
  rcases List.mem_append.1 hp with hp | hp
  · exact (h p hp).trans (List.sublist_append_left _ _)
  · exact (h' p hp).trans (List.sublist_append_right _ _)

theorem cons {p : Place} (h : Closed w (p.inside w)) : Closed w (p :: p.inside w) := by
  intro q hq
  rcases List.mem_cons.1 hq with rfl | hq
  · exact List.Sublist.refl _
  · exact (h q hq).trans (List.sublist_cons_self _ _)

theorem elements {list : List Stmt} (h : ∀ s ∈ list, Closed w (s.places w)) :
    Closed w (Stmt.placesList w list) := by
  induction list with
  | nil => exact List.forall_mem_nil _
  | cons s list ih =>
    obtain ⟨first, rest⟩ := List.forall_mem_cons.1 h
    rw [Stmt.placesList]
    refine append ?_ (ih rest)
    split
    · exact cons (p := .element s) first
    · exact List.forall_mem_nil _

theorem composes : Composes w (Closed w) where
  nil := List.forall_mem_nil _
  append := append
  expr e h := cons (p := .expr e) h
  list list h := cons (p := .stmts list) (elements h)
  members list h := cons (p := .members list) h

end Place.Closed

/-- The places inside a place of a module are among those of the module, in the same order. -/
theorem Module.sublist_places {m : Module} {owner : String} {p : Place}
    (h : (owner, p) ∈ m.places w) :
    ((p :: p.inside w).map fun q => (owner, q)).Sublist (m.places w) := by
  unfold Module.places at h ⊢
  generalize m.decls = ds at h ⊢
  induction ds with
  | nil => cases h
  | cons d ds ih =>
    rw [Decl.placesList] at h ⊢
    rcases List.mem_append.1 h with h | h
    · obtain ⟨q, hq, eq⟩ := List.mem_map.1 h
      cases eq
      have closed : Place.Closed w (d.places w) := Place.Closed.composes.inDecl d
      exact ((closed _ hq).map _).trans (List.sublist_append_left _ _)
    · exact (ih h).trans (List.sublist_append_right _ _)

theorem Expr.sublist_placesList (es : List Expr) :
    (es.map Place.expr).Sublist (Expr.placesList .everything es) := by
  induction es with
  | nil => exact List.Sublist.refl _
  | cons e es ih =>
    obtain ⟨kind, span, ty⟩ := e
    exact (List.Sublist.cons_cons _ (List.nil_sublist _)).append ih

/-- The parts of an expression are among the places inside it. -/
theorem Expr.sublist_parts (e : Expr) :
    (e.kind.parts.map Place.expr).Sublist (e.kind.places .everything) := by
  rw [ExprKind.places_everything]
  exact Expr.sublist_placesList _

theorem MatchCase.sublist_placesList (cases : List MatchCase) :
    (cases.map fun c => Place.stmts c.body).Sublist (MatchCase.placesList .everything cases) := by
  induction cases with
  | nil => exact List.Sublist.refl _
  | cons c cases ih =>
    obtain ⟨pattern, body, span⟩ := c
    exact (List.Sublist.cons_cons _ (List.nil_sublist _)).append ih

/-- The bodies of the cases are among the places inside a `match`. -/
theorem Stmt.sublist_cases (source : Expr) (cases : List MatchCase) (span : Span) (ghost : Bool) :
    (cases.map fun c => Place.stmts c.body).Sublist
      (Stmt.places .everything ⟨.matchOn source cases, span, ghost⟩) :=
  (MatchCase.sublist_placesList cases).trans (List.sublist_append_right _ _)

theorem Stmt.placesList_eq (list : List Stmt) :
    Stmt.placesList .everything list =
      list.flatMap fun s => .element s :: s.places .everything := by
  induction list with
  | nil => rfl
  | cons s list ih =>
    rw [Stmt.placesList, ih]
    rfl

theorem Member.placesList_eq (ms : List Member) :
    Member.placesList .everything ms = ms.flatMap fun m => m.places .everything := by
  induction ms with
  | nil => rfl
  | cons m ms ih => rw [Member.placesList, ih, List.flatMap_cons]

theorem Member.mem_places_body {d : Method} {b : Block} (given : d.body = some b) :
    .stmts b.stmts ∈ (Member.method d).places .everything := by
  refine Member.mem_places.2 ⟨⟨rfl, rfl⟩, List.mem_append_right _ ?_⟩
  rw [given, Block.placesOpt, Block.places_eq]
  exact List.mem_cons_self

end

namespace Module.Unambiguous

variable {m : Module} {owner : String} {p : Place}

/-- What lies inside a place is told apart by ranges and anchors. -/
theorem exprs_inside (h : m.Unambiguous) (hp : (owner, p) ∈ m.places .everything) :
    (p.inside .everything).Pairwise fun p q =>
      ∀ e f, p = .expr e → q = .expr f → e.Distinct f :=
  (List.pairwise_map.1 (h.exprs.sublist (sublist_places hp))).tail

theorem stmts_inside (h : m.Unambiguous) (hp : (owner, p) ∈ m.places .everything) :
    (p.inside .everything).Pairwise fun p q =>
      ∀ x ∈ p.stmtSpans, ∀ y ∈ q.stmtSpans, x.coincides y = false :=
  (List.pairwise_map.1 ((List.pairwise_flatMap.1 h.stmts).2.sublist (sublist_places hp))).tail

/-- No two parts of an expression are in conflict. -/
theorem parts_apart (h : m.Unambiguous) {e : Expr}
    (hp : (owner, .expr e) ∈ m.places .everything) : e.kind.parts.Pairwise Expr.Distinct := by
  have parts := (h.exprs_inside hp).sublist e.sublist_parts
  exact (List.pairwise_map.1 parts).imp fun apart => apart _ _ rfl rfl

/-- No two expressions of different elements of a list are in conflict. -/
theorem elements_apart (h : m.Unambiguous) {list : List Stmt}
    (hp : (owner, .stmts list) ∈ m.places .everything) :
    list.Pairwise fun s t => ∀ e ∈ s.kind.exprs .everything, ∀ f ∈ t.kind.exprs .everything,
      e.Distinct f := by
  have inside := h.exprs_inside hp
  rw [Place.inside, Stmt.placesList_eq] at inside
  refine (List.pairwise_flatMap.1 inside).2.imp fun apart e he f hf => ?_
  have own {s : Stmt} {e : Expr} (he : e ∈ s.kind.exprs .everything) :
      .expr e ∈ s.places .everything := by
    obtain ⟨kind, span, ty⟩ := e
    exact Stmt.mem_places.2 ⟨⟨rfl, rfl⟩, Stmt.mem_inside.2 (.inl ⟨_, he, List.mem_cons_self⟩)⟩
  exact apart _ (List.mem_cons_of_mem _ (own he)) _ (List.mem_cons_of_mem _ (own hf)) _ _ rfl rfl

/-- No two elements of the bodies of different cases share a range. -/
theorem cases_apart (h : m.Unambiguous) {source : Expr} {cases : List MatchCase} {span : Span}
    {ghost : Bool} (hp : (owner, .element ⟨.matchOn source cases, span, ghost⟩) ∈ m.places .everything) :
    cases.Pairwise fun c d => ∀ s ∈ c.body, ∀ t ∈ d.body, s.span.coincides t.span = false := by
  have bodies := (h.stmts_inside hp).sublist (Stmt.sublist_cases source cases span ghost)
  refine (List.pairwise_map.1 bodies).imp fun apart s hs t ht => ?_
  exact apart _ (List.mem_flatMap.2 ⟨s, hs, List.mem_cons_self⟩) _
    (List.mem_flatMap.2 ⟨t, ht, List.mem_cons_self⟩)

/-- No two elements of the bodies of different methods share a range. -/
theorem bodies_apart (h : m.Unambiguous) {list : List Member}
    (hp : (owner, .members list) ∈ m.places .everything) :
    list.Pairwise fun x y => ∀ a b, x = .method a → y = .method b → ∀ c ∈ a.body, ∀ d ∈ b.body,
      ∀ s ∈ c.stmts, ∀ t ∈ d.stmts, s.span.coincides t.span = false := by
  have inside := h.stmts_inside hp
  rw [Place.inside, Member.placesList_eq] at inside
  refine (List.pairwise_flatMap.1 inside).2.imp ?_
  rintro x y apart a b rfl rfl c hc d hd s hs t ht
  exact apart _ (Member.mem_places_body hc) _ (Member.mem_places_body hd)
    _ (List.mem_flatMap.2 ⟨s, hs, List.mem_cons_self⟩)
    _ (List.mem_flatMap.2 ⟨t, ht, List.mem_cons_self⟩)

end Module.Unambiguous

end Mutation
