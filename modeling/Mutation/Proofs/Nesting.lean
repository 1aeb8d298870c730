import Mutation.Proofs.Place

/-!
# Nested spans

Statements are taken apart like expressions: a statement has expressions, lists with the spans of
the blocks and cases that hold them, and at most one `else` branch. `Stmt.induct` is induction on
these parts, and the places in a statement are those in its parts (`StmtKind.mem_places`).

A search enters only spans in which its target may lie. In a module whose spans are nested, what
lies in a node lies in everything around it, so such a search comes to every place of the
executable code that its target may lie in (`Module.mem_places_toward`).
-/

namespace Mutation

namespace StmtKind

/-- The direct expressions of a statement that are walked. -/
def exprs (w : Coverage) : StmtKind → List Expr
  | .varDecl ⟨_, some init⟩ => init.values
  | .update u => u.targets.filter w.target ++ u.values
  | .expr e | .assert e | .assume e => [e]
  | .ret es | .print es => es
  | .ifElse guard _ _ => guard.toList
  | .whileLoop guard invariants decreases _ =>
    guard.toList ++ if w.admits .specification then invariants ++ decreases else []
  | .forLoop _ start stop _ invariants _ =>
    start :: (stop.toList ++ if w.admits .specification then invariants else [])
  | .matchOn source _ => [source]
  | .varDecl ⟨_, none⟩ | .breakLoop | .continueLoop | .block _ => []

/-- The lists of a statement, each with the span of the block or case that holds it. -/
def lists : StmtKind → List (Span × List Stmt)
  | .ifElse _ b _ | .whileLoop _ _ _ b | .forLoop _ _ _ _ _ b | .block b => [(b.span, b.stmts)]
  | .matchOn _ cases => cases.map fun c => (c.span, c.body)
  | _ => []

end StmtKind

mutual
/-- Induction on statements: a property of a statement follows from that of the statements in its
lists and of its `else` branch. -/
theorem Stmt.induct {P : Stmt → Prop}
    (step : ∀ s, (∀ b ∈ s.kind.lists, ∀ t ∈ b.2, P t) → (∀ t ∈ s.elseBranch?, P t) → P s) :
    (s : Stmt) → P s
  | ⟨.ifElse guard ⟨list, span⟩ elseBranch, _, _⟩ =>
    step _ (by simpa [StmtKind.lists] using Stmt.induct_list step list)
      (Stmt.induct_opt step elseBranch)
  | ⟨.whileLoop _ _ _ ⟨list, span⟩, _, _⟩ | ⟨.forLoop _ _ _ _ _ ⟨list, span⟩, _, _⟩
  | ⟨.block ⟨list, span⟩, _, _⟩ =>
    step _ (by simpa [StmtKind.lists] using Stmt.induct_list step list) (by simp [Stmt.elseBranch?])
  | ⟨.matchOn _ cases, _, _⟩ =>
    step _ (by simpa [StmtKind.lists] using MatchCase.induct_list step cases)
      (by simp [Stmt.elseBranch?])
  | ⟨.varDecl _, _, _⟩ | ⟨.update _, _, _⟩ | ⟨.expr _, _, _⟩ | ⟨.ret _, _, _⟩
  | ⟨.breakLoop, _, _⟩ | ⟨.continueLoop, _, _⟩ | ⟨.assert _, _, _⟩ | ⟨.assume _, _, _⟩
  | ⟨.print _, _, _⟩ => step _ (by simp [StmtKind.lists]) (by simp [Stmt.elseBranch?])

/-- The induction for the statements of a list. -/
theorem Stmt.induct_list {P : Stmt → Prop}
    (step : ∀ s, (∀ b ∈ s.kind.lists, ∀ t ∈ b.2, P t) → (∀ t ∈ s.elseBranch?, P t) → P s) :
    (list : List Stmt) → ∀ t ∈ list, P t
  | [] => by simp
  | s :: list => List.forall_mem_cons.2 ⟨Stmt.induct step s, Stmt.induct_list step list⟩

/-- The induction for a branch that may be absent. -/
theorem Stmt.induct_opt {P : Stmt → Prop}
    (step : ∀ s, (∀ b ∈ s.kind.lists, ∀ t ∈ b.2, P t) → (∀ t ∈ s.elseBranch?, P t) → P s) :
    (s : Option Stmt) → ∀ t ∈ s, P t
  | none => by simp
  | some s => by simpa using Stmt.induct step s

/-- The induction for the bodies of cases. -/
theorem MatchCase.induct_list {P : Stmt → Prop}
    (step : ∀ s, (∀ b ∈ s.kind.lists, ∀ t ∈ b.2, P t) → (∀ t ∈ s.elseBranch?, P t) → P s) :
    (cases : List MatchCase) → ∀ c ∈ cases, ∀ t ∈ c.body, P t
  | [] => by simp
  | ⟨_, body, _⟩ :: cases =>
    List.forall_mem_cons.2 ⟨Stmt.induct_list step body, MatchCase.induct_list step cases⟩
end

section

variable {w : Coverage} {p : Place}

/-- A place in targets lies in one of those that are walked. -/
theorem Expr.mem_targetPlaces {es : List Expr} :
    p ∈ Expr.targetPlaces w es ↔ ∃ e ∈ es.filter w.target, p ∈ e.places w := by
  induction es with
  | nil => simp [Expr.targetPlaces]
  | cons e es ih =>
    rw [Expr.targetPlaces, List.mem_append, ih]
    by_cases walked : w.target e
    · simp [walked]
    · simp [walked]

/-- The places in a list with the span of what holds it, the list first. -/
def Stmt.heldPlaces (w : Coverage) (b : Span × List Stmt) : List Place :=
  if w.worth b.1 then .stmts b.2 :: Stmt.placesList w b.2 else []

/-- A block has the places of its list. -/
theorem Block.places_eq (b : Block) : b.places w = Stmt.heldPlaces w (b.span, b.stmts) := by
  obtain ⟨list, span⟩ := b
  rw [Block.places]
  rfl

/-- A place in the cases lies in the list of one of them. -/
theorem MatchCase.mem_placesList {cases : List MatchCase} :
    p ∈ MatchCase.placesList w cases ↔
      ∃ c ∈ cases, p ∈ Stmt.heldPlaces w (c.span, c.body) := by
  induction cases with
  | nil => simp [MatchCase.placesList]
  | cons c cases ih =>
    obtain ⟨pattern, body, span⟩ := c
    rw [MatchCase.placesList, List.mem_append, ih]
    simp [Stmt.heldPlaces]

theorem Expr.mem_placesOpt {e : Option Expr} :
    p ∈ Expr.placesOpt w e ↔ ∃ x ∈ e.toList, p ∈ x.places w := by
  cases e <;> simp [Expr.placesOpt]

theorem Expr.mem_clausePlaces {es : List Expr} :
    p ∈ Expr.clausePlaces w es ↔
      ∃ e ∈ if w.admits .specification then es else [], p ∈ e.places w := by
  unfold Expr.clausePlaces
  split <;> simp [Expr.mem_placesList]

/-- The places in the inside of a statement are those in its parts. -/
theorem Stmt.mem_inside {s : Stmt} :
    p ∈ s.kind.places w ↔ (∃ e ∈ s.kind.exprs w, p ∈ e.places w) ∨
      (∃ b ∈ s.kind.lists, p ∈ Stmt.heldPlaces w b) ∨ ∃ t ∈ s.elseBranch?, p ∈ t.places w := by
  obtain ⟨kind, span, ghost⟩ := s
  cases kind with
  | varDecl d =>
    obtain ⟨locals, init⟩ := d
    cases init <;>
      simp [StmtKind.places, VarDecl.places, StmtKind.exprs, StmtKind.lists, Stmt.elseBranch?,
        Expr.mem_placesList]
  | update u =>
    simp [StmtKind.places, Update.places, StmtKind.exprs, StmtKind.lists, Stmt.elseBranch?,
      Expr.mem_placesList, Expr.mem_targetPlaces, or_and_right, exists_or]
  | ifElse guard thenBranch elseBranch =>
    cases elseBranch <;>
      simp [StmtKind.places, StmtKind.exprs, StmtKind.lists, Stmt.elseBranch?, Block.places_eq,
        Expr.mem_placesOpt, Stmt.placesOpt]
  | whileLoop guard invariants decreases body =>
    by_cases admitted : w.admits .specification <;>
      simp [StmtKind.places, StmtKind.exprs, StmtKind.lists, Stmt.elseBranch?, Block.places_eq,
        Expr.mem_placesOpt, Expr.mem_clausePlaces, admitted, or_and_right, exists_or, or_assoc]
  | forLoop index start stop ascending invariants body =>
    by_cases admitted : w.admits .specification <;>
      simp [StmtKind.places, StmtKind.exprs, StmtKind.lists, Stmt.elseBranch?, Block.places_eq,
        Expr.mem_placesOpt, Expr.mem_clausePlaces, admitted, or_and_right, exists_or, or_assoc]
  | matchOn source cases =>
    simp [StmtKind.places, StmtKind.exprs, StmtKind.lists, Stmt.elseBranch?,
      MatchCase.mem_placesList]
  | block b =>
    simp [StmtKind.places, StmtKind.exprs, StmtKind.lists, Stmt.elseBranch?, Block.places_eq]
  | _ =>
    simp [StmtKind.places, StmtKind.exprs, StmtKind.lists, Stmt.elseBranch?, Expr.mem_placesList]

/-- A place in a statement lies in its form, where the statement is walked. -/
theorem Stmt.mem_places {s : Stmt} :
    p ∈ s.places w ↔ (w.admits s.context = true ∧ w.worth s.span = true) ∧ p ∈ s.kind.places w := by
  obtain ⟨kind, span, ghost⟩ := s
  simp [Stmt.places]

/-- A place in a list is one of its statements that are walked, or lies in one. -/
theorem Stmt.mem_placesList {list : List Stmt} :
    p ∈ Stmt.placesList w list ↔ ∃ s ∈ list, (w.admits s.context = true ∧ w.worth s.span = true) ∧
      (p = .element s ∨ p ∈ s.places w) := by
  induction list with
  | nil => simp [Stmt.placesList]
  | cons s list ih =>
    rw [Stmt.placesList, List.mem_append, ih]
    simp

/-- In an expression there are only places of expressions. -/
theorem Expr.mem_places_expr {e : Expr} (h : p ∈ e.places w) : ∃ x, p = .expr x := by
  induction e using Expr.induct with
  | step e ih =>
    obtain ⟨kind, span, ty⟩ := e
    rw [Expr.places_mk] at h
    split at h
    · rcases List.mem_cons.1 h with rfl | h
      · exact ⟨_, rfl⟩
      · by_cases old : ∃ x, kind = .old x
        · obtain ⟨x, rfl⟩ := old
          rw [ExprKind.places] at h
          split at h
          · exact ih x (by simp [ExprKind.parts]) h
          · cases h
        · rw [ExprKind.places_eq fun x hx => old ⟨x, hx⟩, Expr.mem_placesList] at h
          obtain ⟨c, hc, h⟩ := h
          exact ih c hc h
    · cases h

/-- An element of a list inside a list is an element of a list offered there. -/
theorem Stmt.exists_list_held {b : Span × List Stmt} {t : Stmt}
    (inside : ∀ s ∈ b.2, .element t ∈ s.places w → ∃ list, .stmts list ∈ s.places w ∧ t ∈ list)
    (h : .element t ∈ Stmt.heldPlaces w b) :
    ∃ list, .stmts list ∈ Stmt.heldPlaces w b ∧ t ∈ list := by
  unfold Stmt.heldPlaces at h ⊢
  split at h
  · rename_i worth
    simp only [if_pos worth, List.mem_cons, reduceCtorEq, false_or] at h ⊢
    obtain ⟨s, hs, gate, h⟩ := Stmt.mem_placesList.1 h
    rcases h with same | h
    · cases same
      exact ⟨b.2, .inl rfl, hs⟩
    · obtain ⟨list, mem, ht⟩ := inside s hs h
      exact ⟨list, .inr (Stmt.mem_placesList.2 ⟨s, hs, gate, .inr mem⟩), ht⟩
  · cases h

/-- An element of a list in a statement comes after its list. -/
theorem Stmt.exists_list {s t : Stmt} (h : .element t ∈ s.places w) :
    ∃ list, .stmts list ∈ s.places w ∧ t ∈ list := by
  induction s using Stmt.induct with
  | step s ihLists ihBranch =>
    obtain ⟨gate, h⟩ := Stmt.mem_places.1 h
    suffices found : ∃ list, .stmts list ∈ s.kind.places w ∧ t ∈ list by
      obtain ⟨list, mem, ht⟩ := found
      exact ⟨list, Stmt.mem_places.2 ⟨gate, mem⟩, ht⟩
    simp only [Stmt.mem_inside] at h ⊢
    rcases h with ⟨e, he, h⟩ | ⟨b, hb, h⟩ | ⟨u, hu, h⟩
    · obtain ⟨x, hx⟩ := Expr.mem_places_expr h
      cases hx
    · obtain ⟨list, mem, ht⟩ := Stmt.exists_list_held (ihLists b hb) h
      exact ⟨list, .inr (.inl ⟨b, hb, mem⟩), ht⟩
    · obtain ⟨list, mem, ht⟩ := ihBranch u hu h
      exact ⟨list, .inr (.inr ⟨u, hu, mem⟩), ht⟩

end

/-- The expression lies in the range, and so on for its parts. -/
inductive Expr.Nested : Span → Expr → Prop
  | intro {outer : Span} {e : Expr} (inside : outer.encloses e.span = true)
    (anchored : e.span.anchoredB = true) (parts : ∀ c ∈ e.kind.parts, Expr.Nested e.span c) :
    Expr.Nested outer e

/-- The statement lies in the range, and so on for its expressions, its lists and its `else`
branch. -/
inductive Stmt.Nested : Span → Stmt → Prop
  | intro {outer : Span} {s : Stmt} (inside : outer.encloses s.span = true)
    (anchored : s.span.anchoredB = true)
    (exprs : ∀ e ∈ s.kind.exprs .everything, e.Nested s.span)
    (held : ∀ b ∈ s.kind.lists, s.span.encloses b.1 = true ∧ b.1.anchoredB = true)
    (lists : ∀ b ∈ s.kind.lists, ∀ t ∈ b.2, Stmt.Nested b.1 t)
    (branch : ∀ t ∈ s.elseBranch?, Stmt.Nested s.span t) : Stmt.Nested outer s

/-- The block lies in the range, and so on for its statements. -/
structure Block.Nested (outer : Span) (b : Block) : Prop where
  inside : outer.encloses b.span = true
  anchored : b.span.anchoredB = true
  stmts : ∀ s ∈ b.stmts, s.Nested b.span

/-- The member lies in the range, and so on for its body. -/
structure Member.Nested (outer : Span) (m : Member) : Prop where
  inside : outer.encloses m.span = true
  anchored : m.span.anchoredB = true
  block : ∀ d, m = .method d → ∀ b ∈ d.body, b.Nested d.span
  value : ∀ f, m = .function f → ∀ e ∈ f.body, e.Nested f.span

/-- Every anchor lies in its range, and every range in that of the node around it. -/
structure Module.WellSpanned (m : Module) : Prop where
  anchored : ∀ d ∈ m.decls, d.span.anchoredB = true
  members : ∀ d ∈ m.decls, ∀ x ∈ d.members, x.Nested d.span

/-- The target may lie in the place. -/
def Place.Holds (target : Location) : Place → Prop
  | .members list => ∃ m ∈ list, target.mayLieIn m.span = true
  | .stmts list => ∃ s ∈ list, target.mayLieIn s.span = true
  | .element s => target.mayLieIn s.span = true
  | .expr e => target.mayLieIn e.span = true

section

variable {target : Location} {p : Place} {outer : Span}

/-- What may lie in a span may lie in every span around it. -/
theorem Location.mayLieIn_of_encloses {inner : Span} (h : outer.encloses inner = true)
    (may : target.mayLieIn inner = true) : target.mayLieIn outer = true := by
  obtain ⟨first, last⟩ := Span.encloses_iff.1 h
  cases target with
  | anchor pos =>
    simp only [mayLieIn, Span.contains, Bool.and_eq_true, decide_eq_true_eq] at may ⊢
    exact ⟨UInt32.le_trans first may.1, UInt32.le_trans may.2 last⟩
  | range a b =>
    simp only [mayLieIn, Bool.and_eq_true, decide_eq_true_eq] at may ⊢
    exact ⟨UInt32.le_trans first may.1, UInt32.le_trans may.2 last⟩

theorem Expr.Nested.encloses {e : Expr} (h : e.Nested outer) : outer.encloses e.span = true := by
  cases h with
  | intro inside _ _ => exact inside

theorem Stmt.Nested.encloses {s : Stmt} (h : s.Nested outer) : outer.encloses s.span = true := by
  cases h with
  | intro inside _ _ _ _ _ => exact inside

/-- What an expression holds, a search toward it finds there. -/
theorem Expr.mem_places_toward {e : Expr} (h : e.Nested outer) (hp : p ∈ e.places .executable)
    (holds : p.Holds target) :
    target.mayLieIn e.span = true ∧ p ∈ e.places (.toward target) := by
  induction h with
  | @intro outer e inside anchored parts ih =>
    obtain ⟨kind, span, ty⟩ := e
    suffices target.mayLieIn span = true ∧ (p = .expr ⟨kind, span, ty⟩ ∨
        p ∈ kind.places (.toward target)) by simpa [Expr.places, this.1] using this
    simp only [Expr.places, Coverage.executable, if_true, List.mem_cons] at hp
    rcases hp with rfl | hp
    · exact ⟨holds, .inl rfl⟩
    · by_cases old : ∃ x, kind = .old x
      · obtain ⟨x, rfl⟩ := old
        simp [ExprKind.places] at hp
      · have other := fun x hx => old ⟨x, hx⟩
        rw [ExprKind.places_eq other, Expr.mem_placesList] at hp ⊢
        obtain ⟨c, hc, hp⟩ := hp
        obtain ⟨may, found⟩ := ih c hc hp
        exact ⟨Location.mayLieIn_of_encloses (parts c hc).encloses may, .inr ⟨c, hc, found⟩⟩

/-- A search walks the expressions of a statement that a scan walks. -/
theorem StmtKind.exprs_toward (kind : StmtKind) :
    kind.exprs (.toward target) = kind.exprs .executable := by
  cases kind <;> rfl

/-- What is walked in executable code is walked when everything is. -/
theorem StmtKind.mem_exprs_everything {kind : StmtKind} {e : Expr} (h : e ∈ kind.exprs .executable) :
    e ∈ kind.exprs .everything := by
  cases kind with
  | varDecl d =>
    obtain ⟨locals, init⟩ := d
    cases init <;> exact h
  | update u =>
    simp only [exprs, List.mem_append, List.mem_filter] at h ⊢
    exact h.imp_left fun h => ⟨h.1, rfl⟩
  | whileLoop guard invariants decreases body => simp_all [exprs, Coverage.executable]
  | forLoop index start stop ascending invariants body =>
    have direct : e = start ∨ e ∈ stop.toList := by simpa [exprs, Coverage.executable] using h
    simp only [exprs, List.mem_cons, List.mem_append]
    exact direct.imp_right .inl
  | _ => exact h

/-- What a list holds, a search toward it finds there. -/
theorem Stmt.mem_heldPlaces_toward {b : Span × List Stmt} (nested : ∀ s ∈ b.2, s.Nested b.1)
    (ih : ∀ s ∈ b.2, p ∈ s.places .executable →
      target.mayLieIn s.span = true ∧ p ∈ s.places (.toward target))
    (hp : p ∈ Stmt.heldPlaces .executable b) (holds : p.Holds target) :
    target.mayLieIn b.1 = true ∧ p ∈ Stmt.heldPlaces (.toward target) b := by
  suffices target.mayLieIn b.1 = true ∧ (p = .stmts b.2 ∨
      p ∈ Stmt.placesList (.toward target) b.2) by simpa [Stmt.heldPlaces, this.1] using this
  simp only [Stmt.heldPlaces, Coverage.executable, if_true, List.mem_cons] at hp
  rcases hp with rfl | hp
  · obtain ⟨s, hs, may⟩ := holds
    exact ⟨Location.mayLieIn_of_encloses (nested s hs).encloses may, .inl rfl⟩
  · obtain ⟨s, hs, ⟨admitted, -⟩, hp⟩ := Stmt.mem_placesList.1 hp
    have found : target.mayLieIn s.span = true ∧
        (p = .element s ∨ p ∈ s.places (.toward target)) := by
      rcases hp with rfl | hp
      · exact ⟨holds, .inl rfl⟩
      · exact (ih s hs hp).imp_right .inr
    refine ⟨Location.mayLieIn_of_encloses (nested s hs).encloses found.1, .inr ?_⟩
    exact Stmt.mem_placesList.2 ⟨s, hs, ⟨admitted, found.1⟩, found.2⟩

/-- What a statement holds, a search toward it finds there. -/
theorem Stmt.mem_places_toward {s : Stmt} (h : s.Nested outer) (hp : p ∈ s.places .executable)
    (holds : p.Holds target) :
    target.mayLieIn s.span = true ∧ p ∈ s.places (.toward target) := by
  induction h with
  | @intro outer s inside anchored exprs held lists branch ihLists ihBranch =>
    obtain ⟨⟨admitted, -⟩, hp⟩ := Stmt.mem_places.1 hp
    suffices found : target.mayLieIn s.span = true ∧ p ∈ s.kind.places (.toward target) from
      ⟨found.1, Stmt.mem_places.2 ⟨⟨admitted, found.1⟩, found.2⟩⟩
    rw [Stmt.mem_inside, StmtKind.exprs_toward]
    rcases Stmt.mem_inside.1 hp with ⟨e, he, hp⟩ | ⟨b, hb, hp⟩ | ⟨t, ht, hp⟩
    · have nested := exprs e (StmtKind.mem_exprs_everything he)
      obtain ⟨may, found⟩ := Expr.mem_places_toward nested hp holds
      exact ⟨Location.mayLieIn_of_encloses nested.encloses may, .inl ⟨e, he, found⟩⟩
    · obtain ⟨may, found⟩ := Stmt.mem_heldPlaces_toward (lists b hb)
        (fun s hs hp => ihLists b hb s hs hp) hp holds
      exact ⟨Location.mayLieIn_of_encloses (held b hb).1 may, .inr (.inl ⟨b, hb, found⟩)⟩
    · obtain ⟨may, found⟩ := ihBranch t ht hp
      exact ⟨Location.mayLieIn_of_encloses (branch t ht).encloses may, .inr (.inr ⟨t, ht, found⟩)⟩

/-- A place in a member lies inside it, where the member is walked. -/
theorem Member.mem_places {w : Coverage} {m : Member} :
    p ∈ m.places w ↔ (w.admits m.context = true ∧ w.worth m.span = true) ∧ p ∈ m.inside w := by
  simp [Member.places]

/-- What a member holds, a search toward it finds there. -/
theorem Member.mem_places_toward {m : Member} (h : m.Nested outer)
    (hp : p ∈ m.places .executable) (holds : p.Holds target) :
    target.mayLieIn m.span = true ∧ p ∈ m.places (.toward target) := by
  obtain ⟨⟨admitted, -⟩, hp⟩ := Member.mem_places.1 hp
  suffices found : target.mayLieIn m.span = true ∧ p ∈ m.inside (.toward target) from
    ⟨found.1, Member.mem_places.2 ⟨⟨admitted, found.1⟩, found.2⟩⟩
  cases m with
  | field f => cases hp
  | method d =>
    rcases List.mem_append.1 hp with hp | hp
    · cases hp
    · obtain ⟨name, params, outs, contract, body, span, ghost, isStatic⟩ := d
      cases body with
      | none => cases hp
      | some b =>
        have nested := h.block _ rfl b rfl
        change p ∈ b.places .executable at hp
        rw [Block.places_eq] at hp
        obtain ⟨may, found⟩ := Stmt.mem_heldPlaces_toward nested.stmts
          (fun s hs hp => Stmt.mem_places_toward (nested.stmts s hs) hp holds) hp holds
        rw [← Block.places_eq] at found
        exact ⟨Location.mayLieIn_of_encloses nested.inside may, List.mem_append_right _ found⟩
  | function f =>
    rcases List.mem_append.1 hp with hp | hp
    · cases hp
    · obtain ⟨name, params, result, contract, body, span, ghost, isStatic⟩ := f
      cases body with
      | none => cases hp
      | some e =>
        have nested := h.value _ rfl e rfl
        obtain ⟨may, found⟩ := Expr.mem_places_toward nested hp holds
        exact ⟨Location.mayLieIn_of_encloses nested.encloses may, List.mem_append_right _ found⟩

/-- A place in some members lies in one of them. -/
theorem Member.mem_placesList {w : Coverage} {ms : List Member} :
    p ∈ Member.placesList w ms ↔ ∃ m ∈ ms, p ∈ m.places w := by
  induction ms with
  | nil => simp [Member.placesList]
  | cons m ms ih => simp [Member.placesList, ih]

/-- A place in some declarations lies in one of them, under its name. -/
theorem Decl.mem_placesList {w : Coverage} {i : String × Place} {ds : List Decl} :
    i ∈ Decl.placesList w ds ↔ ∃ d ∈ ds, d.name = i.1 ∧ i.2 ∈ d.places w := by
  obtain ⟨owner, p⟩ := i
  induction ds with
  | nil => simp [Decl.placesList]
  | cons d ds ih => simp [Decl.placesList, ih, and_comm]

/-- A search comes to every place of the executable code that its target may lie in. -/
theorem Module.mem_places_toward {m : Module} (h : m.WellSpanned) {i : String × Place}
    (hi : i ∈ m.places .executable) (holds : i.2.Holds target) :
    i ∈ m.places (.toward target) := by
  obtain ⟨d, hd, owner, hp⟩ := Decl.mem_placesList.1 hi
  refine Decl.mem_placesList.2 ⟨d, hd, owner, ?_⟩
  have nested := h.members d hd
  suffices found : target.mayLieIn d.span = true ∧ (i.2 = .members d.members ∨
      i.2 ∈ Member.placesList (.toward target) d.members) by
    simpa [Decl.places, found.1] using found.2
  simp only [Decl.places, Coverage.executable, if_true, List.mem_cons] at hp
  rcases hp with same | hp
  · rw [same] at holds
    obtain ⟨x, hx, may⟩ := holds
    exact ⟨Location.mayLieIn_of_encloses (nested x hx).inside may, .inl same⟩
  · obtain ⟨x, hx, hp⟩ := Member.mem_placesList.1 hp
    obtain ⟨may, found⟩ := Member.mem_places_toward (nested x hx) hp holds
    exact ⟨Location.mayLieIn_of_encloses (nested x hx).inside may,
      .inr (Member.mem_placesList.2 ⟨x, hx, found⟩)⟩

/-- The nodes that make up the place have certain properties. -/
def Place.All (M : Member → Prop) (S : Stmt → Prop) (E : Expr → Prop) : Place → Prop
  | .members list => ∀ x ∈ list, M x
  | .stmts list => ∀ s ∈ list, S s
  | .element s => S s
  | .expr e => E e

/-- Properties of members, statements and expressions that are handed down to the parts of which
the executable code consists. -/
structure Hereditary (M : Member → Prop) (S : Stmt → Prop) (E : Expr → Prop) : Prop where
  block : ∀ d, M (.method d) → ∀ b ∈ d.body, ∀ s ∈ b.stmts, S s
  value : ∀ f, M (.function f) → ∀ e ∈ f.body, E e
  exprs : ∀ s, S s → ∀ e ∈ s.kind.exprs .executable, E e
  lists : ∀ s, S s → ∀ b ∈ s.kind.lists, ∀ t ∈ b.2, S t
  branch : ∀ s, S s → ∀ t ∈ s.elseBranch?, S t
  parts : ∀ e, E e → ∀ c ∈ e.kind.parts, E c

namespace Hereditary

variable {M : Member → Prop} {S : Stmt → Prop} {E : Expr → Prop}

/-- What is handed down from an expression holds at all its places. -/
theorem ofExpr (h : Hereditary M S E) {e : Expr} (he : E e) (hp : p ∈ e.places .executable) :
    p.All M S E := by
  induction e using Expr.induct with
  | step e ih =>
    have parts := h.parts e he
    obtain ⟨kind, span, ty⟩ := e
    rw [Expr.places_mk, if_pos (Coverage.executable_worth span)] at hp
    rcases List.mem_cons.1 hp with rfl | hp
    · exact he
    · by_cases old : ∃ x, kind = .old x
      · obtain ⟨x, rfl⟩ := old
        cases hp
      · rw [ExprKind.places_eq fun x hx => old ⟨x, hx⟩, Expr.mem_placesList] at hp
        obtain ⟨c, hc, hp⟩ := hp
        exact ih c hc (parts c hc) hp

/-- What holds of the statements of a list and is handed down holds at all places of the list. -/
theorem ofHeld {b : Span × List Stmt} (hb : ∀ s ∈ b.2, S s)
    (ih : ∀ s ∈ b.2, p ∈ s.places .executable → p.All M S E)
    (hp : p ∈ Stmt.heldPlaces .executable b) : p.All M S E := by
  rw [Stmt.heldPlaces, if_pos (Coverage.executable_worth b.1)] at hp
  rcases List.mem_cons.1 hp with rfl | hp
  · exact hb
  · obtain ⟨s, hs, -, rfl | hp⟩ := Stmt.mem_placesList.1 hp
    · exact hb s hs
    · exact ih s hs hp

/-- What is handed down from a statement holds at all its places. -/
theorem ofStmt (h : Hereditary M S E) {s : Stmt} (hs : S s) (hp : p ∈ s.places .executable) :
    p.All M S E := by
  induction s using Stmt.induct with
  | step s ihLists ihBranch =>
    obtain ⟨-, hp⟩ := Stmt.mem_places.1 hp
    rcases Stmt.mem_inside.1 hp with ⟨e, he, hp⟩ | ⟨b, hb, hp⟩ | ⟨t, ht, hp⟩
    · exact h.ofExpr (h.exprs s hs e he) hp
    · have held := h.lists s hs b hb
      exact ofHeld held (fun t ht hp => ihLists b hb t ht (held t ht) hp) hp
    · exact ihBranch t ht (h.branch s hs t ht) hp

/-- What is handed down from a member holds at all its places. -/
theorem ofMember (h : Hereditary M S E) {x : Member} (hx : M x)
    (hp : p ∈ x.places .executable) : p.All M S E := by
  obtain ⟨-, hp⟩ := Member.mem_places.1 hp
  cases x with
  | field f => cases hp
  | method d =>
    rcases List.mem_append.1 hp with hp | hp
    · cases hp
    · cases body : d.body with
      | none =>
        rw [body] at hp
        cases hp
      | some b =>
        have held := h.block d hx b body
        rw [body, Block.placesOpt, Block.places_eq] at hp
        exact ofHeld held (fun s hs hp => h.ofStmt (held s hs) hp) hp
  | function f =>
    rcases List.mem_append.1 hp with hp | hp
    · cases hp
    · obtain ⟨e, he, hp⟩ := Expr.mem_placesOpt.1 hp
      exact h.ofExpr (h.value f hx e (by simpa using he)) hp

/-- What is handed down from the members of a module holds at all places of the executable
code. -/
theorem place (h : Hereditary M S E) {m : Module} (hm : ∀ d ∈ m.decls, ∀ x ∈ d.members, M x)
    {i : String × Place} (hi : i ∈ m.places .executable) : i.2.All M S E := by
  obtain ⟨d, hd, -, hp⟩ := Decl.mem_placesList.1 hi
  rw [Decl.places, if_pos (Coverage.executable_worth d.span)] at hp
  rcases List.mem_cons.1 hp with same | hp
  · rw [same]
    exact hm d hd
  · obtain ⟨x, hx, hp⟩ := Member.mem_placesList.1 hp
    exact h.ofMember (hm d hd x hx) hp

end Hereditary

/-- To lie inside what is around is handed down. -/
theorem hereditary_nested : Hereditary (fun x => ∃ outer, x.Nested outer)
    (fun s => ∃ outer, s.Nested outer) (fun e => ∃ outer, e.Nested outer) where
  block := fun d ⟨_, h⟩ b hb s hs => ⟨b.span, (h.block d rfl b hb).stmts s hs⟩
  value := fun f ⟨_, h⟩ e he => ⟨f.span, h.value f rfl e he⟩
  exprs := fun s ⟨_, .intro _ _ exprs _ _ _⟩ e he => ⟨s.span, exprs e (StmtKind.mem_exprs_everything he)⟩
  lists := fun _ ⟨_, .intro _ _ _ _ lists _⟩ b hb t ht => ⟨b.1, lists b hb t ht⟩
  branch := fun s ⟨_, .intro _ _ _ _ _ branch⟩ t ht => ⟨s.span, branch t ht⟩
  parts := fun e ⟨_, .intro _ _ parts⟩ c hc => ⟨e.span, parts c hc⟩

/-- In a contract there are only places of expressions. -/
theorem Contract.mem_places_expr {w : Coverage} {c : Contract} (h : p ∈ c.places w) :
    ∃ x, p = .expr x := by
  simp only [Contract.places, List.mem_append, Expr.mem_clausePlaces] at h
  rcases h with ((⟨e, -, h⟩ | ⟨e, -, h⟩) | ⟨e, -, h⟩) | ⟨e, -, h⟩ <;> exact Expr.mem_places_expr h

/-- An element in a member stands in a list that is offered there. -/
theorem Member.exists_list {w : Coverage} {m : Member} {t : Stmt}
    (h : .element t ∈ m.inside w) : ∃ list, .stmts list ∈ m.inside w ∧ t ∈ list := by
  cases m with
  | field f => cases h
  | method d =>
    obtain ⟨name, params, outs, contract, body, span, ghost, isStatic⟩ := d
    simp only [Member.inside, List.mem_append] at h ⊢
    rcases h with h | h
    · obtain ⟨x, hx⟩ := Contract.mem_places_expr h
      cases hx
    · cases body with
      | none => cases h
      | some b =>
        simp only [Block.placesOpt, Block.places_eq] at h ⊢
        obtain ⟨list, mem, ht⟩ := Stmt.exists_list_held (fun s _ => Stmt.exists_list) h
        exact ⟨list, .inr mem, ht⟩
  | function f =>
    simp only [Member.inside, List.mem_append, Expr.mem_placesOpt] at h
    rcases h with h | ⟨e, -, h⟩
    · obtain ⟨x, hx⟩ := Contract.mem_places_expr h
      cases hx
    · obtain ⟨x, hx⟩ := Expr.mem_places_expr h
      cases hx

/-- Every element of a statement list comes after its list. -/
theorem Module.exists_list {w : Coverage} {m : Module} {owner : String} {t : Stmt}
    (h : (owner, .element t) ∈ m.places w) :
    ∃ list, (owner, .stmts list) ∈ m.places w ∧ t ∈ list := by
  obtain ⟨d, hd, rfl, h⟩ := Decl.mem_placesList.1 h
  suffices found : ∃ list, .stmts list ∈ d.places w ∧ t ∈ list by
    obtain ⟨list, mem, ht⟩ := found
    exact ⟨list, Decl.mem_placesList.2 ⟨d, hd, rfl, mem⟩, ht⟩
  unfold Decl.places at h ⊢
  split at h
  · rename_i worth
    simp only [if_pos worth, List.mem_cons, reduceCtorEq, false_or] at h ⊢
    obtain ⟨x, hx, h⟩ := Member.mem_placesList.1 h
    obtain ⟨gate, h⟩ := Member.mem_places.1 h
    obtain ⟨list, mem, ht⟩ := Member.exists_list h
    exact ⟨list, Member.mem_placesList.2 ⟨x, hx, Member.mem_places.2 ⟨gate, mem⟩⟩, ht⟩
  · cases h

end

end Mutation
