import Mathlib.Data.List.Forall2
import Mutation.Proofs.FirstSlot
import Mutation.Proofs.Proposed

/-!
# Targets of assignments

`updates` lists the assignments of a tree at every depth, in source order. An operator on
expressions changes no statement, so the assignments before and after a request stand in the same
order, and `Update.KeepsTargets` compares them one by one: a target is as before, or an index
expression in which only the subscript has changed.

That holds as long as the request does not point at an indexed target itself or into the sequence
it indexes (`Module.targets_afterward`). A search enters an index expression as a whole, so a
request that points there is carried out there (`Module.indexed_mutate_sequence`).
-/

namespace Mutation

mutual
/-- The assignments in a statement, in source order. -/
def Stmt.updates : Stmt → List Update
  | ⟨kind, _, _⟩ => kind.updates

def StmtKind.updates : StmtKind → List Update
  | .update u => [u]
  | .ifElse _ thenBranch elseBranch => thenBranch.updates ++ Stmt.updatesOpt elseBranch
  | .whileLoop _ _ _ body => body.updates
  | .forLoop _ _ _ _ _ body => body.updates
  | .block b => b.updates
  | .matchOn _ cases => MatchCase.updatesList cases
  | _ => []

def Block.updates : Block → List Update
  | ⟨list, _⟩ => Stmt.updatesList list

def Stmt.updatesList : List Stmt → List Update
  | [] => []
  | s :: list => s.updates ++ Stmt.updatesList list

def Stmt.updatesOpt : Option Stmt → List Update
  | none => []
  | some s => s.updates

def MatchCase.updatesList : List MatchCase → List Update
  | [] => []
  | ⟨_, body, _⟩ :: cases => Stmt.updatesList body ++ MatchCase.updatesList cases
end

/-- The assignments in a member. -/
def Member.updates : Member → List Update
  | .method m => m.body.toList.flatMap Block.updates
  | .field _ | .function _ => []

/-- The assignments in a module, in source order. -/
def Module.updates (m : Module) : List Update :=
  m.decls.flatMap fun d => d.members.flatMap Member.updates

/-- The assignments in a piece of a tree; an expression has none. -/
def Piece.updates : Piece → List Update
  | .expr _ => []
  | .stmt s => s.updates
  | .stmts list => Stmt.updatesList list
  | .member m => m.updates
  | .members list => list.flatMap Member.updates
  | .decl d => d.members.flatMap Member.updates
  | .module m => m.updates

/-- The expression is an index expression in which only the subscript has changed: span, type and
sequence are as before. -/
def Expr.Subscripted (t t' : Expr) : Prop :=
  ∃ s i i' span ty, t = ⟨.index s i, span, ty⟩ ∧ t' = ⟨.index s i', span, ty⟩

/-- The assignment has as many targets as before, each of them as it was or with another
subscript. -/
def Update.KeepsTargets (u u' : Update) : Prop :=
  List.Forall₂ (fun t t' => t = t' ∨ t.Subscripted t') u.targets u'.targets

theorem Update.KeepsTargets.of_same {u u' : Update} (h : u.targets = u'.targets) :
    u.KeepsTargets u' := by
  rw [KeepsTargets, h]
  exact List.forall₂_same.2 fun _ _ => .inl rfl

/-- Assignments that nothing has happened to keep their targets. -/
theorem keepsTargets_same (us : List Update) : List.Forall₂ Update.KeepsTargets us us :=
  List.forall₂_same.2 fun _ _ => .of_same rfl

/-- One element for another in a list, the assignments of which keep their targets. -/
theorem keepsTargets_flatMap {α : Type} {f : α → List Update} {pre post : List α} {a a' : α}
    (h : List.Forall₂ Update.KeepsTargets (f a) (f a')) :
    List.Forall₂ Update.KeepsTargets ((pre ++ a :: post).flatMap f)
      ((pre ++ a' :: post).flatMap f) := by
  simp only [List.flatMap_append, List.flatMap_cons]
  exact List.rel_append (keepsTargets_same _) (List.rel_append h (keepsTargets_same _))

theorem Stmt.updatesList_eq (list : List Stmt) :
    Stmt.updatesList list = list.flatMap Stmt.updates := by
  induction list with
  | nil => rfl
  | cons s list ih => rw [Stmt.updatesList, ih, List.flatMap_cons]

theorem MatchCase.updatesList_eq (cases : List MatchCase) :
    MatchCase.updatesList cases = cases.flatMap fun c => Stmt.updatesList c.body := by
  induction cases with
  | nil => rfl
  | cons c cases ih =>
    obtain ⟨pattern, body, span⟩ := c
    rw [MatchCase.updatesList, ih, List.flatMap_cons]

/-- The place of an exchange in an expression is one of its places. -/
theorem Exchanged.mem_places {p : Place} {new : p.Content} {spans : List Span} {x x' : Piece}
    (h : Exchanged p new spans x x') {e e' : Expr} (hx : x = .expr e) (hx' : x' = .expr e') :
    p ∈ e.places .executable := by
  induction h generalizing e e' with
  | members | stmts | element => cases hx
  | @expr c =>
    cases hx
    obtain ⟨kind, span, ty⟩ := c
    simp [Expr.places_mk]
  | inside hc _ ih =>
    cases hc with
    | part plain split =>
      cases hx
      have inner := ih rfl rfl
      simp only [Expr.places_mk, Coverage.executable_worth, if_true, ExprKind.places_eq plain]
      exact List.mem_cons_of_mem _ (Expr.mem_placesList.2 ⟨_, by simp [split], inner⟩)
    | _ => cases hx

/-- An exchange in an index expression that is neither of the expression nor in its sequence is
made in its index. -/
theorem Exchanged.subscripted {p : Place} {new : p.Content} {spans : List Span} {t t' : Expr}
    (h : Exchanged p new spans (.expr t) (.expr t')) (index : t.isIndex)
    (outside : ∀ e ∈ t.aroundIndex, p ≠ .expr e) : t.Subscripted t' := by
  obtain ⟨kind, span, ty⟩ := t
  cases kind with
  | index s i =>
    generalize hx : Piece.expr ⟨.index s i, span, ty⟩ = x at h
    generalize hx' : Piece.expr t' = x' at h
    cases h with
    | members | stmts | element => cases hx
    | expr =>
      cases hx
      exact absurd rfl (outside _ List.mem_cons_self)
    | inside hc inner =>
      cases hc with
      | @part kind span ty pre c c' post plain split =>
        cases hx
        cases hx'
        match pre, split with
        | [], split =>
          cases split
          have within := inner.mem_places rfl rfl
          obtain ⟨e, rfl⟩ := Expr.mem_places_expr within
          exact absurd rfl (outside e (List.mem_cons_of_mem _ (Expr.mem_nodes within)))
        | [_], split =>
          cases split
          exact ⟨_, _, _, _, _, rfl, rfl⟩
        | _ :: _ :: pre, split =>
          have len := congrArg List.length split
          simp [ExprKind.parts] at len
      | _ => cases hx
  | _ => simp [Expr.isIndex] at index

/-- A part is exchanged, and the assignments of the part keep their targets; when the part is an
expression that is a target, it keeps its span, type and sequence. Then the assignments around it
keep their targets too. -/
theorem Carries.keepsTargets {spans : List Span} {c c' x x' : Piece} (hc : Carries spans c c' x x')
    (target : ∀ e e', c = .expr e → c' = .expr e' → e.isIndex →
      (∃ u ∈ x.updates, e ∈ u.targets) → e.Subscripted e')
    (inside : List.Forall₂ Update.KeepsTargets c.updates c'.updates) :
    List.Forall₂ Update.KeepsTargets x.updates x'.updates := by
  cases hc with
  | part _ _ | init | expr | ret | ifGuard | whileGuard | forStart | forStop | assert | assume
  | print | functionBody _ | matchSource => exact keepsTargets_same _
  | value => exact .cons (.of_same rfl) .nil
  | @target pre e e' post values resolved span ghost index =>
    have changed := target e e' rfl rfl index
      ⟨_, List.mem_singleton.2 rfl, List.mem_append_right _ List.mem_cons_self⟩
    refine .cons ?_ .nil
    have same : ∀ l : List Expr, List.Forall₂ (fun t t' => t = t' ∨ t.Subscripted t') l l :=
      fun l => List.forall₂_same.2 fun _ _ => .inl rfl
    exact List.rel_append (same pre) (.cons (.inr changed) (same post))
  | thenBranch => exact List.rel_append inside (keepsTargets_same _)
  | @elseBranch guard body s s' =>
    exact List.rel_append (keepsTargets_same body.updates) inside
  | whileBody | forBody | block | «class» | datatype => exact inside
  | caseBody =>
    simp only [Piece.updates, Stmt.updates, StmtKind.updates, MatchCase.updatesList_eq]
    exact keepsTargets_flatMap inside
  | element =>
    simp only [Piece.updates, Stmt.updatesList_eq]
    exact keepsTargets_flatMap inside
  | methodBody h => simpa [Piece.updates, Member.updates, Block.updates, h] using inside
  | member => exact keepsTargets_flatMap inside
  | decl => exact keepsTargets_flatMap inside

/-- The assignments of what a piece holds are among its own. -/
theorem Carries.updates_subset {spans : List Span} {c c' x x' : Piece}
    (hc : Carries spans c c' x x') : c.updates ⊆ x.updates := by
  cases hc with
  | part _ _ | target _ | value | init | expr | ret | ifGuard | whileGuard | forStart | forStop
  | assert | assume | print | functionBody _ | matchSource => exact List.nil_subset _
  | thenBranch => exact List.subset_append_left _ _
  | elseBranch => exact List.subset_append_right _ _
  | whileBody | forBody | block | «class» | datatype => exact List.Subset.refl _
  | caseBody =>
    intro u hu
    simp only [Piece.updates, Stmt.updates, StmtKind.updates, MatchCase.updatesList_eq,
      List.mem_flatMap]
    exact ⟨_, List.mem_append_right _ List.mem_cons_self, hu⟩
  | element =>
    intro u hu
    simp only [Piece.updates, Stmt.updatesList_eq, List.mem_flatMap]
    exact ⟨_, List.mem_append_right _ List.mem_cons_self, hu⟩
  | methodBody h =>
    intro u hu
    simpa [Piece.updates, Member.updates, Block.updates, h] using hu
  | member =>
    intro u hu
    exact List.mem_flatMap.2 ⟨_, List.mem_append_right _ List.mem_cons_self, hu⟩
  | decl =>
    intro u hu
    exact List.mem_flatMap.2 ⟨_, List.mem_append_right _ List.mem_cons_self, hu⟩

/-- An operator changes an expression only at the location of the request. -/
theorem Operator.target_of_onExpr {op : Operator} {site : Site} {e e' : Expr}
    (done : op.onExpr site e = .done e') : site.isTarget e.span = true := by
  unfold onExpr at done
  split at done
  · assumption
  · cases done

/-- An exchange of an expression, at whatever depth it is made, keeps the targets of assignments
when it is made outside of them or in the subscript of one. -/
theorem Exchanged.keepsTargets {p : Place} {new : p.Content} {spans : List Span} {x x' : Piece}
    (h : Exchanged p new spans x x') (level : p.level = .expr)
    (outside : ∀ u ∈ x.updates, ∀ t ∈ u.targets, t.isIndex → ∀ e ∈ t.aroundIndex, p ≠ .expr e) :
    List.Forall₂ Update.KeepsTargets x.updates x'.updates := by
  induction h with
  | members | stmts | element => cases level
  | expr => exact .nil
  | inside hc inner ih =>
    refine hc.keepsTargets ?_ (ih level fun u hu => outside u (hc.updates_subset hu))
    rintro e e' rfl rfl index ⟨u, hu, he⟩
    exact inner.subscripted index (outside u hu e he index)

/-- Assignment targets are changed only inside a subscript: a request for an operator on
expressions that points neither at an indexed target itself nor into the sequence of one leaves
every assignment where it is, with as many targets, each as it was or with another subscript. -/
theorem Module.targets_afterward {m : Module} {r : Request} (level : r.kind.level = .expr)
    (outside : ∀ u ∈ m.updates, ∀ t ∈ u.targets, t.isIndex → ∀ e ∈ t.aroundIndex,
      r.location.matchesB e.span = false) (limit : Nat) :
    List.Forall₂ Update.KeepsTargets m.updates (m.afterward r limit).updates := by
  rcases m.afterward_cases r limit with
    same | ⟨op, owner, p, spans, made, new, span, done, exchanged⟩
  · rw [same]
    exact keepsTargets_same _
  · have exprs : p.level = .expr := by
      rw [Operator.level_of_done done, Operator.kind_of_make made, level]
    refine exchanged.keepsTargets exprs fun u hu t ht index e he => ?_
    rintro rfl
    have target : r.location.matchesB e.span = true := by
      obtain ⟨e', answered, -⟩ := Outcome.answer_eq_done_iff.1 done
      exact Operator.target_of_onExpr answered
    rw [outside u hu t ht index e he] at target
    cases target

/-- The assignment `a[i] := n`. -/
def Update.indexed : Update :=
  .make [⟨.index ⟨.name "a", .token 4, .array .int 1⟩ ⟨.name "i", .token 6, .int⟩, ⟨4, 7, 4⟩, .int⟩]
    [⟨.name "n", .token 10, .int⟩]

/-- A method that assigns to an element of an array. -/
def Module.indexed : Module :=
  ⟨"m", [.class
    { name := "C"
      span := .range 0 20
      members := [.method
        { name := "f"
          params := []
          span := .range 1 19
          body := some ⟨[⟨.update .indexed, .range 4 11, false⟩], .range 3 18⟩ }] }]⟩

/-- Another name in the subscript of the target. -/
theorem Module.indexed_mutate_subscript :
    (∀ u ∈ indexed.updates, ∀ t ∈ u.targets, t.isIndex → ∀ e ∈ t.aroundIndex,
      (Location.range 6 6).matchesB e.span = false) ∧
    ((indexed.mutate ⟨.range 6 6, .variableReplacement, some "j"⟩ 64).map fun x =>
      x.report.isApplied) = .ok true ∧
    List.Forall₂ Update.KeepsTargets indexed.updates
      (indexed.afterward ⟨.range 6 6, .variableReplacement, some "j"⟩ 64).updates := by
  have outside : ∀ u ∈ indexed.updates, ∀ t ∈ u.targets, t.isIndex → ∀ e ∈ t.aroundIndex,
      (Location.range 6 6).matchesB e.span = false := by decide
  exact ⟨outside, by rfl, Module.targets_afterward (by rfl) outside 64⟩

/-- A request that points at the indexed sequence is carried out there: the target is `b[i]`
afterwards. -/
theorem Module.indexed_mutate_sequence :
    ((indexed.mutate ⟨.range 4 4, .variableReplacement, some "b"⟩ 64).map fun x =>
      x.report.isApplied) = .ok true ∧
    ¬List.Forall₂ Update.KeepsTargets indexed.updates
      (indexed.afterward ⟨.range 4 4, .variableReplacement, some "b"⟩ 64).updates := by
  refine ⟨by rfl, fun kept => ?_⟩
  have after : (indexed.afterward ⟨.range 4 4, .variableReplacement, some "b"⟩ 64).updates =
      [.make [⟨.index ⟨.name "b", .token 4, .array .int 1⟩ ⟨.name "i", .token 6, .int⟩, ⟨4, 7, 4⟩,
        .int⟩] [⟨.name "n", .token 10, .int⟩]] := by rfl
  rw [after] at kept
  obtain _ | ⟨update, -⟩ := kept
  obtain _ | ⟨target, -⟩ := update
  rcases target with same | ⟨s, i, i', span, ty, before, behind⟩
  · simp at same
  · simp only [Expr.mk.injEq, ExprKind.index.injEq] at before behind
    have same := before.1.1.trans behind.1.1.symm
    simp at same

end Mutation
