import Mutation.Proofs.NameProposals
import Mutation.Proofs.Swaps

/-!
# Insertions that are deleted again

A negation that is put around a name, and a `this` that is put before one, have the span of the
name. A deletion at the same target takes them away again, unless it stops before: it does at a
negation, or at a field of `this`, that was there already. Where the module has none at the target
(`Place.isAt`), the deletion passes over whatever the insertion has passed over, and takes back what
the insertion has done (`Module.mutate_inserted`). That no expression of the module is in the way
is asked together with the copies being in step, as one invariant (`Invariant.keeping`).
-/

namespace Mutation

variable {P : Expr → Prop} {I : Invariant}

/-! ### An invariant, and a property of every expression -/

/-- Every expression among the places has the property. -/
def Place.AllExprs (P : Expr → Prop) (ps : List Place) : Prop := ∀ e, .expr e ∈ ps → P e

namespace Place

theorem allExprs_append {ps qs : List Place} :
    AllExprs P (ps ++ qs) ↔ AllExprs P ps ∧ AllExprs P qs := by
  simp only [AllExprs, List.mem_append, or_imp, forall_and]

theorem AllExprs.mono {ps qs : List Place} (h : AllExprs P qs) (sub : ps ⊆ qs) : AllExprs P ps :=
  fun e he => h e (sub he)

theorem AllExprs.tail {p : Place} {ps : List Place} (h : AllExprs P (p :: ps)) : AllExprs P ps :=
  h.mono (List.subset_cons_self p ps)

/-- Every expression in one of the expressions has the property. -/
theorem AllExprs.of_mem {es : List Expr} (h : AllExprs P (Expr.placesList .everything es)) :
    ∀ e ∈ es, AllExprs P (e.places .everything) :=
  fun e he => h.mono fun _ hp => Expr.mem_placesList.2 ⟨e, he, hp⟩

end Place

open Place

/-- What the invariant asks, and the property of every expression in the tree. -/
def Invariant.keeping (I : Invariant) (P : Expr → Prop) : Invariant where
  expr e := I.expr e ∧ AllExprs P (e.places .everything)
  update u := I.update u ∧ AllExprs P (u.places .everything)
  decl d := I.decl d ∧ AllExprs P (d.places .everything)
  branches := I.branches

theorem Invariant.InStep.keeping (h : I.InStep) : (I.keeping P).InStep where
  parts := by
    rintro kind span ty ⟨he, all⟩ e hmem
    have inside : AllExprs P (kind.places .everything) := all.tail
    rw [ExprKind.places_everything] at inside
    exact ⟨h.parts he e hmem, inside.of_mem e hmem⟩
  chain hc := h.chain hc.1
  targets := by
    rintro u ⟨hu, all⟩ e hmem
    refine ⟨h.targets hu e hmem, (allExprs_append.1 all).1.mono fun _ hp => ?_⟩
    exact Expr.mem_targetPlaces.2 ⟨e, List.mem_filter.2 ⟨hmem, rfl⟩, hp⟩
  values := by
    rintro u ⟨hu, all⟩ e hmem
    exact ⟨h.values hu e hmem, (allExprs_append.1 all).2.of_mem e hmem⟩
  update hu := h.update hu.1
  initial := by
    rintro locals u ⟨hd, all⟩ e hmem
    exact ⟨h.initial hd e hmem, all.of_mem e hmem⟩
  decl hd := h.decl hd.1

theorem Expr.keeping_of_mem {es : List Expr} (h : ∀ e ∈ es, I.expr e)
    (all : AllExprs P (Expr.placesList .everything es)) : ∀ e ∈ es, (I.keeping P).expr e :=
  fun e he => ⟨h e he, all.of_mem e he⟩

theorem Expr.keeping_of_mem_opt {e : Option Expr} (h : ∀ x ∈ e, I.expr x)
    (all : AllExprs P (Expr.placesOpt .everything e)) : ∀ x ∈ e, (I.keeping P).expr x := by
  rintro x ⟨⟩
  exact ⟨h x rfl, all⟩

mutual
/-- A statement that meets an invariant, and whose expressions have a property, meets both. -/
theorem Stmt.Meets.keeping : (s : Stmt) → s.Meets I → AllExprs P (s.places .everything) →
    s.Meets (I.keeping P)
  | ⟨kind, _, _⟩, h, all => StmtKind.Meets.keeping kind h all

theorem StmtKind.Meets.keeping : (kind : StmtKind) → kind.Meets I →
    AllExprs P (kind.places .everything) → kind.Meets (I.keeping P)
  | .varDecl _, h, all | .update _, h, all | .expr _, h, all | .assert _, h, all
  | .assume _, h, all => ⟨h, all⟩
  | .ret _, h, all | .print _, h, all => Expr.keeping_of_mem h all
  | .ifElse guard thenBranch next, h, all => by
    simp only [StmtKind.places, allExprs_append] at all
    obtain ⟨⟨guardAll, thenAll⟩, nextAll⟩ := all
    exact ⟨Expr.keeping_of_mem_opt h.1 guardAll, Block.Meets.keeping thenBranch h.2.1 thenAll,
      Stmt.MeetsElse.keeping next h.2.2 nextAll⟩
  | .whileLoop guard invariants decreases body, h, all => by
    simp only [StmtKind.places, allExprs_append] at all
    obtain ⟨⟨⟨guardAll, invariantsAll⟩, decreasesAll⟩, bodyAll⟩ := all
    exact ⟨Expr.keeping_of_mem_opt h.1 guardAll, Expr.keeping_of_mem h.2.1 invariantsAll,
      Expr.keeping_of_mem h.2.2.1 decreasesAll, Block.Meets.keeping body h.2.2.2 bodyAll⟩
  | .forLoop _ start stop _ invariants body, h, all => by
    simp only [StmtKind.places, allExprs_append] at all
    obtain ⟨⟨⟨startAll, stopAll⟩, invariantsAll⟩, bodyAll⟩ := all
    exact ⟨⟨h.1, startAll⟩, Expr.keeping_of_mem_opt h.2.1 stopAll,
      Expr.keeping_of_mem h.2.2.1 invariantsAll, Block.Meets.keeping body h.2.2.2 bodyAll⟩
  | .breakLoop, _, _ | .continueLoop, _, _ => trivial
  | .block b, h, all => Block.Meets.keeping b h all
  | .matchOn source cases, h, all => by
    simp only [StmtKind.places, allExprs_append] at all
    exact ⟨⟨h.1, all.1⟩, MatchCase.MeetsList.keeping cases h.2 all.2⟩

theorem Block.Meets.keeping : (b : Block) → b.Meets I → AllExprs P (b.places .everything) →
    b.Meets (I.keeping P)
  | ⟨list, _⟩, h, all => Stmt.MeetsList.keeping list h all.tail

theorem Stmt.MeetsList.keeping : (list : List Stmt) → Stmt.MeetsList I list →
    AllExprs P (Stmt.placesList .everything list) → Stmt.MeetsList (I.keeping P) list
  | [], _, _ => trivial
  | s :: list, h, all => by
    simp only [Stmt.placesList, allExprs_append] at all
    exact ⟨Stmt.Meets.keeping s h.1 all.1.tail, Stmt.MeetsList.keeping list h.2 all.2⟩

theorem Stmt.MeetsElse.keeping : (s : Option Stmt) → Stmt.MeetsElse I s →
    AllExprs P (Stmt.placesOpt .everything s) → Stmt.MeetsElse (I.keeping P) s
  | none, _, _ => trivial
  | some s, h, all => ⟨h.1, Stmt.Meets.keeping s h.2 all⟩

theorem MatchCase.MeetsList.keeping : (cases : List MatchCase) → MatchCase.MeetsList I cases →
    AllExprs P (MatchCase.placesList .everything cases) → MatchCase.MeetsList (I.keeping P) cases
  | [], _, _ => trivial
  | ⟨_, body, _⟩ :: cases, h, all => by
    simp only [MatchCase.placesList, allExprs_append] at all
    exact ⟨Stmt.MeetsList.keeping body h.1 all.1.tail, MatchCase.MeetsList.keeping cases h.2 all.2⟩
end

theorem Contract.Meets.keeping {c : Contract} (h : c.Meets I)
    (all : AllExprs P (c.places .everything)) : c.Meets (I.keeping P) := by
  simp only [Contract.places, allExprs_append] at all
  obtain ⟨⟨⟨requires, ensures⟩, frame⟩, decreases⟩ := all
  intro clause hc
  have held : AllExprs P (Expr.clausePlaces .everything clause) := by
    simp only [Contract.clauses, List.mem_cons, List.not_mem_nil, or_false] at hc
    rcases hc with rfl | rfl | rfl | rfl <;> assumption
  exact Expr.keeping_of_mem (h clause hc) held

theorem Member.Meets.keeping {m : Member} (h : m.Meets I)
    (all : AllExprs P (m.places .everything)) : m.Meets (I.keeping P) := by
  cases m with
  | field f => trivial
  | method d =>
    obtain ⟨contract, body⟩ := allExprs_append.1 (show AllExprs P (_ ++ _) from all)
    refine ⟨h.1.keeping contract, fun b hb => Block.Meets.keeping b (h.2 b hb) ?_⟩
    rwa [hb] at body
  | function f =>
    obtain ⟨contract, body⟩ := allExprs_append.1 (show AllExprs P (_ ++ _) from all)
    exact ⟨h.1.keeping contract, Expr.keeping_of_mem_opt h.2 body⟩

theorem Module.Meets.keeping {m : Module} (h : m.Meets I)
    (all : ∀ owner e, (owner, .expr e) ∈ m.places .everything → P e) : m.Meets (I.keeping P) := by
  intro d hd x hx
  refine (h d hd x hx).keeping fun e he => all d.name e ?_
  have inside : .expr e ∈ d.places .everything :=
    List.mem_cons_of_mem _ (Member.mem_placesList.2 ⟨x, hx, he⟩)
  exact Decl.mem_placesList.2 ⟨d, hd, rfl, inside⟩

/-! ### What is in the way -/

/-- An expression of this sort stands here, and the location addresses it. -/
def Place.isAt (location : Location) (sort : Expr → Bool) : Place → Bool
  | .expr e => location.matchesB e.span && sort e
  | _ => false

/-- The expression is a negation, of a truth value or of a number. -/
def Expr.isNegation (e : Expr) : Bool :=
  match e.kind with
  | .unary .. => true
  | _ => false

/-- The expression reads a field of `this`. -/
def Expr.readsThis (e : Expr) : Bool := e.thisField?.isSome

/-- A module with copies in step and without an expression in the way. -/
theorem Module.Coherent.clear {m : Module} {location : Location} {sort : Expr → Bool}
    (coherent : m.Coherent) (none : ∀ i ∈ m.places .everything, i.2.isAt location sort = false) :
    m.Meets (Invariant.coherent.keeping fun e =>
      location.matchesB e.span = true → sort e = false) := by
  refine Module.Meets.keeping (m.meets_coherent.2 coherent) fun owner e he here => ?_
  have away : (location.matchesB e.span && sort e) = false := none _ he
  rwa [here, Bool.true_and] at away

/-! ### What one operator does with an expression, another takes back -/

/-- A type with a negation fits itself. -/
theorem Ty.fits_self {t : Ty} {op : UnaryOp} (h : UnaryOp.forType? t = some op) :
    t.fits t = true := by
  cases t <;> first | rfl | cases h

namespace Expr

variable {e e' : Expr}

/-- What a negation has been put around is taken out again. -/
theorem insertNegation_back {op : UnaryOp} (h : e.insertNegation op = .done e') :
    e'.span = e.span ∧ e'.profile = e.profile ∧ e'.deleteNegation = .done e := by
  obtain ⟨kind, span, ty⟩ := e
  cases kind with
  | name n =>
    obtain ⟨negation, rfl⟩ := Outcome.if_done_iff.1 h
    exact ⟨rfl, rfl, if_pos (Ty.fits_self negation)⟩
  | _ => cases h

/-- A change inside of an expression does not make a negation of it. -/
theorem isNegation_congr (h : e'.kind.profile = e.kind.profile) :
    e'.isNegation = e.isNegation := by
  have seen (e : Expr) : e.isNegation = decide (e.kind.profile.1 = .unary) := by
    obtain ⟨kind, span, ty⟩ := e
    cases kind <;> rfl
  rw [seen, seen, h]

theorem deleteNegation_eq_pass (h : e.isNegation = false) : e.deleteNegation = .pass e := by
  obtain ⟨kind, span, ty⟩ := e
  cases kind with
  | unary op x => cases h
  | _ => rfl

/-- The `this` that has been put before a name is taken away again. -/
theorem insertThis_back {owner : Option String} {field : String}
    (h : e.insertThis owner field = .done e') :
    e'.span = e.span ∧ e'.profile = e.profile ∧ e'.deleteThis field = .done e := by
  obtain ⟨kind, span, ty⟩ := e
  cases kind with
  | name n =>
    obtain ⟨same, inside⟩ := Outcome.if_refused_iff.1 h
    cases owner with
    | none => cases inside
    | some c =>
      cases inside
      obtain rfl := not_not.1 same
      refine ⟨rfl, rfl, ?_⟩
      simp [deleteThis, isThis]
  | _ => cases h

/-- Nor does it make a field of `this` of it: a receiver that is changed inside is not `this`, before
or after. -/
theorem readsThis_congr (h : e'.kind.profile = e.kind.profile) : e'.readsThis = e.readsThis := by
  have seen (e : Expr) : e.readsThis =
      (decide (e.kind.profile.1 = .member) && e.kind.profile.2.any Prod.snd) := by
    obtain ⟨kind, span, ty⟩ := e
    cases kind with
    | member r field =>
      cases this : r.isThis <;>
        simp [readsThis, thisField?, this, ExprKind.profile, ExprKind.shape, ExprKind.parts, profile]
    | _ => rfl
  rw [seen, seen, h]

theorem deleteThis_eq_pass {field : String} (h : e.readsThis = false) :
    e.deleteThis field = .pass e := by
  obtain ⟨kind, span, ty⟩ := e
  cases kind with
  | member r f =>
    cases this : r.isThis with
    | false => simp [deleteThis, this]
    | true => simp [readsThis, thisField?, this] at h
  | _ => rfl

end Expr

/-! ### Requests -/

namespace Operator

variable {base base' : Site} {location : Location}

/-- What the first operator does, the second takes back, and it passes over all but one sort of
expressions, of which the target addresses none. -/
theorem undoes_insertion {op op' : Operator} (act act' : Option String → Expr → Outcome Expr Expr)
    {sort : Expr → Bool} (level : op.level = .expr) (level' : op'.level = .expr)
    (acts : ∀ owner e, op.onExpr (base.inside owner) e =
      if base.target.matchesB e.span then act owner e else .pass e)
    (acts' : ∀ owner e, op'.onExpr (base'.inside owner) e =
      if base'.target.matchesB e.span then act' owner e else .pass e)
    (target : base.target = location) (target' : base'.target = location)
    (back : ∀ {owner e e'}, act owner e = .done e' →
      e'.span = e.span ∧ e'.profile = e.profile ∧ act' owner e' = .done e)
    (seen : ∀ {e e' : Expr}, e'.kind.profile = e.kind.profile → sort e' = sort e)
    (pass : ∀ {owner e}, sort e = false → act' owner e = .pass e) :
    Undoes (Invariant.coherent.keeping fun e => location.matchesB e.span = true → sort e = false)
      op op' base base' := by
  subst target
  apply undoes_onExpr act act' Invariant.inStep_coherent.keeping level level' acts acts' target'
  · intro owner e e' _ done
    exact back done
  · intro owner e e' he here _ kept
    obtain ⟨kind, span, ty⟩ := e
    have none := he.2 _ List.mem_cons_self here
    exact pass ((seen kept).trans none)

theorem undoes_insertNegation (target : base.target = location) (target' : base'.target = location)
    (negation : UnaryOp) :
    Undoes (Invariant.coherent.keeping fun e =>
        location.matchesB e.span = true → e.isNegation = false)
      (.insertNegation negation) .deleteNegation base base' :=
  undoes_insertion (fun _ e => e.insertNegation negation) (fun _ e => e.deleteNegation) rfl rfl
    (fun _ _ => rfl) (fun _ _ => rfl) target target' Expr.insertNegation_back Expr.isNegation_congr
    Expr.deleteNegation_eq_pass

theorem undoes_insertThis (target : base.target = location) (target' : base'.target = location)
    (field : String) :
    Undoes (Invariant.coherent.keeping fun e =>
        location.matchesB e.span = true → e.readsThis = false)
      (.insertThis field) (.deleteThis field) base base' :=
  undoes_insertion (fun owner e => e.insertThis owner field) (fun _ e => e.deleteThis field) rfl rfl
    (fun _ _ => rfl) (fun _ _ => rfl) target target' Expr.insertThis_back Expr.readsThis_congr
    Expr.deleteThis_eq_pass

theorem insertNegation_of_make {argument : Option String} {op : Operator}
    (made : make .negationInsertion argument = .ok op) :
    ∃ negation, op = .insertNegation negation := by
  have kind := kind_of_make made
  cases op with
  | insertNegation negation => exact ⟨negation, rfl⟩
  | _ => cases kind

/-- The insertion and the deletion of `this` read their arguments alike. -/
theorem insertThis_of_make {argument : Option String} {op : Operator}
    (made : make .thisInsertion argument = .ok op) :
    ∃ field, op = .insertThis field ∧ make .thisDeletion argument = .ok (.deleteThis field) := by
  simp only [make, Kind.takesArgument, if_true, ofArgument] at made ⊢
  split at made
  · cases made
  · cases made
    exact ⟨_, rfl, rfl⟩

end Operator

theorem Module.made_of_mutate {m : Module} {r : Request} {limit : Nat} {x : Mutant}
    (ok : m.mutate r limit = .ok x) : ∃ op, Operator.make r.kind r.argument = .ok op := by
  cases made : Operator.make r.kind r.argument with
  | error fault =>
    rw [Module.mutate_error made] at ok
    cases ok
  | ok op => exact ⟨op, rfl⟩

/-- Deletions take insertions back: in a module in which every copy is in step, a negation that has
been put around a name is deleted by a request for the same place, whatever its argument, unless
the place was that of a negation before; and a `this` that has been put before a name is deleted by
a request with the same argument, unless the place was that of a field of `this` before. The module
is restored, and the report is the one of the insertion. -/
theorem Module.mutate_inserted {m : Module} {location : Location} {limit : Nat} {x : Mutant}
    (coherent : m.Coherent) (applied : x.report.isApplied = true) :
    ((∀ i ∈ m.places .everything, i.2.isAt location Expr.isNegation = false) →
      ∀ argument argument', m.mutate ⟨location, .negationInsertion, argument⟩ limit = .ok x →
        x.module.mutate ⟨location, .negationDeletion, argument'⟩ limit =
          .ok { x with module := m, report := { x.report with kind := .negationDeletion } }) ∧
    ((∀ i ∈ m.places .everything, i.2.isAt location Expr.readsThis = false) →
      ∀ field, m.mutate ⟨location, .thisInsertion, some field⟩ limit = .ok x →
        x.module.mutate ⟨location, .thisDeletion, some field⟩ limit =
          .ok { x with module := m, report := { x.report with kind := .thisDeletion } }) := by
  constructor
  · intro none argument argument' ok
    obtain ⟨op, made⟩ := Module.made_of_mutate ok
    obtain ⟨negation, rfl⟩ := Operator.insertNegation_of_make made
    have made' : Operator.make .negationDeletion argument' = .ok .deleteNegation := rfl
    refine Module.mutate_back (coherent.clear none) made made' ?_ ok applied ?_
    · rfl
    · apply Operator.undoes_insertNegation <;> rfl
  · intro none field ok
    obtain ⟨op, made⟩ := Module.made_of_mutate ok
    obtain ⟨name, rfl, made'⟩ := Operator.insertThis_of_make made
    refine Module.mutate_back (coherent.clear none) made made' ?_ ok applied ?_
    · rfl
    · apply Operator.undoes_insertThis <;> rfl

/-- An operand of a chain in an assignment is negated and restored, and the same operand is read
from `this` and restored; each time the copies of the chain and of the assignment follow. -/
theorem Module.chained_mutate_inserted :
    Module.chained.Coherent ∧
    (∀ i ∈ Module.chained.places .everything, i.2.isAt (.anchor 8) Expr.isNegation = false) ∧
    (∀ i ∈ Module.chained.places .everything, i.2.isAt (.anchor 8) Expr.readsThis = false) ∧
    (∃ x, Module.chained.mutate ⟨.anchor 8, .negationInsertion, some "Neg"⟩ 64 = .ok x ∧
      x.report.found = some .assignment ∧
      x.module.mutate ⟨.anchor 8, .negationDeletion, none⟩ 64 = .ok { x with
        module := Module.chained, report := { x.report with kind := .negationDeletion } }) ∧
    ∃ y, Module.chained.mutate ⟨.anchor 8, .thisInsertion, some "b"⟩ 64 = .ok y ∧
      y.report.found = some .assignment ∧
      y.module.mutate ⟨.anchor 8, .thisDeletion, some "b"⟩ 64 = .ok { y with
        module := Module.chained, report := { y.report with kind := .thisDeletion } } := by
  have coherent := Module.coherent_chained
  have negations : ∀ i ∈ Module.chained.places .everything,
      i.2.isAt (.anchor 8) Expr.isNegation = false := by decide +kernel
  have fields : ∀ i ∈ Module.chained.places .everything,
      i.2.isAt (.anchor 8) Expr.readsThis = false := by decide +kernel
  have negated : (Module.chained.mutate ⟨.anchor 8, .negationInsertion, some "Neg"⟩ 64).map
      (fun x => x.report.found) = .ok (some .assignment) := by
    rfl
  have prefixed : (Module.chained.mutate ⟨.anchor 8, .thisInsertion, some "b"⟩ 64).map
      (fun x => x.report.found) = .ok (some .assignment) := by
    rfl
  obtain ⟨x, okX, foundX⟩ := exists_of_map_ok negated
  obtain ⟨y, okY, foundY⟩ := exists_of_map_ok prefixed
  have applied {z : Mutant} (found : z.report.found = some .assignment) :
      z.report.isApplied = true := by
    rw [Report.isApplied, found]
    rfl
  refine ⟨coherent, negations, fields, ⟨x, okX, foundX, ?_⟩, y, okY, foundY, ?_⟩
  · exact (Module.mutate_inserted coherent (applied foundX)).1 negations _ _ okX
  · exact (Module.mutate_inserted coherent (applied foundY)).2 fields _ okY

end Mutation
