import Mutation.Proofs.Parts
import Mutation.Search

/-!
# The places of a tree

A search offers its operator four kinds of places: member lists, statement lists, elements of
statement lists, and expressions. `places` lists them in the order in which a walk that is
never stopped comes to them: a list before its elements, an element before its parts, parts
from left to right. How much of the tree counts is the *coverage*: which spans are worth
entering, which kinds of code are walked, and which targets of assignments are entered. A
search, a scan and the whole tree are three coverages of the same recursion, and a larger
coverage has a larger list (`places_sublist`).
-/

namespace Mutation

/-- A place that can be offered to an operator. -/
inductive Place where
  | members (list : List Member)
  | stmts (list : List Stmt)
  /-- An element of a statement list. -/
  | element (stmt : Stmt)
  | expr (expr : Expr)

/-- How much of a tree is walked. -/
structure Coverage where
  /-- A node with this span is worth entering. -/
  worth : Span → Bool
  /-- Code of this kind is walked. -/
  admits : Context → Bool
  /-- A target of an assignment is walked. -/
  target : Expr → Bool

/-- The expression is an index expression. -/
def Expr.isIndex (e : Expr) : Bool :=
  match e.kind with
  | .index .. => true
  | _ => false

namespace Coverage

/-- All of a tree, specifications, ghost code and targets included. -/
def everything : Coverage := ⟨fun _ => true, fun _ => true, fun _ => true⟩

/-- The executable code, with the targets that are index expressions. -/
def executable : Coverage :=
  ⟨fun _ => true, fun context => context = .executable, Expr.isIndex⟩

/-- The executable code in which the target may lie. -/
def toward (target : Location) : Coverage := { executable with worth := target.mayLieIn }

/-- What one coverage walks, the other walks too. -/
structure Le (v w : Coverage) : Prop where
  worth : ∀ s, v.worth s = true → w.worth s = true
  admits : ∀ c, v.admits c = true → w.admits c = true
  target : ∀ e, v.target e = true → w.target e = true

@[simp] theorem executable_worth (span : Span) : executable.worth span = true := rfl

@[simp] theorem toward_worth (target : Location) (span : Span) :
    (toward target).worth span = target.mayLieIn span := rfl

@[simp] theorem toward_target (target : Location) (e : Expr) :
    (toward target).target e = e.isIndex := rfl

@[simp] theorem toward_admits (target : Location) (context : Context) :
    (toward target).admits context = decide (context = .executable) := rfl

theorem executable_le : executable.Le everything := ⟨fun _ _ => rfl, fun _ _ => rfl, fun _ _ => rfl⟩

theorem toward_le (target : Location) : (toward target).Le executable :=
  ⟨fun _ _ => rfl, fun _ h => h, fun _ h => h⟩

end Coverage

variable (w : Coverage)

mutual
/-- The places in an expression, itself first. -/
def Expr.places : Expr → List Place
  | ⟨kind, span, ty⟩ =>
    if w.worth span then .expr ⟨kind, span, ty⟩ :: kind.places else []

def ExprKind.places : ExprKind → List Place
  | .literal _ => []
  | .name _ => []
  | .this => []
  | .binary _ l r => l.places ++ r.places
  | .unary _ x => x.places
  | .chain c => c.places
  | .member r _ => r.places
  | .tupleIndex t _ => t.places
  | .index s i => s.places ++ i.places
  | .call r _ args => Expr.placesOpt r ++ Expr.placesList args
  | .display _ es => Expr.placesList es
  | .mapDisplay entries => MapEntry.placesList entries
  | .arrayAlloc _ dims init => Expr.placesList dims ++ Expr.placesOptList init
  | .ctor _ _ args => Expr.placesList args
  | .ite c t f => c.places ++ t.places ++ f.places
  | .old x => if w.admits .specification then x.places else []

def Chain.places : Chain → List Place
  | ⟨operands, _, _⟩ => Expr.placesList operands

def Expr.placesList : List Expr → List Place
  | [] => []
  | e :: es => e.places ++ Expr.placesList es

def Expr.placesOpt : Option Expr → List Place
  | none => []
  | some e => e.places

def Expr.placesOptList : Option (List Expr) → List Place
  | none => []
  | some es => Expr.placesList es

def MapEntry.placesList : List MapEntry → List Place
  | [] => []
  | ⟨key, value⟩ :: entries => key.places ++ value.places ++ MapEntry.placesList entries
end

/-- The places in the expressions of a clause. -/
def Expr.clausePlaces (es : List Expr) : List Place :=
  if w.admits .specification then Expr.placesList w es else []

/-- The places in the targets of an assignment. -/
def Expr.targetPlaces : List Expr → List Place
  | [] => []
  | e :: es => (if w.target e then e.places w else []) ++ Expr.targetPlaces es

/-- The places in an assignment. -/
def Update.places (u : Update) : List Place :=
  Expr.targetPlaces w u.targets ++ Expr.placesList w u.values

/-- The places in the values of a declaration. -/
def VarDecl.places (d : VarDecl) : List Place :=
  match d.init with
  | some init => Expr.placesList w init.values
  | none => []

mutual
/-- The places inside a statement. -/
def Stmt.places : Stmt → List Place
  | ⟨kind, span, ghost⟩ =>
    if w.admits (Stmt.context ⟨kind, span, ghost⟩) && w.worth span then kind.places else []

def StmtKind.places : StmtKind → List Place
  | .varDecl d => d.places w
  | .update u => u.places w
  | .expr e => e.places w
  | .ret values => Expr.placesList w values
  | .ifElse guard thenBranch elseBranch =>
    Expr.placesOpt w guard ++ thenBranch.places ++ Stmt.placesOpt elseBranch
  | .whileLoop guard invariants decreases body =>
    Expr.placesOpt w guard ++ Expr.clausePlaces w invariants ++ Expr.clausePlaces w decreases ++
      body.places
  | .forLoop _ start stop _ invariants body =>
    start.places w ++ Expr.placesOpt w stop ++ Expr.clausePlaces w invariants ++ body.places
  | .breakLoop => []
  | .continueLoop => []
  | .block b => b.places
  | .matchOn source cases => source.places w ++ MatchCase.placesList cases
  | .assert e => e.places w
  | .assume e => e.places w
  | .print args => Expr.placesList w args

/-- The places in a block, its list first. -/
def Block.places : Block → List Place
  | ⟨list, span⟩ => if w.worth span then .stmts list :: Stmt.placesList list else []

/-- The places in the elements of a statement list, each element before its inside. -/
def Stmt.placesList : List Stmt → List Place
  | [] => []
  | s :: list =>
    (if w.admits s.context && w.worth s.span then .element s :: s.places else []) ++
      Stmt.placesList list

def Stmt.placesOpt : Option Stmt → List Place
  | none => []
  | some s => s.places

def MatchCase.placesList : List MatchCase → List Place
  | [] => []
  | ⟨_, body, span⟩ :: cases =>
    (if w.worth span then .stmts body :: Stmt.placesList body else []) ++
      MatchCase.placesList cases
end

/-- The places in a contract. -/
def Contract.places (c : Contract) : List Place :=
  Expr.clausePlaces w c.requires ++ Expr.clausePlaces w c.ensures ++ Expr.clausePlaces w c.frame ++
    Expr.clausePlaces w c.decreases

/-- The places in a block that may be missing. -/
def Block.placesOpt : Option Block → List Place
  | none => []
  | some b => b.places w

/-- The places in the inside of a member. -/
def Member.inside : Member → List Place
  | .field _ => []
  | .method m => m.contract.places w ++ Block.placesOpt w m.body
  | .function f => f.contract.places w ++ Expr.placesOpt w f.body

/-- The places in a member. -/
def Member.places (m : Member) : List Place :=
  if w.admits m.context && w.worth m.span then m.inside w else []

/-- The places in the members of a declaration. -/
def Member.placesList : List Member → List Place
  | [] => []
  | m :: ms => m.places w ++ Member.placesList ms

namespace Decl

/-- The name of a declaration. -/
def name : Decl → String
  | .class c => c.name
  | .datatype d => d.name

/-- The span of a declaration. -/
def span : Decl → Span
  | .class c => c.span
  | .datatype d => d.span

/-- The members of a declaration. -/
def members : Decl → List Member
  | .class c => c.members
  | .datatype d => d.members

/-- The places in a declaration, its member list first. -/
def places (d : Decl) : List Place :=
  if w.worth d.span then .members d.members :: Member.placesList w d.members else []

/-- The places in some declarations, each with the name of the declaration it is in. -/
def placesList : List Decl → List (String × Place)
  | [] => []
  | d :: ds => (d.places w).map (fun p => (d.name, p)) ++ placesList ds

end Decl

/-- The places in a module, each with the name of the declaration it is in. -/
def Module.places (m : Module) : List (String × Place) := Decl.placesList w m.decls

variable {w}

theorem Expr.places_mk (kind : ExprKind) (span : Span) (ty : Ty) :
    Expr.places w ⟨kind, span, ty⟩ =
      if w.worth span then .expr ⟨kind, span, ty⟩ :: kind.places w else [] := by
  rw [Expr.places]

theorem Expr.placesList_append (es fs : List Expr) :
    Expr.placesList w (es ++ fs) = Expr.placesList w es ++ Expr.placesList w fs := by
  induction es with
  | nil => rfl
  | cons e es ih => simp [Expr.placesList, ih]

theorem Expr.mem_placesList {p : Place} {es : List Expr} :
    p ∈ Expr.placesList w es ↔ ∃ e ∈ es, p ∈ e.places w := by
  induction es with
  | nil => simp [Expr.placesList]
  | cons e es ih => simp [Expr.placesList, ih]

/-- The places in a shape other than an `old` are those in its direct parts. -/
theorem ExprKind.places_eq {kind : ExprKind} (old : ∀ e, kind ≠ .old e) :
    kind.places w = Expr.placesList w kind.parts := by
  cases kind with
  | old e => exact absurd rfl (old e)
  | literal _ | name _ | this | display _ _ | ctor _ _ _ => rfl
  | binary _ a b | index a b | ite a b c => simp [places, parts, Expr.placesList]
  | unary _ a | member a _ | tupleIndex a _ => simp [places, parts, Expr.placesList]
  | chain c =>
    obtain ⟨operands, ops, resolved⟩ := c
    rfl
  | mapDisplay entries =>
    simp only [places, parts]
    induction entries with
    | nil => rfl
    | cons entry entries ih =>
      obtain ⟨key, value⟩ := entry
      simp [MapEntry.placesList, Expr.placesList, ih]
  | call a method args => cases a <;> simp [places, parts, Expr.placesList, Expr.placesOpt]
  | arrayAlloc t dims init =>
    cases init <;> simp [places, parts, Expr.placesList_append, Expr.placesOptList]

/-- An `old` is no exception where all kinds of code count. -/
theorem ExprKind.places_everything (kind : ExprKind) :
    kind.places .everything = Expr.placesList .everything kind.parts := by
  by_cases old : ∃ e, kind = .old e
  · obtain ⟨e, rfl⟩ := old
    exact (List.append_nil _).symm
  · exact ExprKind.places_eq fun e he => old ⟨e, he⟩

variable {v : Coverage}

theorem gated_sublist {α : Type} {a b : Bool} {l l' : List α} (h : a = true → b = true)
    (hl : l.Sublist l') : (if a then l else []).Sublist (if b then l' else []) := by
  cases a with
  | false => exact List.nil_sublist _
  | true => simpa [h rfl] using hl

theorem Expr.placesList_sublist {es : List Expr}
    (h : ∀ e ∈ es, (e.places v).Sublist (e.places w)) :
    (Expr.placesList v es).Sublist (Expr.placesList w es) := by
  induction es with
  | nil => exact List.Sublist.refl _
  | cons e es ih =>
    simp only [Expr.placesList]
    exact (h e (by simp)).append (ih fun c hc => h c (by simp [hc]))

theorem Expr.places_sublist (le : v.Le w) (e : Expr) : (e.places v).Sublist (e.places w) := by
  induction e using Expr.induct with
  | step e ih =>
    obtain ⟨kind, span, ty⟩ := e
    simp only [Expr.places]
    refine gated_sublist (le.worth span) (List.Sublist.cons_cons _ ?_)
    by_cases old : ∃ x, kind = .old x
    · obtain ⟨x, rfl⟩ := old
      exact gated_sublist (le.admits _) (ih x (by simp [ExprKind.parts]))
    · have rest := fun x hx => old ⟨x, hx⟩
      rw [ExprKind.places_eq rest, ExprKind.places_eq rest]
      exact Expr.placesList_sublist ih

theorem Expr.placesOpt_sublist (le : v.Le w) (e : Option Expr) :
    (Expr.placesOpt v e).Sublist (Expr.placesOpt w e) := by
  cases e with
  | none => exact List.Sublist.refl _
  | some e => exact Expr.places_sublist le e

theorem Expr.clausePlaces_sublist (le : v.Le w) (es : List Expr) :
    (Expr.clausePlaces v es).Sublist (Expr.clausePlaces w es) :=
  gated_sublist (le.admits _) (Expr.placesList_sublist fun e _ => Expr.places_sublist le e)

theorem Update.places_sublist (le : v.Le w) (u : Update) : (u.places v).Sublist (u.places w) := by
  refine List.Sublist.append ?_ (Expr.placesList_sublist fun e _ => Expr.places_sublist le e)
  induction u.targets with
  | nil => exact List.Sublist.refl _
  | cons e es ih => exact (gated_sublist (le.target e) (Expr.places_sublist le e)).append ih

theorem VarDecl.places_sublist (le : v.Le w) (d : VarDecl) : (d.places v).Sublist (d.places w) := by
  unfold VarDecl.places
  split
  · exact Expr.placesList_sublist fun e _ => Expr.places_sublist le e
  · exact List.Sublist.refl _

mutual
theorem Stmt.places_sublist (le : v.Le w) : (s : Stmt) → (s.places v).Sublist (s.places w)
  | ⟨kind, span, ghost⟩ => by
    simp only [Stmt.places]
    refine gated_sublist ?_ (StmtKind.places_sublist le kind)
    simp only [Bool.and_eq_true]
    exact fun h => ⟨le.admits _ h.1, le.worth _ h.2⟩

theorem StmtKind.places_sublist (le : v.Le w) : (kind : StmtKind) → (kind.places v).Sublist (kind.places w)
  | .varDecl d => VarDecl.places_sublist le d
  | .update u => Update.places_sublist le u
  | .expr e | .assert e | .assume e => Expr.places_sublist le e
  | .ret _ | .print _ => Expr.placesList_sublist fun e _ => Expr.places_sublist le e
  | .ifElse guard thenBranch elseBranch =>
    ((Expr.placesOpt_sublist le guard).append (Block.places_sublist le thenBranch)).append
      (Stmt.placesOpt_sublist le elseBranch)
  | .whileLoop guard invariants decreases body =>
    (((Expr.placesOpt_sublist le guard).append (Expr.clausePlaces_sublist le invariants)).append
      (Expr.clausePlaces_sublist le decreases)).append (Block.places_sublist le body)
  | .forLoop _ start stop _ invariants body =>
    (((Expr.places_sublist le start).append (Expr.placesOpt_sublist le stop)).append
      (Expr.clausePlaces_sublist le invariants)).append (Block.places_sublist le body)
  | .breakLoop | .continueLoop => List.Sublist.refl _
  | .block b => Block.places_sublist le b
  | .matchOn source cases =>
    (Expr.places_sublist le source).append (MatchCase.placesList_sublist le cases)

theorem Block.places_sublist (le : v.Le w) : (b : Block) → (b.places v).Sublist (b.places w)
  | ⟨list, span⟩ =>
    gated_sublist (le.worth span) ((Stmt.placesList_sublist le list).cons_cons _)

theorem Stmt.placesList_sublist (le : v.Le w) :
    (list : List Stmt) → (Stmt.placesList v list).Sublist (Stmt.placesList w list)
  | [] => List.Sublist.refl _
  | s :: list => by
    simp only [Stmt.placesList]
    refine (gated_sublist ?_ ((Stmt.places_sublist le s).cons_cons _)).append
      (Stmt.placesList_sublist le list)
    simp only [Bool.and_eq_true]
    exact fun h => ⟨le.admits _ h.1, le.worth _ h.2⟩

theorem Stmt.placesOpt_sublist (le : v.Le w) :
    (s : Option Stmt) → (Stmt.placesOpt v s).Sublist (Stmt.placesOpt w s)
  | none => List.Sublist.refl _
  | some s => Stmt.places_sublist le s

theorem MatchCase.placesList_sublist (le : v.Le w) :
    (cases : List MatchCase) →
      (MatchCase.placesList v cases).Sublist (MatchCase.placesList w cases)
  | [] => List.Sublist.refl _
  | ⟨_, body, span⟩ :: cases =>
    (gated_sublist (le.worth span) ((Stmt.placesList_sublist le body).cons_cons _)).append
      (MatchCase.placesList_sublist le cases)
end

theorem Contract.places_sublist (le : v.Le w) (c : Contract) : (c.places v).Sublist (c.places w) :=
  (((Expr.clausePlaces_sublist le _).append (Expr.clausePlaces_sublist le _)).append
    (Expr.clausePlaces_sublist le _)).append (Expr.clausePlaces_sublist le _)

theorem Member.inside_sublist (le : v.Le w) (m : Member) : (m.inside v).Sublist (m.inside w) := by
  cases m with
  | field f => exact List.Sublist.refl _
  | method m =>
    refine (Contract.places_sublist le m.contract).append ?_
    cases m.body with
    | none => exact List.Sublist.refl _
    | some b => exact Block.places_sublist le b
  | function f =>
    exact (Contract.places_sublist le f.contract).append (Expr.placesOpt_sublist le f.body)

theorem Member.places_sublist (le : v.Le w) (m : Member) : (m.places v).Sublist (m.places w) := by
  refine gated_sublist ?_ (Member.inside_sublist le m)
  simp only [Bool.and_eq_true]
  exact fun h => ⟨le.admits _ h.1, le.worth _ h.2⟩

theorem Member.placesList_sublist (le : v.Le w) (ms : List Member) :
    (Member.placesList v ms).Sublist (Member.placesList w ms) := by
  induction ms with
  | nil => exact List.Sublist.refl _
  | cons m ms ih => exact (Member.places_sublist le m).append ih

/-- A larger coverage has all places of a smaller one, in the same order. -/
theorem Module.places_sublist (le : v.Le w) (m : Module) : (m.places v).Sublist (m.places w) := by
  unfold Module.places
  induction m.decls with
  | nil => exact List.Sublist.refl _
  | cons d ds ih =>
    have members := (Member.placesList_sublist le d.members).cons_cons (.members d.members)
    exact ((gated_sublist (le.worth d.span) members).map _).append ih

end Mutation
