import Mutation.Proofs.Nesting
import Mutation.Scan

/-!
# Where candidates come from

Every candidate of a scan is proposed at a place of the executable code, in a view that knows the
declarations of the module and the declaration around the place, and in whose scope all names can
stand in an argument if those of the module can (`Module.exists_of_mem_scan`). In turn, everything
that such a view suggests at a place is a candidate, unless the scan leaves the place out
(`Module.scan_offers`): it proposes nothing for targets of assignments, and nothing for an element
with the range of an `else` branch, since it knows the branches by their ranges.

The walk of a scan never ends early. What it knows on the way is an invariant that every hook keeps
(`Scan.Known`); a part of the walk adds the proposals of the places in that part (`Offers`), and
parts are put together by `Walks.next` and `Walks.around`.
-/

namespace Mutation

/-- The name can stand in an argument: it is not blank, and there are no blanks around it. -/
structure Text.Clean (name : String) : Prop where
  solid : isBlankText name = false
  trimmed : trim name = name

open Text (Clean)

/-- The names a statement brings in itself: its locals, its index, or the constructors and
variables of its patterns. -/
def StmtKind.naming : StmtKind → List String
  | .varDecl d => d.names
  | .forLoop index .. => [index.name]
  | .matchOn _ cases => cases.flatMap fun c => c.pattern.ctor?.toList ++ c.pattern.names
  | _ => []

/-- The names in the statement and inside it are clean. -/
inductive Stmt.Legible : Stmt → Prop
  | intro {s : Stmt} (names : ∀ n ∈ s.kind.naming, Clean n)
    (lists : ∀ b ∈ s.kind.lists, ∀ t ∈ b.2, Stmt.Legible t)
    (branch : ∀ t ∈ s.elseBranch?, Stmt.Legible t) : Stmt.Legible s

/-- The parameters and results of a member. -/
def Member.formals : Member → List Variable
  | .field _ => []
  | .method m => m.params ++ m.outs
  | .function f => f.params

/-- The names in the member are clean. -/
structure Member.Legible (m : Member) : Prop where
  name : Clean m.name
  formals : ∀ v ∈ m.formals, Clean v.name
  body : ∀ d, m = .method d → ∀ b ∈ d.body, ∀ s ∈ b.stmts, s.Legible

/-- The names in the module are clean. -/
structure Module.Legible (m : Module) : Prop where
  members : ∀ d ∈ m.decls, ∀ x ∈ d.members, x.Legible
  ctors : ∀ d ∈ m.datatypes, ∀ c ∈ d.ctors, Clean c.name

namespace Stmt.Legible

variable {s : Stmt}

theorem names (h : s.Legible) : ∀ n ∈ s.kind.naming, Clean n := by
  cases h
  assumption

theorem lists (h : s.Legible) : ∀ b ∈ s.kind.lists, ∀ t ∈ b.2, t.Legible := by
  cases h
  assumption

theorem branch (h : s.Legible) : ∀ t ∈ s.elseBranch?, t.Legible := by
  cases h
  assumption

end Stmt.Legible

/-- Names that can be written are handed down to every member, statement and branch. -/
theorem hereditary_legible : Hereditary Member.Legible Stmt.Legible fun _ => True where
  block := fun d h b hb s hs => h.body d rfl b hb s hs
  value := fun _ _ _ _ => trivial
  exprs := fun _ _ _ _ => trivial
  lists := fun _ h => h.lists
  branch := fun _ h => h.branch
  parts := fun _ _ _ _ => trivial

/-- What a scan knows in a declaration with this name, or outside of any. -/
structure View.Fits (m : Module) (o : ScanOptions) (owner : Option String) (v : View) : Prop where
  declarations : v.declarations = m.declarations
  sentinel : v.sentinel = o.sentinel
  enclosing : v.enclosingType = owner
  scope : m.Legible → ∀ b ∈ v.scope.bindings, Clean b.name

/-- What a scan proposes at a place. -/
def Place.proposals (v : View) : Place → List Candidate
  | .members list => Member.exchanges list
  | .stmts list => Stmt.exchanges list
  | .element s => s.proposals
  | .expr e => v.expr e

mutual
/-- The `else` branches behind a statement, the nearest first. -/
def Stmt.branches : Stmt → List Stmt
  | ⟨.ifElse _ _ next, _, _⟩ => Stmt.branchesOpt next
  | _ => []

/-- An `else` branch and those behind it. -/
def Stmt.branchesOpt : Option Stmt → List Stmt
  | none => []
  | some s => s :: s.branches
end

/-- The branches of a branch are branches of the whole chain. -/
theorem Stmt.mem_branches {s b t : Stmt} (hb : b ∈ s.elseBranch?) (ht : t ∈ b :: b.branches) :
    t ∈ s.branches := by
  obtain ⟨kind, span, ghost⟩ := s
  cases kind with
  | ifElse guard thenBranch next =>
    cases hb
    exact ht
  | _ => cases hb

/-- The expression of a place. -/
def Place.expr? : Place → Option Expr
  | .expr e => some e
  | _ => none

/-- The nodes of an expression, itself first. -/
def Expr.nodes (e : Expr) : List Expr := (e.places .everything).filterMap Place.expr?

/-- The nodes of an assignment target, except those inside its index. -/
def Expr.aroundIndex (e : Expr) : List Expr :=
  match e.kind with
  | .index q _ => e :: q.nodes
  | _ => e.nodes

/-- The nodes of the targets of an assignment, except those inside an index. -/
def Stmt.targetNodes (s : Stmt) : List Expr :=
  match s.kind with
  | .update u => u.targets.flatMap Expr.aroundIndex
  | _ => []

/-- Clauses hold no executable place. -/
theorem Expr.clausePlaces_executable (es : List Expr) :
    Expr.clausePlaces .executable es = [] :=
  rfl

/-- A statement that is not entered has no places, so the gate before it says nothing more. -/
theorem Stmt.places_gated {w : Coverage} (s : Stmt) :
    (if w.admits s.context && w.worth s.span then s.places w else []) = s.places w := by
  obtain ⟨kind, span, ghost⟩ := s
  rw [Stmt.places]
  split <;> rfl

/-- An expression at a place inside another one is one of its nodes. -/
theorem Expr.mem_nodes {e x : Expr} (h : .expr x ∈ e.places .executable) : x ∈ e.nodes :=
  List.mem_filterMap.2 ⟨_, (Expr.places_sublist Coverage.executable_le e).subset h, rfl⟩

namespace Module

variable (m : Module)

/-- The statements of the executable code: the elements of lists and the `else` branches behind
them. -/
def statements : List Stmt :=
  (m.places .executable).flatMap fun i =>
    match i.2 with
    | .element s => s :: s.branches
    | _ => []

/-- The `else` branches in the executable code. -/
def elseBranches : List Stmt := m.statements.filterMap Stmt.elseBranch?

/-- The nodes of assignment targets in the executable code, except those inside an index. -/
def targetNodes : List Expr := m.statements.flatMap Stmt.targetNodes

variable {m}

/-- An element of an executable list is one of the statements of the module, and so are its
branches. -/
theorem mem_statements {owner : String} {s t : Stmt}
    (h : (owner, .element s) ∈ m.places .executable) (ht : t ∈ s :: s.branches) :
    t ∈ m.statements :=
  List.mem_flatMap.2 ⟨_, h, ht⟩

/-- The `else` branch of a statement is one of the branches of the module. -/
theorem mem_elseBranches {s b : Stmt} (hs : s ∈ m.statements) (hb : b ∈ s.elseBranch?) :
    b ∈ m.elseBranches :=
  List.mem_filterMap.2 ⟨s, hs, hb⟩

variable (m)

/-- A scan leaves the place out. -/
def LeftOut : Place → Prop
  | .element s => ∃ b ∈ m.elseBranches, b.span.coincides s.span = true
  | .expr e => e ∈ m.targetNodes
  | _ => False

end Module

/-- These are the proposals at the places, in their order, but for those that a scan leaves out. -/
inductive Offers (m : Module) (o : ScanOptions) :
    List (String × Place) → List Candidate → Prop
  | nil : Offers m o [] []
  | skip {i : String × Place} {is : List (String × Place)} {new : List Candidate} :
    m.LeftOut i.2 → Offers m o is new → Offers m o (i :: is) new
  | draw {i : String × Place} {is : List (String × Place)} {new : List Candidate} {v : View} :
    v.Fits m o (some i.1) → Offers m o is new →
    Offers m o (i :: is) (((i.2.proposals v).filter fun c => o.allows c.kind) ++ new)

section

variable {m : Module} {o : ScanOptions} {is js : List (String × Place)}
  {new new' : List Candidate}

namespace Offers

/-- Places that a scan leaves out offer nothing. -/
theorem leftOut (h : ∀ i ∈ is, m.LeftOut i.2) : Offers m o is [] := by
  induction is with
  | nil => exact .nil
  | cons i is ih =>
    obtain ⟨first, rest⟩ := List.forall_mem_cons.1 h
    exact .skip first (ih rest)

/-- What a view suggests at a place. -/
theorem one {owner : String} {p : Place} {v : View} (fits : v.Fits m o (some owner)) :
    Offers m o [(owner, p)] ((p.proposals v).filter fun c => o.allows c.kind) := by
  have drawn : Offers m o [(owner, p)]
      (((p.proposals v).filter fun c => o.allows c.kind) ++ []) := .draw fits .nil
  rwa [List.append_nil] at drawn

/-- What is offered at some places and then at others is offered at all of them. -/
theorem append (h : Offers m o is new) (h' : Offers m o js new') :
    Offers m o (is ++ js) (new ++ new') := by
  induction h with
  | nil => exact h'
  | skip left _ ih => exact .skip left ih
  | draw fits _ ih =>
    rw [List.append_assoc]
    exact .draw fits ih

/-- What is offered is a proposal at one of the places, in a view that fits the module there. -/
theorem placed (h : Offers m o is new) :
    ∀ c ∈ new, ∃ i ∈ is, ∃ v : View, v.Fits m o (some i.1) ∧ c ∈ i.2.proposals v := by
  induction h with
  | nil => exact List.forall_mem_nil _
  | skip _ _ ih =>
    intro c hc
    obtain ⟨i, hi, found⟩ := ih c hc
    exact ⟨i, List.mem_cons_of_mem _ hi, found⟩
  | draw fits _ ih =>
    intro c hc
    rcases List.mem_append.1 hc with hc | hc
    · exact ⟨_, List.mem_cons_self, _, fits, (List.mem_filter.1 hc).1⟩
    · obtain ⟨i, hi, found⟩ := ih c hc
      exact ⟨i, List.mem_cons_of_mem _ hi, found⟩

/-- A place that is not left out offers all its proposals of the allowed kinds. -/
theorem complete (h : Offers m o is new) :
    ∀ i ∈ is, m.LeftOut i.2 ∨ ∃ v : View, v.Fits m o (some i.1) ∧
      ∀ c ∈ i.2.proposals v, o.allows c.kind = true → c ∈ new := by
  induction h with
  | nil => exact List.forall_mem_nil _
  | skip left _ ih => exact List.forall_mem_cons.2 ⟨.inl left, ih⟩
  | @draw i is new v fits _ ih =>
    refine List.forall_mem_cons.2 ⟨?_, ?_⟩
    · refine .inr ⟨v, fits, fun c hc allowed => ?_⟩
      exact List.mem_append_left _ (List.mem_filter.2 ⟨hc, allowed⟩)
    · intro j hj
      refine (ih j hj).imp_right fun ⟨w, fits, all⟩ => ⟨w, fits, fun c hc allowed => ?_⟩
      exact List.mem_append_right _ (all c hc allowed)

end Offers

end

namespace Scan

/-- What is known in a scan: the view fits, and the `else` branches seen so far, those with the
spans in `C` among them, are branches of the module. -/
structure Known (m : Module) (o : ScanOptions) (owner : Option String) (C : List Span)
    (s : Scan) : Prop where
  view : s.view.Fits m o owner
  index : m.Legible → ∀ v ∈ s.index, Clean v.name
  chained : ∀ c ∈ C, c ∈ s.chained
  branches : ∀ c ∈ s.chained, ∃ b ∈ m.elseBranches, b.span = c

/-- A walk that goes through, from states with one property to states with another, and adds the
proposals at the places. -/
def Walks (m : Module) (o : ScanOptions) (I J : Scan → Prop) (is : List (String × Place))
    (walk : Scan → Flow Scan) : Prop :=
  ∀ s, I s → ∃ s' new, walk s = .go s' ∧ J s' ∧ s'.candidates = s.candidates ++ new ∧
    Offers m o is new

/-- The hooks that the walks of a scan share. -/
structure Scanning (o : ScanOptions) (v : Survey Scan) : Prop where
  worth : ∀ s span, v.worth s span = true
  specifications : ∀ s, v.specifications s = false
  ghost : ∀ s, v.ghost s = false
  visit : ∀ node s, v.visit node s = (.proceed, s.enter o node)
  leave : ∀ node s, v.leave node s = s.leave node

/-- A scan admits executable code only. -/
theorem Scanning.executable {o : ScanOptions} {v : Survey Scan} (hv : Scanning o v)
    {context : Context} {s : Scan} (h : v.admits context s = true) : context = .executable := by
  cases context with
  | executable => rfl
  | specification => simp [Gates.admits, hv.specifications] at h
  | ghost => simp [Gates.admits, hv.ghost] at h

theorem scanning_survey (o : ScanOptions) : Scanning o (survey o) :=
  ⟨fun _ _ => rfl, fun _ => rfl, fun _ => rfl, fun _ _ => rfl, fun _ _ => rfl⟩

theorem scanning_exprSurvey (o : ScanOptions) : Scanning o (exprSurvey o) :=
  ⟨fun _ _ => rfl, fun _ => rfl, fun _ => rfl, fun _ _ => rfl, fun _ _ => rfl⟩

section

variable {s : Scan}

@[simp] theorem candidates_emit (o : ScanOptions) (new : List Candidate) :
    (s.emit o new).candidates = s.candidates ++ new.filter fun c => o.allows c.kind := rfl

/-- Declaring variables proposes nothing. -/
@[simp] theorem candidates_declare (origin : Origin) (vars : List Variable) :
    (s.declare origin vars).candidates = s.candidates := by
  unfold declare
  generalize vars.filter (fun v => !v.ghost) = kept
  induction kept generalizing s with
  | nil => rfl
  | cons v kept ih => exact ih

@[simp] theorem candidates_bindAll (bindings : List (String × Ty)) :
    (bindings.foldl (fun s (name, ty) => s.bind ⟨name, ty, .patternVar⟩) s).candidates =
      s.candidates := by
  induction bindings generalizing s with
  | nil => rfl
  | cons b bindings ih => exact ih

@[simp] theorem candidates_enterStmt (st : Stmt) : (s.enterStmt st).candidates = s.candidates := by
  unfold enterStmt
  split <;> rfl

@[simp] theorem candidates_closeScope : s.closeScope.candidates = s.candidates := by
  unfold closeScope
  split <;> rfl

/-- Nothing is proposed behind a node. -/
@[simp] theorem candidates_leave (node : Node) : (s.leave node).candidates = s.candidates := by
  cases node with
  | stmt st =>
    simp only [leave]
    split
    · exact candidates_declare _ _
    · rfl
    · rfl
  | method | function | block | case => exact candidates_closeScope
  | _ => rfl

end

section

variable {m : Module} {I J K L : Scan → Prop} {o : ScanOptions} {v : Survey Scan}
  {is js : List (String × Place)}

theorem Walks.go (h : ∀ s, I s → J s) : Walks m o I J [] .go := fun s hs =>
  ⟨s, [], rfl, h s hs, (List.append_nil _).symm, .nil⟩

/-- Two walks one after the other offer what both offer. -/
theorem Walks.next {f g : Scan → Flow Scan} (hf : Walks m o I J is f) (hg : Walks m o J K js g) :
    Walks m o I K (is ++ js) fun s => (f s).next g := by
  intro s hs
  obtain ⟨s₁, new₁, eq₁, hs₁, added₁, offers₁⟩ := hf s hs
  obtain ⟨s₂, new₂, eq₂, hs₂, added₂, offers₂⟩ := hg s₁ hs₁
  refine ⟨s₂, new₁ ++ new₂, by simp [eq₁, Flow.next, eq₂], hs₂, ?_, offers₁.append offers₂⟩
  rw [added₂, added₁, List.append_assoc]

/-- A hook before a walk. -/
theorem Walks.after {f : Scan → Scan} {g : Scan → Flow Scan}
    (hf : ∀ s, I s → J (f s) ∧ ∃ new, (f s).candidates = s.candidates ++ new ∧ Offers m o is new)
    (hg : Walks m o J K js g) : Walks m o I K (is ++ js) fun s => g (f s) := by
  intro s hs
  obtain ⟨hs₁, new₁, added₁, offers₁⟩ := hf s hs
  obtain ⟨s₂, new₂, eq₂, hs₂, added₂, offers₂⟩ := hg _ hs₁
  refine ⟨s₂, new₁ ++ new₂, eq₂, hs₂, ?_, offers₁.append offers₂⟩
  rw [added₂, added₁, List.append_assoc]

/-- A walk around a node offers what entering the node offers, then what the inside does. -/
theorem Walks.around (hv : Scanning o v) {node : Node} {inside : Scan → Flow Scan}
    (enter : ∀ s, I s → J (s.enter o node) ∧
      ∃ new, (s.enter o node).candidates = s.candidates ++ new ∧ Offers m o is new)
    (hi : Walks m o J K js inside) (leave : ∀ s, K s → L (s.leave node)) :
    Walks m o I L (is ++ js) (v.around node inside) := by
  intro s hs
  obtain ⟨s', new, eq, hs', added, offers⟩ := Walks.after enter hi s hs
  refine ⟨s'.leave node, new, ?_, leave s' hs', ?_, offers⟩
  · simp [Survey.around, hv.visit, Visit.enter, eq, Flow.next, hv.leave]
  · rw [candidates_leave, added]

/-- A node for which nothing is proposed. -/
theorem Walks.within (hv : Scanning o v) {node : Node} {inside : Scan → Flow Scan}
    (quiet : ∀ s : Scan, (s.enter o node).candidates = s.candidates)
    (enter : ∀ s, I s → J (s.enter o node)) (hi : Walks m o J K js inside)
    (leave : ∀ s, K s → L (s.leave node)) : Walks m o I L js (v.around node inside) := by
  have hook : ∀ s, I s → J (s.enter o node) ∧
      ∃ new, (s.enter o node).candidates = s.candidates ++ new ∧ Offers m o [] new := fun s hs =>
    ⟨enter s hs, [], by rw [quiet, List.append_nil], .nil⟩
  exact Walks.around hv hook hi leave

theorem Walks.specified (hv : Scanning o v) (inside : Scan → Flow Scan) :
    Walks m o I I [] (v.specified inside) := by
  intro s hs
  exact ⟨s, [], by simp [Survey.specified, hv.specifications], hs, (List.append_nil _).symm, .nil⟩

/-- A scan passes over clauses. -/
theorem Walks.clause (hv : Scanning o v) (es : List Expr) : Walks m o I I [] (v.clause es) := by
  intro s hs
  refine ⟨s, [], ?_, hs, (List.append_nil _).symm, .nil⟩
  simp [Survey.clause, Survey.specified, hv.specifications]

theorem Walks.clauses (hv : Scanning o v) (cs : List (List Expr)) :
    Walks m o I I [] (v.clauses cs) := by
  induction cs with
  | nil => exact .go fun _ => id
  | cons c cs ih => exact (Walks.clause hv c).next ih

end

section

variable {m : Module} {o : ScanOptions} {owner : Option String} {C : List Span} {s : Scan}

namespace Known

/-- Fewer branches may be asked for than have been noted. -/
theorem weaken {C' : List Span} (h : s.Known m o owner C') (sub : ∀ c ∈ C, c ∈ C') :
    s.Known m o owner C :=
  { h with chained := fun c hc => h.chained c (sub c hc) }

/-- Binding a variable with a name that can be written keeps what is known. -/
theorem bind (h : s.Known m o owner C) {b : Binding} (hb : m.Legible → Clean b.name) :
    (s.bind b).Known m o owner C :=
  { h with view := { h.view with
      scope := fun legible => List.forall_mem_cons.2 ⟨hb legible, h.view.scope legible⟩ } }

theorem declare (h : s.Known m o owner C) (origin : Origin) {vars : List Variable}
    (clean : m.Legible → ∀ v ∈ vars, Clean v.name) :
    (s.declare origin vars).Known m o owner C := by
  have kept : ∀ v ∈ vars.filter fun v => !v.ghost, m.Legible → Clean v.name :=
    fun v hv legible => clean legible v (List.mem_filter.1 hv).1
  unfold Scan.declare
  generalize vars.filter (fun v => !v.ghost) = kept' at kept
  induction kept' generalizing s with
  | nil => exact h
  | cons v vars ih =>
    obtain ⟨first, rest⟩ := List.forall_mem_cons.1 kept
    exact ih (h.bind first) rest

theorem bindAll (h : s.Known m o owner C) {bindings : List (String × Ty)}
    (clean : ∀ b ∈ bindings, m.Legible → Clean b.1) :
    (bindings.foldl (fun s (name, ty) => s.bind ⟨name, ty, .patternVar⟩) s).Known m o owner C := by
  induction bindings generalizing s with
  | nil => exact h
  | cons b bindings ih =>
    obtain ⟨first, rest⟩ := List.forall_mem_cons.1 clean
    exact ih (h.bind first) rest

theorem openScope (h : s.Known m o owner C) : s.openScope.Known m o owner C :=
  { h with view := h.view }

/-- Closing a scope keeps it too. -/
theorem closeScope (h : s.Known m o owner C) : s.closeScope.Known m o owner C := by
  unfold Scan.closeScope
  split
  · exact h
  · exact { h with
      view := { h.view with
        scope := fun legible b hb => h.view.scope legible b (List.mem_of_mem_drop hb) } }

theorem emit (h : s.Known m o owner C) (new : List Candidate) :
    (s.emit o new).Known m o owner C :=
  { h with view := h.view }

/-- A branch that has been noted is recognised by its range. -/
theorem isChained (h : s.Known m o owner C) {span : Span} (hs : span ∈ C) :
    s.isChained span = true :=
  List.any_eq_true.2 ⟨span, h.chained span hs, Span.coincides_iff.2 ⟨rfl, rfl⟩⟩

/-- A statement that is entered announces its `else` branch. -/
theorem enterStmt (h : s.Known m o owner C) {st : Stmt}
    (names : m.Legible → ∀ n ∈ st.kind.naming, Clean n)
    (branch : ∀ b ∈ st.elseBranch?, b ∈ m.elseBranches) :
    (s.enterStmt st).Known m o owner (st.elseBranch?.toList.map Stmt.span ++ C) := by
  obtain ⟨kind, span, ghost⟩ := st
  cases kind with
  | ifElse guard thenBranch elseBranch =>
    cases elseBranch with
    | none => exact h
    | some b =>
      refine { h with
        chained := fun c hc => ?_
        branches := List.forall_mem_cons.2 ⟨⟨b, branch b rfl, rfl⟩, h.branches⟩ }
      rcases List.mem_cons.1 hc with rfl | hc
      · exact List.mem_cons_self
      · exact List.mem_cons_of_mem _ (h.chained c hc)
  | forLoop index start stop ascending invariants body =>
    refine { h with index := fun legible v hv => ?_ }
    cases hv
    exact names legible _ List.mem_cons_self
  | expr e => exact { h with view := { h.view with } }
  | _ => exact h

/-- The hooks of an expression or a list: what it suggests. -/
theorem emits {name : String} (h : s.Known m o (some name) C) (p : Place) :
    (s.emit o (p.proposals s.view)).Known m o (some name) C ∧
      ∃ new, (s.emit o (p.proposals s.view)).candidates = s.candidates ++ new ∧
        Offers m o [(name, p)] new :=
  ⟨h.emit _, _, rfl, .one h.view⟩

end Known

/-- In a declaration: a walk that keeps what is known, and adds the proposals at the places. -/
def Visits (m : Module) (o : ScanOptions) (name : String) (C : List Span) (ps : List Place)
    (walk : Scan → Flow Scan) : Prop :=
  Walks m o (Known m o (some name) C) (Known m o (some name) C) (ps.map (name, ·)) walk

variable {name : String} {ps qs : List Place} {f g : Scan → Flow Scan} {v : Survey Scan}

namespace Visits

theorem nil : Visits m o name C [] .go := .go fun _ => id

/-- Two walks visit the places of both in order. -/
theorem next (hf : Visits m o name C ps f) (hg : Visits m o name C qs g) :
    Visits m o name C (ps ++ qs) fun s => (f s).next g := by
  rw [Visits, List.map_append]
  exact Walks.next hf hg

/-- Clauses are passed over. -/
theorem clauses (hf : Visits m o name C ps f) (hv : Scanning o v) (cs : List (List Expr)) :
    Visits m o name C ps fun s => (f s).next (v.clauses cs) := by
  have walked : Visits m o name C (ps ++ []) fun s => (f s).next (v.clauses cs) :=
    hf.next (Walks.clauses hv cs)
  rwa [List.append_nil] at walked

theorem clause (hf : Visits m o name C ps f) (hv : Scanning o v) (es : List Expr) :
    Visits m o name C ps fun s => (f s).next (v.clause es) := by
  have walked : Visits m o name C (ps ++ []) fun s => (f s).next (v.clause es) :=
    hf.next (Walks.clause hv es)
  rwa [List.append_nil] at walked

/-- A walk around a node visits the places inside it, once the node itself has been offered. -/
theorem around (hv : Scanning o v) {node : Node} {C' : List Span}
    (enter : ∀ s, Known m o (some name) C s → Known m o (some name) C' (s.enter o node) ∧
      ∃ new, (s.enter o node).candidates = s.candidates ++ new ∧
        Offers m o (qs.map (name, ·)) new)
    (inside : Visits m o name C' ps f)
    (leave : ∀ s, Known m o (some name) C' s → Known m o (some name) C (s.leave node)) :
    Visits m o name C (qs ++ ps) (v.around node f) := by
  rw [Visits, List.map_append]
  exact Walks.around hv enter inside leave

/-- A node for which nothing is proposed. -/
theorem within (hv : Scanning o v) {node : Node}
    (quiet : ∀ s : Scan, (s.enter o node).candidates = s.candidates)
    (enter : ∀ s, Known m o (some name) C s → Known m o (some name) C (s.enter o node))
    (inside : Visits m o name C ps f)
    (leave : ∀ s, Known m o (some name) C s → Known m o (some name) C (s.leave node)) :
    Visits m o name C ps (v.around node f) :=
  Walks.within hv quiet enter inside leave

end Visits

/-- Some expressions are visited when each of them is. -/
theorem exprs_visits {es : List Expr}
    (h : ∀ e ∈ es, Visits m o name C (e.places .executable) (v.expr e)) :
    Visits m o name C (Expr.placesList .executable es) (v.exprs es) := by
  induction es with
  | nil => exact .nil
  | cons e es ih =>
    obtain ⟨first, rest⟩ := List.forall_mem_cons.1 h
    exact first.next (ih rest)

/-- An expression is visited with its parts, each before its own parts. -/
theorem expr_visits (hv : Scanning o v) (e : Expr) :
    Visits m o name C (e.places .executable) (v.expr e) := by
  induction e using Expr.induct with
  | step e ih =>
    obtain ⟨kind, span, ty⟩ := e
    rw [Expr.places_mk, if_pos (Coverage.executable_worth span)]
    have inside : Visits m o name C (kind.places .executable) (v.exprKind kind) := by
      by_cases old : ∃ x, kind = .old x
      · obtain ⟨x, rfl⟩ := old
        exact Walks.specified hv _
      · have other := fun x hx => old ⟨x, hx⟩
        rw [ExprKind.places_eq other]
        intro s hs
        rw [Survey.exprKind_eq v other]
        exact exprs_visits ih s hs
    have walked : Visits m o name C ([.expr ⟨kind, span, ty⟩] ++ kind.places .executable)
        (v.around (.expr ⟨kind, span, ty⟩) fun s => v.exprKind kind s) :=
      .around hv (fun s hs => hs.emits (.expr ⟨kind, span, ty⟩)) inside fun _ hs => hs
    intro s hs
    rw [Survey.expr, hv.worth, if_pos rfl]
    exact walked s hs

theorem exprList_visits (hv : Scanning o v) (es : List Expr) :
    Visits m o name C (Expr.placesList .executable es) (v.exprs es) :=
  exprs_visits fun e _ => expr_visits hv e

theorem exprOpt_visits (hv : Scanning o v) (e : Option Expr) :
    Visits m o name C (Expr.placesOpt .executable e) (v.exprOpt e) := by
  cases e with
  | none => exact .nil
  | some e => exact expr_visits hv e

/-- Of an assignment target only the index is walked. -/
theorem target_visits {e : Expr} (nodes : ∀ x ∈ e.aroundIndex, x ∈ m.targetNodes) :
    Visits m o name C (if Coverage.executable.target e then e.places .executable else [])
      fun s => Visit.enter ((survey o).target e s) ((survey o).expr e) := by
  obtain ⟨kind, span, ty⟩ := e
  cases kind with
  | index q i =>
    have walked : Coverage.executable.target ⟨.index q i, span, ty⟩ = true := rfl
    rw [if_pos walked, Expr.places_mk, if_pos (Coverage.executable_worth span), ExprKind.places,
      ← List.cons_append, Visits, List.map_append]
    have leftOut : ∀ j ∈ (Place.expr ⟨.index q i, span, ty⟩ :: q.places .executable).map (name, ·),
        m.LeftOut j.2 := by
      intro j hj
      obtain ⟨p, hp, rfl⟩ := List.mem_map.1 hj
      rcases List.mem_cons.1 hp with rfl | hp
      · exact nodes _ List.mem_cons_self
      · obtain ⟨x, rfl⟩ := Expr.mem_places_expr hp
        exact nodes x (List.mem_cons_of_mem _ (Expr.mem_nodes hp))
    intro s hs
    obtain ⟨s', new, eq, hs', added, offers⟩ := expr_visits (m := m) (C := C)
      (scanning_exprSurvey o) i s hs
    exact ⟨s', [] ++ new, by simp [survey, Visit.enter, eq, Flow.value], hs', added,
      (Offers.leftOut leftOut).append offers⟩
  | _ => exact .nil

/-- Of the targets only subscripts are visited; the nodes around them are left out. -/
theorem targets_visits {es : List Expr}
    (nodes : ∀ x ∈ es.flatMap Expr.aroundIndex, x ∈ m.targetNodes) :
    Visits m o name C (Expr.targetPlaces .executable es) ((survey o).targets es) := by
  induction es with
  | nil => exact .nil
  | cons e es ih =>
    rw [List.flatMap_cons] at nodes
    exact (target_visits fun x hx => nodes x (List.mem_append_left _ hx)).next
      (ih fun x hx => nodes x (List.mem_append_right _ hx))

/-- What a scan comes to at an element of a list: the element, then its inside. -/
theorem elements_visits {list : List Stmt}
    (h : ∀ t ∈ list, Visits m o name C (Stmt.placesList .executable [t]) ((survey o).stmt t)) :
    Visits m o name C (Stmt.placesList .executable list) ((survey o).elements list) := by
  induction list with
  | nil => exact .nil
  | cons t list ih =>
    obtain ⟨first, rest⟩ := List.forall_mem_cons.1 h
    rw [Stmt.placesList, Stmt.placesList, List.append_nil] at first
    exact first.next (ih rest)

/-- The inside of a block or case: what the list as a whole suggests comes before its elements. -/
theorem list_visits {b : Span × List Stmt}
    (h : ∀ t ∈ b.2, Visits m o name C (Stmt.placesList .executable [t]) ((survey o).stmt t)) :
    Visits m o name C (Stmt.heldPlaces .executable b) fun s =>
      Visit.enter ((survey o).stmtList b.2 s) ((survey o).elements b.2) := by
  have hook : ∀ s, Known m o (some name) C s → _ := fun s hs => hs.emits (.stmts b.2)
  exact Walks.after hook (elements_visits h)

/-- A block is visited as a list first, then element by element. -/
theorem block_visits {b : Block}
    (h : ∀ t ∈ b.stmts,
      Visits m o name C (Stmt.placesList .executable [t]) ((survey o).stmt t)) :
    Visits m o name C (b.places .executable) ((survey o).block b) := by
  rw [Block.places_eq]
  obtain ⟨list, span⟩ := b
  refine .within (scanning_survey o) (fun s => ?_) (fun s hs => ?_) (list_visits h)
    fun s hs => hs.closeScope
  · exact candidates_declare _ _
  · have clean : m.Legible → ∀ v ∈ s.index.toList, Clean v.name := fun legible v hv =>
      hs.index legible v (by simpa using hv)
    exact { hs.openScope.declare .loopIndex clean with index := by simp [enter] }

/-- The variables of a pattern are in scope in the body of its case. -/
theorem matchCases_visits {cases : List MatchCase}
    (names : ∀ c ∈ cases, m.Legible → ∀ n ∈ c.pattern.names, Clean n)
    (h : ∀ c ∈ cases, ∀ t ∈ c.body,
      Visits m o name C (Stmt.placesList .executable [t]) ((survey o).stmt t)) :
    Visits m o name C (MatchCase.placesList .executable cases) ((survey o).matchCases cases) := by
  induction cases with
  | nil => exact .nil
  | cons c cases ih =>
    obtain ⟨pattern, body, span⟩ := c
    have inside := list_visits (b := (span, body)) (h _ List.mem_cons_self)
    refine Visits.next (.within (scanning_survey o) (fun s => ?_) (fun s hs => ?_) inside
      fun s hs => hs.closeScope) (ih (fun c hc => names c (List.mem_cons_of_mem _ hc))
        fun c hc => h c (List.mem_cons_of_mem _ hc))
    · exact candidates_bindAll _
    · exact hs.openScope.bindAll fun b hb legible =>
        names _ List.mem_cons_self legible b.1 (List.mem_map_of_mem hb)

/-- The hooks of a statement: what it suggests, unless its span is that of an `else` branch. A
branch itself is known by then. -/
theorem Known.enter_stmt (h : s.Known m o (some name) C) {st : Stmt}
    (names : m.Legible → ∀ n ∈ st.kind.naming, Clean n)
    (announced : ∀ b ∈ st.elseBranch?, b ∈ m.elseBranches) {own : List Place}
    (place : own = [.element st] ∨ own = [] ∧ st.span ∈ C) :
    (s.enter o (.stmt st)).Known m o (some name) (st.elseBranch?.toList.map Stmt.span ++ C) ∧
      ∃ new, (s.enter o (.stmt st)).candidates = s.candidates ++ new ∧
        Offers m o (own.map (name, ·)) new := by
  have entered := h.enterStmt names announced
  simp only [Scan.enter]
  split
  · rename_i chained
    refine ⟨entered, [], by simp, ?_⟩
    rcases place with rfl | ⟨rfl, -⟩
    · obtain ⟨c, hc, same⟩ := List.any_eq_true.1 chained
      obtain ⟨b, hb, rfl⟩ := entered.branches c hc
      refine .leftOut fun i hi => ?_
      obtain rfl := List.mem_singleton.1 hi
      exact ⟨b, hb, same⟩
    · exact .nil
  · rename_i notChained
    rcases place with rfl | ⟨-, branch⟩
    · obtain ⟨known, new, added, offers⟩ := entered.emits (.element st)
      exact ⟨known, new, added.trans (by rw [candidates_enterStmt]), offers⟩
    · exact absurd (entered.isChained (List.mem_append_right _ branch)) notChained

/-- Leaving a declaration brings its locals into scope. -/
theorem Known.leave_stmt {owner : Option String} (h : s.Known m o owner C) {st : Stmt}
    (names : m.Legible → ∀ n ∈ st.kind.naming, Clean n) :
    (s.leave (.stmt st)).Known m o owner C := by
  obtain ⟨kind, span, ghost⟩ := st
  cases kind with
  | varDecl d =>
    exact h.declare .local fun legible v hv => names legible _ (List.mem_map_of_mem hv)
  | expr e => exact { h with view := { h.view with } }
  | _ => exact h

/-- The inside of a statement. -/
theorem stmtKind_visits {st : Stmt} (names : m.Legible → ∀ n ∈ st.kind.naming, Clean n)
    (nodes : ∀ x ∈ st.targetNodes, x ∈ m.targetNodes)
    (lists : ∀ b ∈ st.kind.lists, ∀ t ∈ b.2,
      Visits m o name C (Stmt.placesList .executable [t]) ((survey o).stmt t))
    (branch : ∀ t ∈ st.elseBranch?,
      Visits m o name C (t.places .executable) ((survey o).stmt t)) :
    Visits m o name C (st.kind.places .executable) ((survey o).stmtKind st.kind) := by
  have hv := scanning_survey o
  obtain ⟨kind, span, ghost⟩ := st
  cases kind with
  | varDecl d =>
    obtain ⟨locals, init⟩ := d
    cases init with
    | none => exact .nil
    | some init => exact exprList_visits hv init.values
  | update u => exact (targets_visits nodes).next (exprList_visits hv u.values)
  | expr e => exact expr_visits hv e
  | assert e => exact expr_visits hv e
  | assume e => exact expr_visits hv e
  | ret es => exact exprList_visits hv es
  | print es => exact exprList_visits hv es
  | breakLoop => exact .nil
  | continueLoop => exact .nil
  | block b => exact block_visits (lists _ List.mem_cons_self)
  | ifElse guard thenBranch elseBranch =>
    refine ((exprOpt_visits hv guard).next (block_visits (lists _ List.mem_cons_self))).next ?_
    cases elseBranch with
    | none => exact .nil
    | some t => exact branch t rfl
  | whileLoop guard invariants decreases body =>
    simp only [StmtKind.places, Expr.clausePlaces_executable, List.append_nil]
    exact ((exprOpt_visits hv guard).clauses hv [invariants, decreases]).next
      (block_visits (lists _ List.mem_cons_self))
  | forLoop index start stop ascending invariants body =>
    simp only [StmtKind.places, Expr.clausePlaces_executable, List.append_nil]
    exact (((expr_visits hv start).next (exprOpt_visits hv stop)).clause hv invariants).next
      (block_visits (lists _ List.mem_cons_self))
  | matchOn source cases =>
    refine (expr_visits hv source).next
      (matchCases_visits (fun c hc legible n hn => ?_) fun c hc => ?_)
    · exact names legible n (List.mem_flatMap.2 ⟨c, hc, List.mem_append_right _ hn⟩)
    · exact lists _ (List.mem_map_of_mem hc)

/-- Where a list is in the executable code, so is each statement of it with its inside. -/
theorem found_of_listed {list : List Stmt}
    (listed : ∀ p ∈ Stmt.placesList .executable list, (name, p) ∈ m.places .executable) {t : Stmt}
    (ht : t ∈ list) : (t.context = .executable → ∀ u ∈ t :: t.branches, u ∈ m.statements) ∧
      ∀ p ∈ t.places .executable, (name, p) ∈ m.places .executable := by
  constructor
  · intro executable u hu
    exact Module.mem_statements (listed _ (Stmt.mem_placesList.2
      ⟨t, ht, ⟨decide_eq_true executable, rfl⟩, .inl rfl⟩)) hu
  · intro p hp
    exact listed p (Stmt.mem_placesList.2 ⟨t, ht, (Stmt.mem_places.1 hp).1, .inr hp⟩)

/-- A statement: itself in its list, then its inside. An `else` branch is in no list. -/
theorem stmt_visits {st : Stmt} (legible : m.Legible → st.Legible) {own : List Place}
    (place : own = [.element st] ∨ own = [] ∧ st.span ∈ C)
    (found : st.context = .executable → ∀ t ∈ st :: st.branches, t ∈ m.statements)
    (inside : ∀ p ∈ st.places .executable, (name, p) ∈ m.places .executable) :
    Visits m o name C
      (if Coverage.executable.admits st.context && Coverage.executable.worth st.span then
        own ++ st.places .executable else []) ((survey o).stmt st) := by
  induction st using Stmt.induct generalizing C own with
  | step st ihLists ihBranch =>
    have names : m.Legible → ∀ n ∈ st.kind.naming, Clean n := fun h => (legible h).names
    by_cases executable : st.context = .executable
    · have admitted : Coverage.executable.admits st.context = true := decide_eq_true executable
      have held : ∀ p ∈ st.kind.places .executable, (name, p) ∈ m.places .executable :=
        fun p hp => inside p (Stmt.mem_places.2 ⟨⟨admitted, rfl⟩, hp⟩)
      have own' := found executable st List.mem_cons_self
      have walked : Visits m o name C (own ++ st.kind.places .executable)
          ((survey o).around (.stmt st) ((survey o).stmtKind st.kind)) := by
        refine .around (scanning_survey o)
          (fun s hs => hs.enter_stmt names (fun b hb => Module.mem_elseBranches own' hb) place)
          (stmtKind_visits names (fun x hx => List.mem_flatMap.2 ⟨st, own', hx⟩)
            (fun b hb t ht => ?_) fun t ht => ?_)
          fun s hs => (hs.leave_stmt names).weaken fun c hc => List.mem_append_right _ hc
        · have listed : ∀ p ∈ Stmt.placesList .executable b.2, (name, p) ∈ m.places .executable :=
            fun p hp => held p (Stmt.mem_inside.2 (.inr (.inl ⟨b, hb, List.mem_cons_of_mem _ hp⟩)))
          obtain ⟨foundHere, within⟩ := found_of_listed listed ht
          rw [Stmt.placesList, Stmt.placesList, List.append_nil]
          exact ihLists b hb t ht (fun h => (legible h).lists b hb t ht) (.inl rfl) foundHere within
        · have known : t.span ∈ st.elseBranch?.toList.map Stmt.span ++ C :=
            List.mem_append_left _ (List.mem_map_of_mem (by simpa using ht))
          have visited := ihBranch t ht (fun h => (legible h).branch t ht) (.inr ⟨rfl, known⟩)
            (fun _ u hu => found executable u (List.mem_cons_of_mem _ (Stmt.mem_branches ht hu)))
            fun p hp => held p (Stmt.mem_inside.2 (.inr (.inr ⟨t, ht, hp⟩)))
          rwa [List.nil_append, Stmt.places_gated] at visited
      obtain ⟨kind, span, ghost⟩ := st
      rw [Stmt.places, admitted, Coverage.executable_worth]
      intro s hs
      rw [Survey.stmt]
      simp only [executable, Survey.within, if_true]
      exact walked s hs
    · have passed : Coverage.executable.admits st.context = false := decide_eq_false executable
      rw [passed]
      obtain ⟨kind, span, ghost⟩ := st
      intro s hs
      refine ⟨s, [], ?_, hs, (List.append_nil _).symm, .nil⟩
      rw [Survey.stmt]
      refine if_neg fun gate => executable ?_
      exact (scanning_survey o).executable (Bool.and_eq_true_iff.1 gate).1

/-- The body of a method. -/
theorem body_visits {body : Option Block}
    (legible : m.Legible → ∀ b, body = some b → ∀ t ∈ b.stmts, t.Legible)
    (inside : ∀ p ∈ Block.placesOpt .executable body, (name, p) ∈ m.places .executable) :
    Visits m o name C (Block.placesOpt .executable body) ((survey o).blockOpt body) := by
  cases body with
  | none => exact .nil
  | some b =>
    have listed : ∀ p ∈ Stmt.placesList .executable b.stmts,
        (name, p) ∈ m.places .executable := by
      intro p hp
      refine inside p ?_
      rw [Block.placesOpt, Block.places_eq]
      exact List.mem_cons_of_mem _ hp
    refine block_visits fun t ht => ?_
    obtain ⟨found, within⟩ := found_of_listed listed ht
    rw [Stmt.placesList, Stmt.placesList, List.append_nil]
    exact stmt_visits (fun h => legible h b rfl t ht) (.inl rfl) found within

/-- The inside of a member. -/
theorem memberKind_visits {x : Member} (legible : m.Legible → x.Legible)
    (inside : ∀ p ∈ x.inside .executable, (name, p) ∈ m.places .executable) :
    Visits m o name C (x.inside .executable) ((survey o).memberKind x) := by
  have hv := scanning_survey o
  have clean := fun h => (legible h).formals
  cases x with
  | field f => exact .within hv (fun _ => rfl) (fun _ hs => hs) .nil fun _ hs => hs
  | method d =>
    have body : Visits m o name C (Block.placesOpt .executable d.body)
        ((survey o).blockOpt d.body) :=
      body_visits (fun h => (legible h).body d rfl) fun p hp =>
        inside p (List.mem_append_right _ hp)
    refine .within hv (fun s => ?_) (fun s hs => ?_) (Visits.next (Walks.clauses hv _) body)
      fun s hs => { hs.closeScope with view := { hs.closeScope.view with } }
    · exact (candidates_declare _ _).trans (candidates_declare _ _)
    · have opened : Known m o (some name) C
          { s.openScope with view := { s.view with inStatic := d.isStatic } } :=
        { hs.openScope with view := { hs.view with } }
      exact (opened.declare .param fun h v hv => clean h v (List.mem_append_left _ hv)).declare .out
        fun h v hv => clean h v (List.mem_append_right _ hv)
  | function f =>
    refine .within hv (fun s => ?_) (fun s hs => ?_)
      (Visits.next (Walks.clauses hv _) (exprOpt_visits hv f.body))
      fun s hs => { hs.closeScope with view := { hs.closeScope.view with } }
    · exact candidates_declare _ _
    · have opened : Known m o (some name) C
          { s.openScope with view := { s.view with inStatic := f.isStatic } } :=
        { hs.openScope with view := { hs.view with } }
      exact opened.declare .param clean

/-- A member; what is in a ghost member is neither scanned nor a place. -/
theorem member_visits {x : Member} (legible : m.Legible → x.Legible)
    (inside : ∀ p ∈ x.places .executable, (name, p) ∈ m.places .executable) :
    Visits m o name C (x.places .executable) ((survey o).member x) := by
  by_cases executable : x.context = .executable
  · have admitted : Coverage.executable.admits x.context = true := decide_eq_true executable
    have opened : x.places .executable = x.inside .executable := by
      rw [Member.places, admitted, Coverage.executable_worth]
      rfl
    rw [opened] at inside ⊢
    intro s hs
    rw [Survey.member]
    simp only [executable, Survey.within, if_true]
    exact memberKind_visits legible inside s hs
  · have passed : Coverage.executable.admits x.context = false := decide_eq_false executable
    intro s hs
    rw [Member.places, passed]
    refine ⟨s, [], ?_, hs, (List.append_nil _).symm, .nil⟩
    rw [Survey.member]
    exact if_neg fun gate =>
      executable ((scanning_survey o).executable (Bool.and_eq_true_iff.1 gate).1)

/-- The members of a declaration are visited as a list first. -/
theorem members_visits {xs : List Member} (legible : ∀ x ∈ xs, m.Legible → x.Legible)
    (inside : ∀ p ∈ Member.placesList .executable xs, (name, p) ∈ m.places .executable) :
    Visits m o name C (.members xs :: Member.placesList .executable xs) ((survey o).members xs) := by
  have each : Visits m o name C (Member.placesList .executable xs) ((survey o).eachMember xs) := by
    induction xs with
    | nil => exact .nil
    | cons x xs ih =>
      obtain ⟨named, others⟩ := List.forall_mem_cons.1 legible
      exact (member_visits named fun p hp => inside p (List.mem_append_left _ hp)).next
        (ih others fun p hp => inside p (List.mem_append_right _ hp))
  have hook : ∀ s, Known m o (some name) C s → _ := fun s hs => hs.emits (.members xs)
  exact Walks.after hook each

/-- In a declaration, its name is known. -/
theorem decl_walks {d : Decl} (legible : ∀ x ∈ d.members, m.Legible → x.Legible)
    (inside : ∀ p ∈ d.places .executable, (d.name, p) ∈ m.places .executable) :
    Walks m o (Known m o none C) (Known m o none C) ((d.places .executable).map (d.name, ·))
      ((survey o).decl d) := by
  have hv := scanning_survey o
  have walked := members_visits (C := C) (o := o) legible fun p hp =>
    inside p (List.mem_cons_of_mem _ hp)
  cases d with
  | «class» c =>
    refine Walks.within hv (fun _ => rfl) (fun s hs => ?_) walked fun s hs => ?_
    · exact { hs with view := { hs.view with enclosing := rfl } }
    · exact { hs with view := { hs.view with enclosing := rfl } }
  | datatype d =>
    refine Walks.within hv (fun _ => rfl) (fun s hs => ?_) walked fun s hs => ?_
    · exact { hs with view := { hs.view with enclosing := rfl } }
    · exact { hs with view := { hs.view with enclosing := rfl } }

/-- Each declaration is visited under its own name. -/
theorem decls_walks {ds : List Decl}
    (legible : ∀ d ∈ ds, ∀ x ∈ d.members, m.Legible → x.Legible)
    (inside : ∀ i ∈ Decl.placesList .executable ds, i ∈ m.places .executable) :
    Walks m o (Known m o none C) (Known m o none C) (Decl.placesList .executable ds)
      ((survey o).decls ds) := by
  induction ds with
  | nil => exact .go fun _ => id
  | cons d ds ih =>
    obtain ⟨named, others⟩ := List.forall_mem_cons.1 legible
    exact (decl_walks named fun p hp => inside _ (List.mem_append_left _ (List.mem_map_of_mem hp))).next
      (ih others fun i hi => inside i (List.mem_append_right _ hi))

end

end Scan

section

variable {m : Module} {o : ScanOptions}

/-- The candidates of a module are the proposals at the places of its executable code. -/
theorem Module.scan_offers (m : Module) (o : ScanOptions) :
    Offers m o (m.places .executable) (m.scan o) := by
  have start : Scan.Known m o none []
      { view := { declarations := m.declarations, sentinel := o.sentinel } } :=
    ⟨⟨rfl, rfl, rfl, by simp⟩, by simp, by simp, by simp⟩
  have walked : Scan.Walks m o (Scan.Known m o none []) (Scan.Known m o none [])
      (m.places .executable) ((Scan.survey o).module m) :=
    .within (Scan.scanning_survey o) (fun _ => rfl) (fun _ hs => hs)
      (Scan.decls_walks (fun d hd x hx legible => legible.members d hd x hx) fun _ hi => hi) fun _ hs => hs
  obtain ⟨s, new, eq, -, added, offers⟩ := walked _ start
  have all : m.scan o = new := by
    rw [Module.scan]
    simp [eq, Flow.value, added]
  rwa [all]

/-- Every candidate is proposed at a place of the executable code. -/
theorem Module.exists_of_mem_scan {c : Candidate} (hc : c ∈ m.scan o) :
    ∃ i ∈ m.places .executable, ∃ v : View, v.Fits m o (some i.1) ∧ c ∈ i.2.proposals v :=
  (m.scan_offers o).placed c hc

end

end Mutation
