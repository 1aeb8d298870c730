import Mutation.Proofs.Proposed
import Mutation.Walk.Trace

/-!
# The course of a scan

The walk of a scan never ends early, and what it passes over does not depend on what it has seen.
So the hooks it calls are a list that the module alone decides, its *course*, and a scan is the fold
of what a hook call does (`Scan.step`) over the course of the module (`Module.scan_eq_course`). What
holds in every state of a scan is then an invariant of single steps (`Scan.follow_invariant`), and
what is handed down through a module holds at every node of its course (`Hereditary.course`).

Of an assignment target only the subscript is on the course. Leaving an expression does nothing,
so the course of an expression is the list of its nodes, each before its parts.
-/

namespace Mutation

namespace Scan

/-- What a scan does when a hook is called; hooks that it does not have do nothing. -/
def step (o : ScanOptions) (s : Scan) : Event → Scan
  | .visit node => s.enter o node
  | .leave node => s.leave node
  | .stmtList list => s.emit o (Stmt.exchanges list)
  | .memberList list => s.emit o (Member.exchanges list)
  | _ => s

/-- The scan after some hook calls. -/
def follow (o : ScanOptions) (s : Scan) (course : List Event) : Scan := course.foldl (step o) s

end Scan

/-- The hook calls around those inside of a node. -/
def Node.around (node : Node) (inside : List Event) : List Event :=
  .visit node :: (inside ++ [.leave node])

namespace Expr

/-- The hook calls of a scan at an expression. -/
def course (e : Expr) : List Event :=
  ((e.places .executable).filterMap Place.expr?).map fun x => .visit (.expr x)

/-- The hook calls of a scan at some expressions. -/
def courses (es : List Expr) : List Event := es.flatMap course

/-- The hook calls of a scan at a target of an assignment. -/
def targetCourse (e : Expr) : List Event :=
  match e.kind with
  | .index _ i => i.course
  | _ => []

end Expr

/-- The values of a declaration. -/
def VarDecl.values (d : VarDecl) : List Expr := (d.init.map Update.values).getD []

mutual
/-- The hook calls of a scan at a statement; only executable ones are entered. -/
def Stmt.course : Stmt → List Event
  | ⟨kind, span, ghost⟩ =>
    if Stmt.context ⟨kind, span, ghost⟩ = .executable then
      Node.around (.stmt ⟨kind, span, ghost⟩) kind.course
    else []

def StmtKind.course : StmtKind → List Event
  | .varDecl d => Expr.courses d.values
  | .update u => u.targets.flatMap Expr.targetCourse ++ Expr.courses u.values
  | .expr e | .assert e | .assume e => e.course
  | .ret es | .print es => Expr.courses es
  | .ifElse guard thenBranch elseBranch =>
    Expr.courses guard.toList ++ thenBranch.course ++ Stmt.courseOpt elseBranch
  | .whileLoop guard _ _ body => Expr.courses guard.toList ++ body.course
  | .forLoop _ start stop _ _ body => Expr.courses (start :: stop.toList) ++ body.course
  | .breakLoop | .continueLoop => []
  | .block b => b.course
  | .matchOn source cases => source.course ++ MatchCase.courses cases

def Block.course : Block → List Event
  | ⟨list, span⟩ => Node.around (.block ⟨list, span⟩) (.stmtList list :: Stmt.courses list)

def Stmt.courses : List Stmt → List Event
  | [] => []
  | s :: list => s.course ++ Stmt.courses list

/-- The hook calls of a scan at a statement that may be missing. -/
def Stmt.courseOpt : Option Stmt → List Event
  | none => []
  | some s => s.course

def MatchCase.courses : List MatchCase → List Event
  | [] => []
  | ⟨pattern, body, span⟩ :: cases =>
    Node.around (.case ⟨pattern, body, span⟩) (.stmtList body :: Stmt.courses body) ++
      MatchCase.courses cases
end

/-- The hook calls of a scan at a member; only executable ones are entered. -/
def Member.course (x : Member) : List Event :=
  if x.isGhost then []
  else
    match x with
    | .field f => Node.around (.field f) []
    | .method d => Node.around (.method d) (d.body.toList.flatMap Block.course)
    | .function f => Node.around (.function f) (Expr.courses f.body.toList)

/-- The node of a declaration. -/
def Decl.node : Decl → Node
  | .class c => .class c
  | .datatype d => .datatype d

/-- The hook calls of a scan at a declaration. -/
def Decl.course (d : Decl) : List Event :=
  d.node.around (.memberList d.members :: d.members.flatMap Member.course)

/-- The hook calls of a scan. -/
def Module.course (m : Module) : List Event :=
  Node.around (.module m) (m.decls.flatMap Decl.course)

/-- A scan before its first hook call. -/
def Module.startScan (m : Module) (o : ScanOptions) : Scan :=
  { view := { declarations := m.declarations, sentinel := o.sentinel } }

namespace Scan

variable {o : ScanOptions} {c d : List Event} {f g : Scan → Flow Scan} {v : Survey Scan}

/-- Following two courses after each other is following the one put together of them. -/
theorem follow_append (s : Scan) :
    s.follow o (c ++ d) = (s.follow o c).follow o d :=
  List.foldl_append

/-- What single steps keep, a scan keeps. -/
theorem follow_invariant {I : Scan → Prop} (keeps : ∀ e ∈ c, ∀ s, I s → I (s.step o e)) {s : Scan}
    (start : I s) : I (s.follow o c) := by
  induction c generalizing s with
  | nil => exact start
  | cons e c ih =>
    obtain ⟨first, rest⟩ := List.forall_mem_cons.1 keeps
    exact ih rest (first s start)

/-- The walk calls these hooks. -/
def Follows (o : ScanOptions) (walk : Scan → Flow Scan) (c : List Event) : Prop :=
  ∀ s, walk s = .go (s.follow o c)

namespace Follows

theorem nil : Follows o .go [] := fun _ => rfl

/-- Two walks after each other follow their courses after each other. -/
theorem next (hf : Follows o f c) (hg : Follows o g d) :
    Follows o (fun s => (f s).next g) (c ++ d) := by
  intro s
  dsimp only
  rw [hf s, Flow.next, hg, follow_append]

/-- A node is visited, its inside is walked, and then it is left. -/
theorem around (hv : Scanning o v) {node : Node} (inside : Follows o f c) :
    Follows o (v.around node f) (node.around c) := by
  intro s
  rw [Survey.around, hv.visit, Visit.enter, inside, Flow.next, hv.leave, Node.around]
  exact congrArg Flow.go (follow_append (d := [.leave node]) (s.enter o node)).symm

/-- Clauses are passed over. -/
theorem clause (hv : Scanning o v) (es : List Expr) : Follows o (v.clause es) [] := by
  intro s
  rw [Survey.clause, Survey.specified, hv.specifications, if_neg Bool.false_ne_true, ite_self]
  rfl

/-- Clauses are specifications, which a scan passes over. -/
theorem clauses (hv : Scanning o v) (cs : List (List Expr)) : Follows o (v.clauses cs) [] := by
  induction cs with
  | nil => exact .nil
  | cons c cs ih => exact (clause hv c).next ih

/-- A list of expressions is followed when each of them is. -/
theorem exprs {es : List Expr} (h : ∀ e ∈ es, Follows o (v.expr e) e.course) :
    Follows o (v.exprs es) (Expr.courses es) := by
  induction es with
  | nil => exact .nil
  | cons e es ih =>
    obtain ⟨first, rest⟩ := List.forall_mem_cons.1 h
    exact first.next (ih rest)

end Follows

end Scan

/-- The expressions of a list in the order of their places are the courses of its members. -/
theorem Expr.course_placesList (es : List Expr) :
    ((Expr.placesList .executable es).filterMap Place.expr?).map (fun x => Event.visit (.expr x)) =
      Expr.courses es := by
  induction es with
  | nil => rfl
  | cons e es ih =>
    rw [Expr.placesList, List.filterMap_append, List.map_append, ih]
    rfl

/-- An expression comes before its parts; the inside of `old` is passed over. -/
theorem Expr.course_eq (e : Expr) (old : ∀ x, e.kind ≠ .old x) :
    e.course = .visit (.expr e) :: Expr.courses e.kind.parts := by
  obtain ⟨kind, span, ty⟩ := e
  rw [Expr.course, Expr.places_mk, if_pos (Coverage.executable_worth span), ExprKind.places_eq old,
    ← Expr.course_placesList]
  rfl

/-- Of an `old` expression only the node itself is visited. -/
theorem Expr.course_old {e x : Expr} (old : e.kind = .old x) : e.course = [.visit (.expr e)] := by
  obtain ⟨kind, span, ty⟩ := e
  obtain rfl := old
  rfl

section

variable {o : ScanOptions} {v : Survey Scan}

open Scan (Follows Scanning scanning_survey scanning_exprSurvey)

/-- A walk with the hooks of a scan follows the course of an expression. -/
theorem Expr.follows (hv : Scanning o v) (e : Expr) : Follows o (v.expr e) e.course := by
  induction e using Expr.induct with
  | step e ih =>
    obtain ⟨kind, span, ty⟩ := e
    intro s
    rw [Survey.expr, hv.worth, if_pos rfl, Survey.around, hv.visit, Visit.enter]
    by_cases old : ∃ x, kind = .old x
    · obtain ⟨x, rfl⟩ := old
      rw [Expr.course_old rfl, Survey.exprKind, Survey.specified, hv.specifications,
        if_neg Bool.false_ne_true, Flow.next, hv.leave]
      rfl
    · have other := fun x hx => old ⟨x, hx⟩
      rw [Expr.course_eq _ other, Survey.exprKind_eq v other, Scan.Follows.exprs ih, Flow.next,
        hv.leave]
      rfl

/-- The same of a list. -/
theorem Expr.follows_list (hv : Scanning o v) (es : List Expr) :
    Follows o (v.exprs es) (Expr.courses es) :=
  .exprs fun e _ => e.follows hv

/-- The same of an expression that may be absent. -/
theorem Expr.follows_opt (hv : Scanning o v) (e : Option Expr) :
    Follows o (v.exprOpt e) (Expr.courses e.toList) := by
  cases e with
  | none => exact .nil
  | some e =>
    have walked : Expr.courses (some e).toList = e.course := List.append_nil _
    rw [walked]
    exact e.follows hv

/-- Of the targets only the subscripts are followed. -/
theorem Expr.follows_targets (es : List Expr) :
    Follows o ((Scan.survey o).targets es) (es.flatMap Expr.targetCourse) := by
  induction es with
  | nil => exact .nil
  | cons e es ih =>
    refine Scan.Follows.next (fun s => ?_) ih
    obtain ⟨kind, span, ty⟩ := e
    cases kind with
    | index q i =>
      simp only [Scan.survey, Visit.enter, i.follows (scanning_exprSurvey o) s, Flow.value,
        Expr.targetCourse]
    | _ => rfl

/-- The same of the values of a declaration. -/
theorem VarDecl.follows (d : VarDecl) :
    Follows o ((Scan.survey o).varDecl d) (Expr.courses d.values) := by
  obtain ⟨locals, init⟩ := d
  cases init with
  | none => exact .nil
  | some init => exact Expr.follows_list (scanning_survey o) init.values

mutual
/-- A scan's walk of a statement follows its course: what is not executable has none. -/
theorem Stmt.follows : (s : Stmt) → Follows o ((Scan.survey o).stmt s) s.course
  | ⟨kind, span, ghost⟩ => by
    have inside : Follows o _ (Node.around (.stmt ⟨kind, span, ghost⟩) kind.course) :=
      (StmtKind.follows kind).around (scanning_survey o)
    intro s
    rw [Survey.stmt, Stmt.course]
    cases context : Stmt.context ⟨kind, span, ghost⟩ with
    | executable =>
      have walked : ((Scan.survey o).admits .executable s && (Scan.survey o).worth s span) = true :=
        rfl
      rw [if_pos walked, if_pos rfl]
      exact inside s
    | specification | ghost => rfl

/-- One case per form, put together of the courses of its parts. -/
theorem StmtKind.follows :
    (kind : StmtKind) → Follows o ((Scan.survey o).stmtKind kind) kind.course
  | .varDecl d => d.follows
  | .update u =>
    (Expr.follows_targets u.targets).next (Expr.follows_list (scanning_survey o) u.values)
  | .expr e | .assert e | .assume e => e.follows (scanning_survey o)
  | .ret es | .print es => Expr.follows_list (scanning_survey o) es
  | .ifElse guard thenBranch elseBranch =>
    ((Expr.follows_opt (scanning_survey o) guard).next (Block.follows thenBranch)).next
      (Stmt.follows_opt elseBranch)
  | .whileLoop guard invariants decreases body => by
    have before := (Expr.follows_opt (scanning_survey o) guard).next
      (.clauses (scanning_survey o) [invariants, decreases])
    rw [List.append_nil] at before
    exact before.next (Block.follows body)
  | .forLoop _ start stop _ invariants body => by
    have before := ((start.follows (scanning_survey o)).next
      (Expr.follows_opt (scanning_survey o) stop)).next (.clause (scanning_survey o) invariants)
    rw [List.append_nil] at before
    exact before.next (Block.follows body)
  | .breakLoop | .continueLoop => .nil
  | .block b => Block.follows b
  | .matchOn source cases =>
    (source.follows (scanning_survey o)).next (MatchCase.follows_list cases)

/-- The same of a block, whose list is announced before its statements. -/
theorem Block.follows : (b : Block) → Follows o ((Scan.survey o).block b) b.course
  | ⟨list, span⟩ => by
    have inside : Follows o (fun s => Visit.enter ((Scan.survey o).stmtList list s) fun s =>
        (Scan.survey o).elements list s) (.stmtList list :: Stmt.courses list) :=
      fun s => Stmt.follows_list list _
    exact inside.around (scanning_survey o)

/-- The same of the statements of a list. -/
theorem Stmt.follows_list :
    (list : List Stmt) → Follows o ((Scan.survey o).elements list) (Stmt.courses list)
  | [] => .nil
  | s :: list => (Stmt.follows s).next (Stmt.follows_list list)

/-- The same of a branch that may be absent. -/
theorem Stmt.follows_opt :
    (s : Option Stmt) → Follows o ((Scan.survey o).stmtOpt s) (Stmt.courseOpt s)
  | none => .nil
  | some s => Stmt.follows s

/-- The same of the cases of a match. -/
theorem MatchCase.follows_list :
    (cases : List MatchCase) → Follows o ((Scan.survey o).matchCases cases) (MatchCase.courses cases)
  | [] => .nil
  | ⟨pattern, body, span⟩ :: cases => by
    have inside : Follows o (fun s => Visit.enter ((Scan.survey o).stmtList body s) fun s =>
        (Scan.survey o).elements body s) (.stmtList body :: Stmt.courses body) :=
      fun s => Stmt.follows_list body _
    exact (inside.around (scanning_survey o)).next (MatchCase.follows_list cases)
end

/-- A scan's walk of a member follows its course: a contract has none. -/
theorem Member.follows (x : Member) : Follows o ((Scan.survey o).member x) x.course := by
  have hv := scanning_survey o
  intro s
  unfold Survey.member Member.course Member.context
  cases ghost : x.isGhost with
  | true => rfl
  | false =>
    have walked : ((Scan.survey o).admits .executable s && (Scan.survey o).worth s x.span) = true :=
      rfl
    rw [if_neg Bool.false_ne_true, if_neg Bool.false_ne_true, if_pos walked]
    cases x with
    | field f => exact Follows.nil.around hv s
    | method d =>
      have body : Follows o ((Scan.survey o).blockOpt d.body) (d.body.toList.flatMap Block.course) := by
        cases d.body with
        | none => exact .nil
        | some b =>
          have walked : (some b).toList.flatMap Block.course = b.course := List.append_nil _
          rw [walked]
          exact b.follows
      exact ((Follows.clauses hv d.contract.clauses).next body).around hv s
    | function f =>
      exact ((Follows.clauses hv f.contract.clauses).next (Expr.follows_opt hv f.body)).around hv s

/-- The same of the members of a declaration. -/
theorem Member.follows_list (list : List Member) :
    Follows o ((Scan.survey o).eachMember list) (list.flatMap Member.course) := by
  induction list with
  | nil => exact .nil
  | cons x list ih => exact x.follows.next ih

/-- The same of a declaration, whose members are announced before they are walked. -/
theorem Decl.follows (d : Decl) : Follows o ((Scan.survey o).decl d) d.course := by
  have inside : Follows o ((Scan.survey o).members d.members)
      (.memberList d.members :: d.members.flatMap Member.course) :=
    fun s => Member.follows_list d.members _
  cases d <;> exact inside.around (scanning_survey o)

/-- The same of all declarations. -/
theorem Decl.follows_list (list : List Decl) :
    Follows o ((Scan.survey o).decls list) (list.flatMap Decl.course) := by
  induction list with
  | nil => exact .nil
  | cons d list ih => exact d.follows.next ih

/-- The run: a scan of a module follows the course of the module. -/
theorem Module.follows (m : Module) : Follows o ((Scan.survey o).module m) m.course :=
  (Decl.follows_list m.decls).around (scanning_survey o)

end

/-- A scan is what the hook calls on the course of the module come to. -/
theorem Module.scan_eq_course (m : Module) (o : ScanOptions) :
    m.scan o = ((m.startScan o).follow o m.course).candidates := by
  rw [Module.scan]
  exact congrArg (fun s => s.value.candidates) (m.follows (m.startScan o))

/-- The nodes around which a hook is called have certain properties; so has the statement that a
case belongs to. -/
def Node.All (M : Member → Prop) (S : Stmt → Prop) (E : Expr → Prop) : Node → Prop
  | .module _ => True
  | .class c => ∀ x ∈ c.members, M x
  | .datatype d => ∀ x ∈ d.members, M x
  | .field f => M (.field f)
  | .method d => M (.method d)
  | .function f => M (.function f)
  | .block b => ∀ s ∈ b.stmts, S s
  | .stmt s => S s
  | .case c => ∃ s source cases, S s ∧ s.kind = .matchOn source cases ∧ c ∈ cases
  | .expr e => E e

/-- The nodes about which a hook is called have certain properties. -/
def Event.All (M : Member → Prop) (S : Stmt → Prop) (E : Expr → Prop) : Event → Prop
  | .visit node | .leave node => node.All M S E
  | .stmtList list => ∀ s ∈ list, S s
  | .memberList list => ∀ x ∈ list, M x
  | _ => True

namespace Hereditary

variable {M : Member → Prop} {S : Stmt → Prop} {E : Expr → Prop}

/-- What holds of a node and of all calls inside it holds of the course around it. -/
theorem around_course {node : Node} {inside : List Event} (hn : node.All M S E)
    (hi : ∀ e ∈ inside, e.All M S E) : ∀ e ∈ node.around inside, e.All M S E :=
  List.forall_mem_cons.2 ⟨hn, List.forall_mem_append.2 ⟨hi, List.forall_mem_singleton.2 hn⟩⟩

/-- What is handed down from an expression to its parts holds at every call of its course. -/
theorem expr_course (h : Hereditary M S E) {x : Expr} (hx : E x) :
    ∀ e ∈ x.course, e.All M S E := by
  intro e he
  obtain ⟨y, hy, rfl⟩ := List.mem_map.1 he
  obtain ⟨p, hp, same⟩ := List.mem_filterMap.1 hy
  have kept := h.ofExpr hx hp
  cases p <;> cases same
  exact kept

/-- The same of a list of expressions. -/
theorem exprs_course (h : Hereditary M S E) {es : List Expr} (hes : ∀ x ∈ es, E x) :
    ∀ e ∈ Expr.courses es, e.All M S E := by
  intro e he
  obtain ⟨x, hx, he⟩ := List.mem_flatMap.1 he
  exact h.expr_course (hes x hx) e he

/-- A subscript is part of an index expression, the only kind of target that is walked. -/
theorem targets_course (h : Hereditary M S E) {es : List Expr}
    (hes : ∀ x ∈ es.filter Coverage.executable.target, E x) :
    ∀ e ∈ es.flatMap Expr.targetCourse, e.All M S E := by
  intro e he
  obtain ⟨x, hx, he⟩ := List.mem_flatMap.1 he
  obtain ⟨kind, span, ty⟩ := x
  cases kind with
  | index q i =>
    have indexed : E ⟨.index q i, span, ty⟩ := hes _ (List.mem_filter.2 ⟨hx, rfl⟩)
    exact h.expr_course (h.parts _ indexed i (by simp [ExprKind.parts])) e he
  | _ => cases he

mutual
/-- What is handed down from a statement to its parts holds at every call of its course. -/
theorem stmt_course (h : Hereditary M S E) : (s : Stmt) → S s → ∀ e ∈ s.course, e.All M S E
  | ⟨kind, span, ghost⟩, hs => by
    rw [Stmt.course]
    split
    · exact around_course hs (kind_course h kind hs)
    · exact List.forall_mem_nil _

/-- One case per form. -/
theorem kind_course (h : Hereditary M S E) {span : Span} {ghost : Bool} :
    (kind : StmtKind) → S ⟨kind, span, ghost⟩ → ∀ e ∈ kind.course, e.All M S E
  | .varDecl ⟨_, none⟩, _ | .breakLoop, _ | .continueLoop, _ => List.forall_mem_nil _
  | .varDecl ⟨_, some _⟩, hs | .ret _, hs | .print _, hs => h.exprs_course (h.exprs _ hs)
  | .expr _, hs | .assert _, hs | .assume _, hs =>
    h.expr_course (h.exprs _ hs _ List.mem_cons_self)
  | .update _, hs =>
    have both := List.forall_mem_append.1 (h.exprs _ hs)
    List.forall_mem_append.2 ⟨h.targets_course both.1, h.exprs_course both.2⟩
  | .ifElse _ thenBranch elseBranch, hs => by
    have guard := h.exprs_course (h.exprs _ hs)
    have body := block_course h thenBranch (h.lists _ hs _ List.mem_cons_self)
    have branch := opt_course h elseBranch (h.branch _ hs)
    exact List.forall_mem_append.2 ⟨List.forall_mem_append.2 ⟨guard, body⟩, branch⟩
  | .whileLoop _ _ _ body, hs => by
    have guard := h.exprs_course (List.forall_mem_append.1 (h.exprs _ hs)).1
    exact List.forall_mem_append.2
      ⟨guard, block_course h body (h.lists _ hs _ List.mem_cons_self)⟩
  | .forLoop _ start stop _ _ body, hs => by
    obtain ⟨first, rest⟩ := List.forall_mem_cons.1 (h.exprs _ hs)
    have bounds := h.exprs_course
      (List.forall_mem_cons.2 ⟨first, (List.forall_mem_append.1 rest).1⟩)
    exact List.forall_mem_append.2
      ⟨bounds, block_course h body (h.lists _ hs _ List.mem_cons_self)⟩
  | .block b, hs => block_course h b (h.lists _ hs _ List.mem_cons_self)
  | .matchOn source cases, hs => by
    have walked := h.expr_course (h.exprs _ hs _ List.mem_cons_self)
    refine List.forall_mem_append.2 ⟨walked, cases_course h cases fun c hc => ?_⟩
    exact ⟨⟨_, _, _, hs, rfl, hc⟩, h.lists _ hs _ (List.mem_map_of_mem hc)⟩

/-- The same of a block. -/
theorem block_course (h : Hereditary M S E) :
    (b : Block) → (∀ s ∈ b.stmts, S s) → ∀ e ∈ b.course, e.All M S E
  | ⟨list, _⟩, hb =>
    around_course hb (List.forall_mem_cons.2 ⟨hb, list_course h list hb⟩)

/-- The same of a statement list. -/
theorem list_course (h : Hereditary M S E) :
    (list : List Stmt) → (∀ s ∈ list, S s) → ∀ e ∈ Stmt.courses list, e.All M S E
  | [], _ => List.forall_mem_nil _
  | s :: list, hl =>
    have both := List.forall_mem_cons.1 hl
    List.forall_mem_append.2 ⟨stmt_course h s both.1, list_course h list both.2⟩

/-- The same of a branch that may be absent. -/
theorem opt_course (h : Hereditary M S E) :
    (s : Option Stmt) → (∀ t ∈ s, S t) → ∀ e ∈ Stmt.courseOpt s, e.All M S E
  | none, _ => List.forall_mem_nil _
  | some s, hs => stmt_course h s (hs s rfl)

/-- The same of the cases of a match. -/
theorem cases_course (h : Hereditary M S E) :
    (cases : List MatchCase) →
      (∀ c ∈ cases, Node.All M S E (.case c) ∧ ∀ s ∈ c.body, S s) →
        ∀ e ∈ MatchCase.courses cases, e.All M S E
  | [], _ => List.forall_mem_nil _
  | ⟨_, body, _⟩ :: cases, hc =>
    have both := List.forall_mem_cons.1 hc
    have inside := List.forall_mem_cons.2 ⟨both.1.2, list_course h body both.1.2⟩
    List.forall_mem_append.2 ⟨around_course both.1.1 inside, cases_course h cases both.2⟩
end

/-- The same of a member, through its body. -/
theorem member_course (h : Hereditary M S E) {x : Member} (hx : M x) :
    ∀ e ∈ x.course, e.All M S E := by
  unfold Member.course
  split
  · exact List.forall_mem_nil _
  · cases x with
    | field f => exact around_course hx (List.forall_mem_nil _)
    | method d =>
      refine around_course hx fun e he => ?_
      obtain ⟨b, hb, he⟩ := List.mem_flatMap.1 he
      exact h.block_course b (h.block d hx b (Option.mem_toList.1 hb)) e he
    | function f =>
      exact around_course hx (h.exprs_course fun x hx' => h.value f hx x (Option.mem_toList.1 hx'))

/-- What is handed down from the members of a module holds wherever a scan calls a hook. -/
theorem course (h : Hereditary M S E) {m : Module} (hm : ∀ d ∈ m.decls, ∀ x ∈ d.members, M x) :
    ∀ e ∈ m.course, e.All M S E := by
  refine around_course trivial fun e he => ?_
  obtain ⟨d, hd, he⟩ := List.mem_flatMap.1 he
  have members := hm d hd
  have inside : ∀ e ∈ Event.memberList d.members :: d.members.flatMap Member.course,
      e.All M S E := by
    refine List.forall_mem_cons.2 ⟨members, fun e he => ?_⟩
    obtain ⟨x, hx, he⟩ := List.mem_flatMap.1 he
    exact h.member_course (members x hx) e he
  have node : d.node.All M S E := by cases d <;> exact members
  exact around_course node inside e he

end Hereditary

/-! ### The index of a loop -/

/-- Expressions leave the index that is waiting for its loop's body. -/
theorem Scan.follow_courses_index (o : ScanOptions) (es : List Expr) (s : Scan) :
    (s.follow o (Expr.courses es)).index = s.index := by
  refine Scan.follow_invariant (I := fun t => t.index = s.index) (fun e he t ht => ?_) rfl
  obtain ⟨x, -, visited⟩ := List.mem_flatMap.1 he
  obtain ⟨y, -, rfl⟩ := List.mem_map.1 visited
  exact ht

/-- Between a `for` and its body only expressions are on the course, so the body is the next block
that a scan enters, and finds the index of its own loop there. -/
theorem Stmt.course_forLoop {st : Stmt} (context : st.context = .executable) {index : Variable}
    {start : Expr} {stop : Option Expr} {up : Bool} {invariants : List Expr} {body : Block}
    (kind : st.kind = .forLoop index start stop up invariants body) :
    st.course = .visit (.stmt st) ::
        (Expr.courses (start :: stop.toList) ++ body.course ++ [.leave (.stmt st)]) ∧
      ∀ o (s : Scan), (s.follow o
        (.visit (.stmt st) :: Expr.courses (start :: stop.toList))).index = some index := by
  obtain ⟨shape, span, ghost⟩ := st
  obtain rfl := kind
  constructor
  · rw [Stmt.course, if_pos context]
    rfl
  · intro o s
    have kept (chained : Bool) {t : Scan} (waits : t.index = some index) (new : List Candidate) :
        (if chained then t else t.emit o new).index = some index := by
      cases chained <;> exact waits
    rw [Scan.follow, List.foldl_cons]
    exact (Scan.follow_courses_index o _ _).trans (kept _ rfl _)

end Mutation
