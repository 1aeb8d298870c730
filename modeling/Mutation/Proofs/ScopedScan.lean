import Mutation.Proofs.Agreement
import Mutation.Proofs.Invariant
import Mutation.Proofs.Lexical

/-!
# A scan knows what is in scope

A scan keeps the variables in scope on one stack with marks, declares locals when it leaves their
statement, puts the index of a loop aside until the body begins, and sets and resets what it knows
of the member and the declaration around it. `Scan.At` says that all of this is what the tree gives
for the place the scan has come to, and that the proposals for expressions so far are those for the
nodes that it has passed. Every hook takes the scan from one place to the next, and from there the
proof follows the recursion of the course: a part of the code takes the scan behind it
(`Scan.Passes`), and leaves in scope what it declares and nothing else. So all that a scan proposes
for expressions is what is in scope at each node by the rules of the language
(`Module.scan_onExpr`).

Nothing closes the scope of an `else` branch that is neither a block nor an `if`; hence the one
hypothesis.
-/

namespace Mutation

/-- The candidate is for an operator on expressions. -/
def Candidate.onExpr (c : Candidate) : Bool := c.kind.level = .expr

theorem Stmt.onExpr_of_mem_proposals {s : Stmt} {c : Candidate} (hc : c ∈ s.proposals) :
    c.onExpr = false := by
  rcases (Stmt.addressed hc).1 with level | kind
  · simp [Candidate.onExpr, level]
  · simp [Candidate.onExpr, kind, Kind.level]

theorem Stmt.onExpr_of_mem_exchanges {list : List Stmt} {c : Candidate}
    (hc : c ∈ Stmt.exchanges list) : c.onExpr = false := by
  obtain ⟨s, t, first, second, -, -, -, -, rfl⟩ := Stmt.mem_exchanges hc
  rfl

theorem Member.onExpr_of_mem_exchanges {list : List Member} {c : Candidate}
    (hc : c ∈ Member.exchanges list) : c.onExpr = false := by
  obtain ⟨a, b, -, -, -, -, rfl⟩ := Member.mem_exchanges hc
  rfl

/-- What is proposed for a node. -/
def Occurrence.proposals (m : Module) (o : ScanOptions) (x : Occurrence) : List Candidate :=
  (x.around.view m o).expr x.node

/-- What surrounds the inside of a statement: its own call has no value. -/
def Surroundings.inside (a : Surroundings) (kind : StmtKind) : Surroundings :=
  match kind with
  | .expr e => { a with bare := some e.span }
  | _ => a

/-- The index of a loop. -/
def StmtKind.index? : StmtKind → Option Variable
  | .forLoop index .. => some index
  | _ => none

namespace Scan

variable {m : Module} {o : ScanOptions} {a : Surroundings} {marks : List Nat}
  {index : Option Variable} {past : List Occurrence} {s : Scan}

/-- A scan that has come to a place with these surroundings, past the nodes in `past`. -/
structure At (m : Module) (o : ScanOptions) (a : Surroundings) (marks : List Nat)
    (index : Option Variable) (past : List Occurrence) (s : Scan) : Prop where
  view : s.view = a.view m o
  marks : s.marks = marks
  index : s.index = index
  candidates : s.candidates.filter Candidate.onExpr =
    (past.flatMap (Occurrence.proposals m o)).filter fun c => o.allows c.kind

namespace At

/-- Proposals for statements and lists. -/
theorem emit (h : s.At m o a marks index past) {new : List Candidate}
    (none : ∀ c ∈ new, c.onExpr = false) : (s.emit o new).At m o a marks index past := by
  refine ⟨h.view, h.marks, h.index, ?_⟩
  have nothing : (new.filter fun c => o.allows c.kind).filter Candidate.onExpr = [] := by
    rw [List.filter_eq_nil_iff]
    intro c hc
    simp [none c (List.mem_filter.1 hc).1]
  rw [candidates_emit, List.filter_append, nothing, List.append_nil]
  exact h.candidates

/-- A visited expression is one more occurrence, in the surroundings at hand. -/
theorem visit (h : s.At m o a marks index past) (e : Expr) :
    (s.enter o (.expr e)).At m o a marks index (past ++ [⟨e, a⟩]) := by
  refine ⟨h.view, h.marks, h.index, ?_⟩
  have all : ((s.view.expr e).filter fun c => o.allows c.kind).filter Candidate.onExpr =
      (s.view.expr e).filter fun c => o.allows c.kind := by
    rw [List.filter_eq_self]
    intro c hc
    exact decide_eq_true (View.mem_expr (List.mem_filter.1 hc).1).2
  rw [enter, candidates_emit, List.filter_append, all, h.candidates, h.view, List.flatMap_append,
    List.filter_append, List.flatMap_singleton]
  rfl

theorem exprs (h : s.At m o a marks index past) (es : List Expr) :
    (s.follow o (Expr.courses es)).At m o a marks index (past ++ a.nodes es) := by
  have courses : Expr.courses es = (es.flatMap Expr.executed).map fun x => .visit (.expr x) := by
    rw [List.map_flatMap]
    rfl
  rw [courses, Surroundings.nodes]
  generalize es.flatMap Expr.executed = nodes
  induction nodes generalizing s past with
  | nil =>
    rw [List.map_nil, List.map_nil, List.append_nil]
    exact h
  | cons e nodes ih =>
    have rest := ih (h.visit e)
    rwa [List.append_assoc] at rest

/-- The course of an expression adds its nodes as occurrences. -/
theorem expr (h : s.At m o a marks index past) (e : Expr) :
    (s.follow o e.course).At m o a marks index (past ++ a.nodes [e]) := by
  have same : e.course = Expr.courses [e] := (List.append_nil _).symm
  rw [same]
  exact h.exprs [e]

/-- Of a target, the scan goes through the subscript only. -/
theorem targets (h : s.At m o a marks index past) (targets : List Expr) :
    (s.follow o (targets.flatMap Expr.targetCourse)).At m o a marks index
      (past ++ a.nodes (targets.filterMap Expr.subscript?)) := by
  have same : targets.flatMap Expr.targetCourse =
      Expr.courses (targets.filterMap Expr.subscript?) := by
    induction targets with
    | nil => rfl
    | cons e targets ih =>
      obtain ⟨kind, span, ty⟩ := e
      rw [List.flatMap_cons, ih]
      cases kind <;> rfl
  rw [same]
  exact h.exprs _

theorem bind (h : s.At m o a marks index past) (b : Binding) :
    (s.bind b).At m o (a.bind [⟨b, false⟩]) marks index past := by
  refine ⟨?_, h.marks, h.index, h.candidates⟩
  rw [Scan.bind, h.view]
  rfl

/-- A declaration adds its variables to the surroundings. -/
theorem declare (h : s.At m o a marks index past) (origin : Origin) (vars : List Variable) :
    (s.declare origin vars).At m o (a.bind (Declared.ofVars origin false vars)) marks index
      past := by
  induction vars generalizing s a with
  | nil => exact h
  | cons v vars ih =>
    have first : Declared.ofVars origin false (v :: vars) =
        ⟨⟨v.name, v.ty, origin⟩, v.ghost⟩ :: Declared.ofVars origin false vars := rfl
    rw [first, Surroundings.bind_cons]
    cases ghost : v.ghost with
    | false =>
      have kept : s.declare origin (v :: vars) =
          (s.bind ⟨v.name, v.ty, origin⟩).declare origin vars := by
        simp [Scan.declare, ghost]
      rw [kept]
      exact ih (h.bind _)
    | true =>
      -- The scan does not declare the variable, and the surroundings do not count it.
      have dropped : s.declare origin (v :: vars) = s.declare origin vars := by
        simp [Scan.declare, ghost]
      have same := a.view_bind_ghost [⟨⟨v.name, v.ty, origin⟩, true⟩] (by simp) m o
      rw [dropped]
      exact ih ⟨h.view.trans same.symm, h.marks, h.index, h.candidates⟩

theorem bindAll (h : s.At m o a marks index past) (bindings : List (String × Ty)) :
    (bindings.foldl (fun s (name, ty) => s.bind ⟨name, ty, .patternVar⟩) s).At m o
      (a.bind (bindings.map fun (name, ty) => ⟨⟨name, ty, .patternVar⟩, false⟩)) marks index
      past := by
  induction bindings generalizing s a with
  | nil => exact h
  | cons b bindings ih =>
    rw [List.map_cons, Surroundings.bind_cons]
    exact ih (h.bind _)

/-- An opened scope remembers how much was visible before it. -/
theorem openScope (h : s.At m o a marks index past) :
    s.openScope.At m o a (a.scope.depth :: marks) index past := by
  refine ⟨h.view, ?_, h.index, h.candidates⟩
  rw [Scan.openScope, h.view, h.marks]
  rfl

/-- What was declared since the scope was opened is forgotten. -/
theorem closeScope {new : List Declared}
    (h : s.At m o (a.bind new) (a.scope.depth :: marks) index past) :
    s.closeScope.At m o a marks index past := by
  obtain ⟨view, marked, indexed, candidates⟩ := h
  unfold Scan.closeScope
  rw [marked]
  refine ⟨?_, rfl, indexed, candidates⟩
  obtain ⟨added, same⟩ := a.bindings_bind new
  have restored : (a.bind new).scope.restore a.scope.depth = a.scope := by
    simp [Scope.restore, Scope.depth, same]
  dsimp only
  rw [view]
  simp only [Surroundings.view, restored]
  rfl

/-- A statement that is entered changes the surroundings for what is inside it. -/
theorem enterStmt (h : s.At m o a marks none past) (st : Stmt) :
    (s.enter o (.stmt st)).At m o (a.inside st.kind) marks st.kind.index? past := by
  have entered : (s.enterStmt st).At m o (a.inside st.kind) marks st.kind.index? past := by
    obtain ⟨kind, span, ghost⟩ := st
    cases kind with
    | ifElse guard thenBranch elseBranch =>
      cases elseBranch <;> exact ⟨h.view, h.marks, h.index, h.candidates⟩
    | forLoop => exact ⟨h.view, h.marks, rfl, h.candidates⟩
    | expr e =>
      refine ⟨?_, h.marks, h.index, h.candidates⟩
      rw [Scan.enterStmt, h.view]
      rfl
    | _ => exact h
  simp only [Scan.enter]
  split
  · exact entered
  · exact entered.emit fun c hc => Stmt.onExpr_of_mem_proposals hc

/-- A statement that is left takes those changes back and leaves what it declares. -/
theorem leaveStmt (st : Stmt) (calm : a.bare = none) (plain : st.ghost = false)
    (h : s.At m o (a.inside st.kind) marks none past) :
    (s.leave (.stmt st)).At m o (a.bind st.declared) marks none past := by
  obtain ⟨kind, span, ghost⟩ := st
  obtain rfl : ghost = false := plain
  cases kind with
  | varDecl d => exact h.declare .local d.locals
  | expr e =>
    refine ⟨?_, h.marks, h.index, h.candidates⟩
    rw [Scan.leave, h.view]
    simp only [Surroundings.view, Surroundings.inside, Surroundings.bind, Stmt.declared, calm]
    rfl
  | _ => exact h

theorem setStatic (h : s.At m o a marks index past) (b : Bool) :
    At m o { a with isStatic := b } marks index past
      { s with view := { s.view with inStatic := b } } := by
  refine ⟨?_, h.marks, h.index, h.candidates⟩
  dsimp only
  rw [h.view]
  rfl

/-- A block takes over the index of the loop that it is the body of. -/
theorem enterBlock (h : s.At m o a marks index past) (b : Block) :
    (s.enter o (.block b)).At m o (a.bind (Declared.ofVars .loopIndex false index.toList))
      (a.scope.depth :: marks) none past := by
  have declared := h.openScope.declare .loopIndex index.toList
  have given : s.openScope.index = index := h.index
  simp only [Scan.enter, given]
  exact ⟨declared.view, declared.marks, rfl, declared.candidates⟩

end At

theorem follow_around (node : Node) (inside : List Event) :
    s.follow o (node.around inside) = ((s.enter o node).follow o inside).leave node := by
  rw [Node.around, ← List.cons_append, follow_append]
  rfl

end Scan

theorem Surroundings.nodes_append (a : Surroundings) (es es' : List Expr) :
    a.nodes (es ++ es') = a.nodes es ++ a.nodes es' := by
  simp [nodes]

/-- What is declared in code that is not executed is ghost. -/
theorem Stmt.ghost_of_mem_declared {s : Stmt} (other : s.context ≠ .executable) :
    ∀ v ∈ s.declared, v.ghost = true := by
  obtain ⟨kind, span, ghost⟩ := s
  cases kind with
  | varDecl d =>
    cases ghost with
    | false => exact absurd rfl other
    | true =>
      intro v hv
      obtain ⟨x, -, rfl⟩ := List.mem_map.1 hv
      rfl
  | _ => exact List.forall_mem_nil _

/-- A scan that comes to `course` with the surroundings `a` goes through the nodes in `seen`, and
then has the surroundings `b`. -/
def Scan.Passes (m : Module) (o : ScanOptions) (a : Surroundings) (index : Option Variable)
    (course : List Event) (b : Surroundings) (seen : List Occurrence) : Prop :=
  ∀ (marks : List Nat) (past : List Occurrence) (s : Scan), s.At m o a marks index past →
    (s.follow o course).At m o b marks none (past ++ seen)

section

variable {m : Module} {o : ScanOptions}

open Scan (Passes follow_append follow_around)

/-- Two courses after each other pass through the surroundings between them. -/
theorem Scan.Passes.append {a b c : Surroundings} {index : Option Variable} {course next : List Event}
    {seen later : List Occurrence} (h : Passes m o a index course b seen)
    (h' : Passes m o b none next c later) : Passes m o a index (course ++ next) c (seen ++ later) := by
  intro marks past s start
  rw [follow_append, ← List.append_assoc]
  exact h' _ _ _ (h _ _ _ start)

mutual
/-- The course of a statement passes through its occurrences, in the surroundings where it stands.
-/
theorem Stmt.passes : (st : Stmt) → {a : Surroundings} → a.bare = none → st.Meets .branched →
    Passes m o a none st.course (a.bind st.declared) (st.occurrences a)
  | ⟨kind, span, ghost⟩, a, calm, hs => by
    intro marks past s h
    rw [Stmt.course, Stmt.occurrences]
    by_cases context : Stmt.context ⟨kind, span, ghost⟩ = .executable
    · have plain : ghost = false := by
        cases ghost with
        | false => rfl
        | true => cases context
      have entered := h.enterStmt ⟨kind, span, ghost⟩
      have inside := StmtKind.passes kind calm hs _ _ _ entered
      rw [if_pos context, if_pos context, follow_around]
      exact Scan.At.leaveStmt ⟨kind, span, ghost⟩ calm plain inside
    · -- The statement is passed over, so what it declares must not matter.
      rw [if_neg context, if_neg context, List.append_nil]
      have same := a.view_bind_ghost _ (Stmt.ghost_of_mem_declared context) m o
      exact ⟨h.view.trans same.symm, h.marks, h.index, h.candidates⟩

/-- One case per form, with the surroundings of its inside. -/
theorem StmtKind.passes : (kind : StmtKind) → {a : Surroundings} → a.bare = none →
    kind.Meets .branched →
      Passes m o (a.inside kind) kind.index? kind.course (a.inside kind) (kind.occurrences a)
  | .varDecl d, _, _, _ => fun _ _ _ h => h.exprs d.values
  | .update u, a, _, _ => by
    rw [StmtKind.occurrences, Surroundings.nodes_append]
    exact Passes.append (fun _ _ _ h => h.targets u.targets) fun _ _ _ h => h.exprs u.values
  | .expr e, _, _, _ | .assert e, _, _, _ | .assume e, _, _, _ => fun _ _ _ h => h.expr e
  | .ret es, _, _, _ | .print es, _, _, _ => fun _ _ _ h => h.exprs es
  | .ifElse guard thenBranch elseBranch, _, calm, hs =>
    (Passes.append (fun _ _ _ h => h.exprs guard.toList) (Block.passes thenBranch calm hs.2.1)).append
      (Stmt.passes_opt elseBranch calm hs.2.2)
  | .whileLoop guard _ _ body, _, calm, hs =>
    Passes.append (fun _ _ _ h => h.exprs guard.toList) (Block.passes body calm hs.2.2.2)
  | .forLoop index start stop _ _ body, a, calm, hs => by
    -- The bounds come before the body, so the scan still has the index put aside there.
    intro marks past s h
    rw [StmtKind.course, follow_append, StmtKind.occurrences, ← List.append_assoc]
    exact Block.passes body calm hs.2.2.2 _ _ _ (h.exprs (start :: stop.toList))
  | .breakLoop, _, _, _ | .continueLoop, _, _, _ => by
    intro marks past s h
    rw [StmtKind.occurrences, List.append_nil]
    exact h
  | .block b, _, calm, hs => Block.passes b calm hs
  | .matchOn source cases, _, calm, hs =>
    Passes.append (fun _ _ _ h => h.expr source) (MatchCase.passes cases calm hs.2)

/-- A block passes through its list, with the index of its loop in scope. -/
theorem Block.passes : (b : Block) → {a : Surroundings} → {index : Option Variable} →
    a.bare = none → b.Meets .branched → Passes m o a index b.course a
      (b.occurrences (a.bind (Declared.ofVars .loopIndex false index.toList)))
  | ⟨list, span⟩, a, index, calm, hb => by
    intro marks past s h
    have entered := (h.enterBlock ⟨list, span⟩).emit
      fun c (hc : c ∈ Stmt.exchanges list) => Stmt.onExpr_of_mem_exchanges hc
    have inside := Stmt.passes_list (a := a.bind _) list calm hb _ _ _ entered
    rw [← Surroundings.bind_append] at inside
    rw [Block.course, follow_around]
    exact inside.closeScope

/-- Each statement of a list stands in the surroundings that those before it have left. -/
theorem Stmt.passes_list : (list : List Stmt) → {a : Surroundings} → a.bare = none →
    Stmt.MeetsList .branched list → Passes m o a none (Stmt.courses list)
      (a.bind (list.flatMap Stmt.declared)) (Stmt.occurrencesList a list)
  | [], _, _, _ => by
    intro marks past s h
    rw [Stmt.occurrencesList, List.append_nil]
    exact h
  | st :: list, a, calm, hl => by
    rw [List.flatMap_cons, Surroundings.bind_append]
    exact (Stmt.passes st calm hl.1).append (Stmt.passes_list list calm hl.2)

/-- A branch leaves the surroundings as they were. -/
theorem Stmt.passes_opt : (st : Option Stmt) → {a : Surroundings} → a.bare = none →
    Stmt.MeetsElse .branched st →
      Passes m o a none (Stmt.courseOpt st) a (Stmt.occurrencesOpt a st)
  | none, _, _, _ => by
    intro marks past s h
    rw [Stmt.occurrencesOpt, List.append_nil]
    exact h
  | some st, _, calm, hs => by
    have passed := Stmt.passes st calm hs.2
    have nothing : st.declared = [] := by
      have branch := hs.1 trivial
      obtain ⟨kind, span, ghost⟩ := st
      cases kind with
      | varDecl d => cases branch
      | _ => rfl
    rwa [nothing] at passed

/-- Each case is passed with the variables of its own pattern. -/
theorem MatchCase.passes : (cases : List MatchCase) → {a : Surroundings} → a.bare = none →
    MatchCase.MeetsList .branched cases →
      Passes m o a none (MatchCase.courses cases) a (MatchCase.occurrences a cases)
  | [], _, _, _ => by
    intro marks past s h
    rw [MatchCase.occurrences, List.append_nil]
    exact h
  | ⟨pattern, body, span⟩ :: cases, a, calm, hc => by
    refine Passes.append (fun marks past s h => ?_) (MatchCase.passes cases calm hc.2)
    have entered := (h.openScope.bindAll pattern.bindings).emit
      fun c (hc : c ∈ Stmt.exchanges body) => Stmt.onExpr_of_mem_exchanges hc
    have inside := Stmt.passes_list (a := a.bind _) body calm hc.1 _ _ _ entered
    rw [← Surroundings.bind_append] at inside
    rw [follow_around]
    exact inside.closeScope
end

/-- A member is passed with its parameters in scope. -/
theorem Member.passes (d : Decl) {x : Member} (hx : x.Meets .branched) :
    Passes m o { decl := some d } none x.course { decl := some d } (x.occurrences d) := by
  intro marks past s h
  unfold Member.course Member.occurrences
  split
  · rw [List.append_nil]
    exact h
  · cases x with
    | field f =>
      rw [List.append_nil]
      exact h
    | method c =>
      have entered := ((h.openScope.setStatic c.isStatic).declare .param c.params).declare .out c.outs
      rw [← Surroundings.bind_append] at entered
      rw [follow_around]
      dsimp only
      cases body : c.body with
      | none =>
        rw [Option.toList_none, List.flatMap_nil, List.flatMap_nil, List.append_nil]
        exact entered.closeScope.setStatic false
      | some b =>
        have inside := Block.passes (a := Surroundings.bind _ _) b rfl (hx.2 b body) _ _ _ entered
        rw [Option.toList_some, List.flatMap_singleton, List.flatMap_singleton]
        exact inside.closeScope.setStatic false
    | function f =>
      have entered := (h.openScope.setStatic f.isStatic).declare .param f.params
      rw [follow_around]
      exact (entered.exprs f.body.toList).closeScope.setStatic false

theorem Member.passes_list (d : Decl) {members : List Member}
    (hm : ∀ x ∈ members, x.Meets .branched) :
    Passes m o { decl := some d } none (members.flatMap Member.course) { decl := some d }
      (members.flatMap (Member.occurrences d)) := by
  induction members with
  | nil =>
    intro marks past s h
    rw [List.flatMap_nil, List.append_nil]
    exact h
  | cons x members ih =>
    obtain ⟨first, rest⟩ := List.forall_mem_cons.1 hm
    exact (Member.passes d first).append (ih rest)

/-- A declaration is passed member by member. -/
theorem Decl.passes {d : Decl} (hd : ∀ x ∈ d.members, x.Meets .branched) :
    Passes m o {} none d.course {} d.occurrences := by
  intro marks past s h
  have entered : (s.enter o d.node).At m o { decl := some d } marks none past := by
    cases d <;> exact ⟨by rw [Decl.node, Scan.enter, h.view]; rfl, h.marks, h.index, h.candidates⟩
  have listed := entered.emit
    fun c (hc : c ∈ Member.exchanges d.members) => Member.onExpr_of_mem_exchanges hc
  have inside := Member.passes_list d hd _ _ _ listed
  rw [Decl.course, follow_around]
  have left {t : Scan} {seen : List Occurrence} (ht : t.At m o { decl := some d } marks none seen) :
      (t.leave d.node).At m o {} marks none seen := by
    cases d <;> exact ⟨by rw [Decl.node, Scan.leave, ht.view]; rfl, ht.marks, ht.index, ht.candidates⟩
  exact left inside

/-- A module is passed declaration by declaration. -/
theorem Decl.passes_list {decls : List Decl} (hd : ∀ d ∈ decls, ∀ x ∈ d.members, x.Meets .branched) :
    Passes m o {} none (decls.flatMap Decl.course) {} (decls.flatMap Decl.occurrences) := by
  induction decls with
  | nil =>
    intro marks past s h
    rw [List.flatMap_nil, List.append_nil]
    exact h
  | cons d decls ih =>
    obtain ⟨first, rest⟩ := List.forall_mem_cons.1 hd
    exact (Decl.passes first).append (ih rest)

end

/-- The candidates for operators on expressions are what the scope rules give for each node of the
executable code, in walk order. -/
theorem Module.scan_onExpr {m : Module} (branched : m.Branched) (o : ScanOptions) :
    (m.scan o).filter Candidate.onExpr =
      (m.occurrences.flatMap (Occurrence.proposals m o)).filter fun c => o.allows c.kind := by
  have start : (m.startScan o).At m o {} [] none [] := ⟨rfl, rfl, rfl, rfl⟩
  have passed := Decl.passes_list branched _ _ _ start
  rw [m.scan_eq_course, Module.course, Scan.follow_around]
  exact passed.candidates

/-- For one kind of operators on expressions. -/
theorem Module.scan_kind {m : Module} (branched : m.Branched) (o : ScanOptions) {kind : Kind}
    (level : kind.level = .expr) :
    (m.scan o).filter (fun c => c.kind = kind) =
      (m.occurrences.flatMap fun x =>
        (x.proposals m o).filter fun c => c.kind = kind).filter fun c => o.allows c.kind := by
  have inner : (m.scan o).filter (fun c => c.kind = kind) =
      ((m.scan o).filter Candidate.onExpr).filter fun c => c.kind = kind := by
    rw [List.filter_filter]
    refine List.filter_congr fun c _ => ?_
    by_cases same : c.kind = kind <;> simp [same, Candidate.onExpr, level]
  rw [inner, m.scan_onExpr branched, List.filter_filter, ← List.filter_flatMap, List.filter_filter]
  exact List.filter_congr fun c _ => Bool.and_comm _ _

end Mutation
