import Mutation.Proofs.Course

/-!
# Scans do not look at specifications

A module is *stripped* when its contracts, the invariants and decreases clauses of its loops and
the bodies of its ghost members are removed and what it asserts and assumes is forgotten. Two
modules that are equal once stripped have the same candidates, but for those of the two operators
that move the bodies of cases: these ask whether a body reads what its pattern binds, and
specifications in the body count as reading (`Module.scan_of_stripped`).

The course of a stripped module is the stripped course (`Module.course_stripped`), and each step of
a scan keeps two scans alike of which one sees the stripped module (`Scan.Alike.step`).
-/

namespace Mutation

mutual
/-- The statement without specifications, its inside included. -/
def Stmt.stripped : Stmt → Stmt
  | ⟨kind, span, ghost⟩ => ⟨kind.stripped, span, ghost⟩

def StmtKind.stripped : StmtKind → StmtKind
  | .ifElse guard thenBranch elseBranch =>
    .ifElse guard thenBranch.stripped (Stmt.strippedOpt elseBranch)
  | .whileLoop guard _ _ body => .whileLoop guard [] [] body.stripped
  | .forLoop index start stop ascending _ body =>
    .forLoop index start stop ascending [] body.stripped
  | .block b => .block b.stripped
  | .matchOn source cases => .matchOn source (MatchCase.strippedList cases)
  | .assert _ => .assert default
  | .assume _ => .assume default
  | kind => kind

def Block.stripped : Block → Block
  | ⟨list, span⟩ => ⟨Stmt.strippedList list, span⟩

def Stmt.strippedList : List Stmt → List Stmt
  | [] => []
  | s :: list => s.stripped :: Stmt.strippedList list

def Stmt.strippedOpt : Option Stmt → Option Stmt
  | none => none
  | some s => some s.stripped

def MatchCase.strippedList : List MatchCase → List MatchCase
  | [] => []
  | ⟨pattern, body, span⟩ :: cases =>
    ⟨pattern, Stmt.strippedList body, span⟩ :: MatchCase.strippedList cases
end

/-- The method without contract, and without its body if it is ghost. -/
def Method.stripped (d : Method) : Method :=
  { d with contract := {}, body := if d.ghost then none else d.body.map Block.stripped }

/-- The function without contract, and without its body if it is ghost. -/
def Function.stripped (f : Function) : Function :=
  { f with contract := {}, body := if f.ghost then none else f.body }

/-- The member without specifications. -/
def Member.stripped : Member → Member
  | .field f => .field f
  | .method d => .method d.stripped
  | .function f => .function f.stripped

/-- The class without specifications. -/
def Class.stripped (c : Class) : Class := { c with members := c.members.map Member.stripped }

/-- The datatype without specifications. -/
def Datatype.stripped (d : Datatype) : Datatype :=
  { d with members := d.members.map Member.stripped }

/-- The declaration without specifications. -/
def Decl.stripped : Decl → Decl
  | .class c => .class c.stripped
  | .datatype d => .datatype d.stripped

/-- The module without specifications. -/
def Module.stripped (m : Module) : Module := { m with decls := m.decls.map Decl.stripped }

/-- The case without specifications. -/
def MatchCase.stripped (c : MatchCase) : MatchCase := { c with body := Stmt.strippedList c.body }

/-- The node without specifications. Expressions of the executable code stay as they are. -/
def Node.stripped : Node → Node
  | .module m => .module m.stripped
  | .class c => .class c.stripped
  | .datatype d => .datatype d.stripped
  | .field f => .field f
  | .method d => .method d.stripped
  | .function f => .function f.stripped
  | .block b => .block b.stripped
  | .stmt s => .stmt s.stripped
  | .case c => .case c.stripped
  | .expr e => .expr e

/-- The hook call on the node without specifications. -/
def Event.stripped : Event → Event
  | .visit node => .visit node.stripped
  | .leave node => .leave node.stripped
  | .stmtList list => .stmtList (Stmt.strippedList list)
  | .memberList list => .memberList (list.map Member.stripped)
  | .offer s => .offer s.stripped
  | e => e

/-! ### The course of a stripped module -/

theorem Node.around_stripped (node : Node) (inside : List Event) :
    (node.around inside).map Event.stripped =
      node.stripped.around (inside.map Event.stripped) := by
  simp [Node.around, Event.stripped]

/-- No expression has a part that is stripped, so its course stays. -/
@[simp] theorem Expr.course_map_stripped (e : Expr) : e.course.map Event.stripped = e.course :=
  List.map_map

/-- The same of the courses of a list. -/
@[simp] theorem Expr.courses_map_stripped (es : List Expr) :
    (Expr.courses es).map Event.stripped = Expr.courses es := by
  simp [Expr.courses, List.map_flatMap]

/-- The same of the courses of targets. -/
@[simp] theorem Expr.targetCourses_map_stripped (es : List Expr) :
    (es.flatMap Expr.targetCourse).map Event.stripped = es.flatMap Expr.targetCourse := by
  have one : ∀ e : Expr, e.targetCourse.map Event.stripped = e.targetCourse := by
    intro e
    unfold Expr.targetCourse
    split
    · exact Expr.course_map_stripped _
    · rfl
  simp [List.map_flatMap, one]

@[simp] theorem Stmt.span_stripped (s : Stmt) : s.stripped.span = s.span := by
  cases s
  rfl

theorem Stmt.context_stripped (s : Stmt) : s.stripped.context = s.context := by
  obtain ⟨kind, span, ghost⟩ := s
  cases kind <;> rfl

mutual
/-- The course of a stripped statement is its course with stripped nodes, event by event. -/
theorem Stmt.course_stripped : (s : Stmt) → s.stripped.course = s.course.map Event.stripped
  | ⟨kind, span, ghost⟩ => by
    have same := Stmt.context_stripped ⟨kind, span, ghost⟩
    rw [Stmt.stripped] at same ⊢
    rw [Stmt.course, Stmt.course, same]
    split
    · rename_i executable
      rw [StmtKind.course_stripped kind executable, Node.around_stripped, Node.stripped,
        Stmt.stripped]
    · rfl

/-- What is asserted or assumed is not executable, so the walk does not come to it. -/
theorem StmtKind.course_stripped {span : Span} {ghost : Bool} :
    (kind : StmtKind) → Stmt.context ⟨kind, span, ghost⟩ = .executable →
      kind.stripped.course = kind.course.map Event.stripped
  | .varDecl _, _ | .ret _, _ | .print _, _ => (Expr.courses_map_stripped _).symm
  | .expr _, _ => (Expr.course_map_stripped _).symm
  | .update _, _ => by simp [StmtKind.stripped, StmtKind.course]
  | .breakLoop, _ | .continueLoop, _ => rfl
  | .assert _, executable | .assume _, executable => by cases ghost <;> cases executable
  | .ifElse _ thenBranch elseBranch, _ => by
    simp [StmtKind.stripped, StmtKind.course, Block.course_stripped thenBranch,
      Stmt.course_strippedOpt elseBranch]
  | .whileLoop _ _ _ body, _ | .forLoop _ _ _ _ _ body, _ => by
    simp [StmtKind.stripped, StmtKind.course, Block.course_stripped body]
  | .block b, _ => Block.course_stripped b
  | .matchOn _ cases, _ => by
    simp [StmtKind.stripped, StmtKind.course, MatchCase.course_strippedList cases]

/-- The same of a block. -/
theorem Block.course_stripped : (b : Block) → b.stripped.course = b.course.map Event.stripped
  | ⟨list, _⟩ => by
    rw [Block.stripped, Block.course, Block.course, Node.around_stripped, List.map_cons,
      Stmt.course_strippedList list]
    rfl

/-- The same of a list, statement by statement. -/
theorem Stmt.course_strippedList :
    (list : List Stmt) →
      Stmt.courses (Stmt.strippedList list) = (Stmt.courses list).map Event.stripped
  | [] => rfl
  | s :: list => by
    simp [Stmt.strippedList, Stmt.courses, Stmt.course_stripped s, Stmt.course_strippedList list]

/-- The same of a branch that may be absent. -/
theorem Stmt.course_strippedOpt :
    (s : Option Stmt) →
      Stmt.courseOpt (Stmt.strippedOpt s) = (Stmt.courseOpt s).map Event.stripped
  | none => rfl
  | some s => Stmt.course_stripped s

/-- The same of the cases of a match. -/
theorem MatchCase.course_strippedList :
    (cases : List MatchCase) →
      MatchCase.courses (MatchCase.strippedList cases) =
        (MatchCase.courses cases).map Event.stripped
  | [] => rfl
  | ⟨_, body, _⟩ :: cases => by
    rw [MatchCase.strippedList, MatchCase.courses, MatchCase.courses, List.map_append,
      Node.around_stripped, List.map_cons, Stmt.course_strippedList body,
      MatchCase.course_strippedList cases]
    rfl
end

/-- A member's course loses nothing: what is stripped was never on it. -/
theorem Member.course_stripped (x : Member) :
    x.stripped.course = x.course.map Event.stripped := by
  cases x with
  | field f =>
    cases ghost : f.ghost <;> simp [Member.stripped, Member.course, isGhost, ghost,
      Node.around_stripped, Node.stripped]
  | method d =>
    cases ghost : d.ghost with
    | true => simp [Member.stripped, Member.course, isGhost, Method.stripped, ghost]
    | false =>
      cases body : d.body <;>
        simp [Member.stripped, Member.course, isGhost, Method.stripped, ghost, body,
          Node.around_stripped, Node.stripped, Block.course_stripped]
  | function f =>
    cases ghost : f.ghost <;>
      simp [Member.stripped, Member.course, isGhost, Function.stripped, ghost,
        Node.around_stripped, Node.stripped]

/-- The same of a declaration, member by member. -/
theorem Decl.course_stripped (d : Decl) : d.stripped.course = d.course.map Event.stripped := by
  have inside : ∀ list : List Member,
      (list.map Member.stripped).flatMap Member.course =
        (list.flatMap Member.course).map Event.stripped := by
    intro list
    simp [List.flatMap_map, List.map_flatMap, Member.course_stripped]
  cases d <;>
    simp [Decl.course, Decl.stripped, Decl.members, Decl.node, Class.stripped, Datatype.stripped,
      Node.around_stripped, Node.stripped, Event.stripped, inside]

/-- A scan of the stripped module calls the same hooks on stripped nodes. -/
theorem Module.course_stripped (m : Module) :
    m.stripped.course = m.course.map Event.stripped := by
  have inside : (m.decls.map Decl.stripped).flatMap Decl.course =
      (m.decls.flatMap Decl.course).map Event.stripped := by
    simp [List.flatMap_map, List.map_flatMap, Decl.course_stripped]
  rw [Module.course, Module.course, Node.around_stripped, ← inside]
  rfl

/-! ### What is known and proposed -/

/-- The declarations without specifications. -/
def Declarations.stripped (d : Declarations) : Declarations :=
  ⟨d.classes.map Class.stripped, d.datatypes.map Datatype.stripped⟩

/-- What is known, but for the specifications in the declarations. -/
def View.stripped (v : View) : View := { v with declarations := v.declarations.stripped }

/-- The tables of a stripped module are its tables, with stripped members. -/
theorem Module.declarations_stripped (m : Module) :
    m.stripped.declarations = m.declarations.stripped := by
  obtain ⟨name, decls⟩ := m
  simp only [Module.declarations, Module.stripped, Module.classes, Module.datatypes,
    Declarations.stripped, Declarations.mk.injEq]
  constructor <;> induction decls with
    | nil => rfl
    | cons d decls ih =>
      cases d <;> simp [Decl.stripped, ih]

namespace Declarations

variable (d : Declarations) (owner : String)

/-- A lookup by owner finds the stripped members of those it found. -/
theorem membersOf_stripped :
    d.stripped.membersOf owner = (d.membersOf owner).map Member.stripped := by
  simp only [membersOf, stripped, List.filter_map, List.flatMap_map, List.map_append,
    List.map_flatMap]
  rfl

/-- Fields have nothing that is stripped. -/
@[simp] theorem fieldsOf_stripped : d.stripped.fieldsOf owner = d.fieldsOf owner := by
  have same : Member.field? ∘ Member.stripped = Member.field? := by
    funext x
    cases x <;> rfl
  rw [fieldsOf, membersOf_stripped, List.filterMap_map, same, fieldsOf]

/-- What is called is looked up by name and type, which stay. -/
@[simp] theorem callablesOf_stripped : d.stripped.callablesOf owner = d.callablesOf owner := by
  have same : Member.callable? ∘ Member.stripped = Member.callable? := by
    funext x
    cases x <;> rfl
  rw [callablesOf, membersOf_stripped, List.filterMap_map, same, callablesOf]

@[simp] theorem ctorsOf_stripped : d.stripped.ctorsOf owner = d.ctorsOf owner := by
  have last : (d.stripped.datatypes.filter fun t => t.name == owner).getLast? =
      (d.datatypes.filter fun t => t.name == owner).getLast?.map Datatype.stripped := by
    rw [stripped, List.filter_map, List.getLast?_map]
    rfl
  rw [ctorsOf, ctorsOf, last]
  cases (d.datatypes.filter fun t => t.name == owner).getLast? <;> rfl

/-- The type of a field does not depend on any clause. -/
@[simp] theorem fieldType?_stripped : d.stripped.fieldType? owner = d.fieldType? owner := by
  funext field
  rw [fieldType?, fieldsOf_stripped, fieldType?]

end Declarations

/-- Which names hide a field is asked of the scopes, which hold no clause. -/
@[simp] theorem View.hidesField_stripped (v : View) (name : String) (ty : Ty) :
    v.stripped.hidesField name ty = v.hidesField name ty := by
  unfold View.hidesField
  simp only [View.stripped, Declarations.fieldType?_stripped]

/-- What an expression can be replaced with is asked of names and types only. -/
@[simp] theorem View.expr_stripped (v : View) (e : Expr) : v.stripped.expr e = v.expr e := by
  obtain ⟨kind, span, ty⟩ := e
  cases kind with
  | name n =>
    simp only [View.expr, View.shape, View.name, View.hidesField_stripped]
    rfl
  | _ =>
    simp [View.expr, View.shape, View.default, View.member, View.call, View.isBare, View.stripped,
      Declarations.siblingFields, Declarations.siblingCtors, Declarations.compatibleCallables,
      Declarations.callable?]

/-- The candidates of these kinds do not depend on specifications. -/
def Candidate.isBlind (c : Candidate) : Bool :=
  c.kind ≠ .caseReplacement && c.kind ≠ .caseExtraction

/-- The links of a chain stand where they stood. -/
theorem Stmt.elseIfSpans_strippedOpt (s : Option Stmt) :
    Stmt.elseIfSpans (Stmt.strippedOpt s) = Stmt.elseIfSpans s := by
  cases s with
  | none => rfl
  | some s =>
    induction s using Stmt.induct with
    | step s _ ih =>
      obtain ⟨kind, span, ghost⟩ := s
      cases kind with
      | ifElse guard thenBranch elseBranch =>
        cases elseBranch with
        | none => rfl
        | some t =>
          have rest := ih t rfl
          simp only [Stmt.strippedOpt, Stmt.elseIfSpans, Stmt.stripped, StmtKind.stripped,
            Stmt.ifSpans] at rest ⊢
          rw [rest]
      | _ => rfl

/-- Everything that is proposed for a match looks into its bodies. -/
theorem Stmt.matchProposals_blind (span : Span) (cases : List MatchCase) :
    (Stmt.matchProposals span cases).filter Candidate.isBlind = [] := by
  rw [List.filter_eq_nil_iff]
  intro c hc
  rcases List.mem_append.1 hc with hc | hc <;> obtain ⟨a, -, rfl⟩ := List.mem_map.1 hc <;>
    simp [Candidate.isBlind]

/-- An element suggests the same with and without specifications, but for the case operators. -/
theorem Stmt.proposals_stripped (s : Stmt) :
    s.stripped.proposals.filter Candidate.isBlind = s.proposals.filter Candidate.isBlind := by
  obtain ⟨kind, span, ghost⟩ := s
  cases kind with
  | matchOn source cases =>
    simp [Stmt.stripped, StmtKind.stripped, Stmt.proposals, Stmt.shapeProposals, Stmt.isVarDecl,
      Stmt.matchProposals_blind]
  | ifElse guard thenBranch elseBranch =>
    have links := Stmt.elseIfSpans_strippedOpt elseBranch
    simp only [Stmt.stripped, StmtKind.stripped, Stmt.proposals, Stmt.shapeProposals, links]
    cases elseBranch <;> rfl
  | _ => rfl

/-- A plain declaration is recognised by its name and its value. -/
theorem Stmt.exchangeable?_stripped (s : Stmt) : s.stripped.exchangeable? = s.exchangeable? := by
  obtain ⟨kind, span, ghost⟩ := s
  cases kind <;> rfl

/-- A stripped statement declares what it declared. -/
theorem Stmt.declares_stripped (s : Stmt) : s.stripped.declares = s.declares := by
  obtain ⟨kind, span, ghost⟩ := s
  cases kind <;> rfl

/-- The partners of a local are found by names and types. -/
theorem Stmt.exchangesWith_stripped (span : Span) (first : Variable × Expr)
    (between : List String) (list : List Stmt) :
    Stmt.exchangesWith span first between (Stmt.strippedList list) =
      Stmt.exchangesWith span first between list := by
  induction list generalizing between with
  | nil => rfl
  | cons s list ih =>
    rw [Stmt.strippedList, Stmt.exchangesWith, Stmt.exchangesWith, Stmt.exchangeable?_stripped,
      Stmt.span_stripped, Stmt.declares_stripped, ih]

/-- The pairs of a list that can change initializers are the same pairs. -/
theorem Stmt.exchanges_stripped (list : List Stmt) :
    Stmt.exchanges (Stmt.strippedList list) = Stmt.exchanges list := by
  induction list with
  | nil => rfl
  | cons s list ih =>
    rw [Stmt.strippedList, Stmt.exchanges, Stmt.exchanges, Stmt.exchangeable?_stripped,
      Stmt.span_stripped, Stmt.declares_stripped, ih]
    cases s.exchangeable? with
    | none => rfl
    | some first =>
      dsimp only
      rw [Stmt.exchangesWith_stripped]

/-- A ghost method has no body that could be exchanged. -/
theorem Member.exchangeable?_stripped (x : Member) :
    x.stripped.exchangeable? = x.exchangeable?.map Method.stripped := by
  cases x with
  | method d =>
    cases ghost : d.ghost <;> cases body : d.body <;>
      simp [Member.exchangeable?, Member.stripped, Member.method?, Method.stripped, ghost, body,
        Option.filter]
  | field f | function f => rfl

/-- Two methods can change bodies when their signatures agree, clauses aside. -/
theorem Member.exchanges_stripped (list : List Member) :
    Member.exchanges (list.map Member.stripped) = Member.exchanges list := by
  have names : ∀ (first : Method) (rest : List Member),
      (((rest.map Member.stripped).filterMap Member.exchangeable?).filter
        first.stripped.sameFormalsAs).map (·.name) =
      ((rest.filterMap Member.exchangeable?).filter first.sameFormalsAs).map (·.name) := by
    intro first rest
    have found : (rest.map Member.stripped).filterMap Member.exchangeable? =
        (rest.filterMap Member.exchangeable?).map Method.stripped := by
      simp [List.filterMap_map, List.map_filterMap, Member.exchangeable?_stripped]
    rw [found, List.filter_map, List.map_map]
    rfl
  induction list with
  | nil => rfl
  | cons x list ih =>
    rw [List.map_cons, Member.exchanges, Member.exchanges, Member.exchangeable?_stripped, ih]
    cases x.exchangeable? with
    | none => rfl
    | some first =>
      rw [Option.map_some]
      dsimp only
      rw [names]
      rfl

/-! ### Two scans -/

namespace Scan

/-- Two scans of which the other one sees the stripped module. -/
structure Alike (s t : Scan) : Prop where
  view : t.view = s.view.stripped
  marks : t.marks = s.marks
  chained : t.chained = s.chained
  index : t.index = s.index
  candidates : t.candidates.filter Candidate.isBlind = s.candidates.filter Candidate.isBlind

namespace Alike

variable {s t : Scan} {o : ScanOptions}

/-- Two scans alike stay alike when they take the same candidates, body emptiness aside. -/
theorem emit (h : s.Alike t) {new new' : List Candidate}
    (same : new'.filter Candidate.isBlind = new.filter Candidate.isBlind) :
    (s.emit o new).Alike (t.emit o new') := by
  refine ⟨h.view, h.marks, h.chained, h.index, ?_⟩
  have swap : ∀ list : List Candidate,
      (list.filter fun c => o.allows c.kind).filter Candidate.isBlind =
        (list.filter Candidate.isBlind).filter fun c => o.allows c.kind := by
    intro list
    rw [List.filter_filter, List.filter_filter]
    exact List.filter_congr fun c _ => Bool.and_comm _ _
  simp only [candidates_emit, List.filter_append, h.candidates, swap, same]

/-- A binding enters both scopes. -/
theorem bind (h : s.Alike t) (b : Binding) : (s.bind b).Alike (t.bind b) := by
  refine ⟨?_, h.marks, h.chained, h.index, h.candidates⟩
  simp [Scan.bind, h.view, View.stripped]

/-- So do the variables of one declaration. -/
theorem declare (h : s.Alike t) (origin : Origin) (vars : List Variable) :
    (s.declare origin vars).Alike (t.declare origin vars) := by
  unfold Scan.declare
  induction vars.filter (fun v => !v.ghost) generalizing s t with
  | nil => exact h
  | cons v vars ih => exact ih (h.bind _)

/-- And those of a pattern. -/
theorem bindAll (h : s.Alike t) (bindings : List (String × Ty)) :
    (bindings.foldl (fun s (name, ty) => s.bind ⟨name, ty, .patternVar⟩) s).Alike
      (bindings.foldl (fun s (name, ty) => s.bind ⟨name, ty, .patternVar⟩) t) := by
  induction bindings generalizing s t with
  | nil => exact h
  | cons b bindings ih => exact ih (h.bind _)

theorem openScope (h : s.Alike t) : s.openScope.Alike t.openScope := by
  refine ⟨h.view, ?_, h.chained, h.index, h.candidates⟩
  simp [Scan.openScope, h.view, h.marks, View.stripped]

theorem closeScope (h : s.Alike t) : s.closeScope.Alike t.closeScope := by
  obtain ⟨view, marks, chained, index, candidates⟩ := h
  unfold Scan.closeScope
  rw [marks]
  split
  · exact ⟨view, marks, chained, index, candidates⟩
  · refine ⟨?_, rfl, chained, index, candidates⟩
    simp [view, View.stripped]

theorem setStatic (h : s.Alike t) (b : Bool) :
    Alike { s with view := { s.view with inStatic := b } }
      { t with view := { t.view with inStatic := b } } := by
  refine ⟨?_, h.marks, h.chained, h.index, h.candidates⟩
  simp [h.view, View.stripped]

/-- A statement and its stripped form change two scans alike. -/
theorem enterStmt (h : s.Alike t) (st : Stmt) :
    (s.enterStmt st).Alike (t.enterStmt st.stripped) := by
  obtain ⟨kind, span, ghost⟩ := st
  cases kind with
  | ifElse guard thenBranch elseBranch =>
    cases elseBranch with
    | none => exact h
    | some b =>
      refine ⟨h.view, h.marks, ?_, h.index, h.candidates⟩
      simp [Scan.enterStmt, Stmt.stripped, StmtKind.stripped, Stmt.strippedOpt, h.chained]
  | forLoop index start stop ascending invariants body =>
    exact ⟨h.view, h.marks, h.chained, rfl, h.candidates⟩
  | expr e =>
    refine ⟨?_, h.marks, h.chained, h.index, h.candidates⟩
    simp [Scan.enterStmt, Stmt.stripped, StmtKind.stripped, h.view, View.stripped]
  | _ => exact h

/-- The step: entering a node and entering the stripped one keep two scans alike. -/
theorem enter (h : s.Alike t) (node : Node) : (s.enter o node).Alike (t.enter o node.stripped) := by
  cases node with
  | module m => exact h
  | «class» c =>
    refine ⟨?_, h.marks, h.chained, h.index, h.candidates⟩
    simp [Scan.enter, Node.stripped, Class.stripped, h.view, View.stripped]
  | datatype d =>
    refine ⟨?_, h.marks, h.chained, h.index, h.candidates⟩
    simp [Scan.enter, Node.stripped, Datatype.stripped, h.view, View.stripped]
  | field f => exact h
  | method d => exact ((h.openScope.setStatic d.isStatic).declare .param d.params).declare .out d.outs
  | function f => exact (h.openScope.setStatic f.isStatic).declare .param f.params
  | block b =>
    have declared := h.openScope.declare .loopIndex s.index.toList
    refine ⟨?_, ?_, ?_, rfl, ?_⟩ <;>
      simp only [Scan.enter, Node.stripped, Scan.openScope, h.index] at declared ⊢
    · exact declared.view
    · exact declared.marks
    · exact declared.chained
    · exact declared.candidates
  | stmt st =>
    have entered := h.enterStmt st
    have known : (t.enterStmt st.stripped).isChained st.stripped.span =
        (s.enterStmt st).isChained st.span := by
      rw [Scan.isChained, Scan.isChained, entered.chained, Stmt.span_stripped]
    simp only [Scan.enter, Node.stripped, known]
    split
    · exact entered
    · exact entered.emit st.proposals_stripped
  | case c => exact h.openScope.bindAll c.pattern.bindings
  | expr e =>
    have same : t.view.expr e = s.view.expr e := by rw [h.view, View.expr_stripped]
    exact h.emit (congrArg (List.filter Candidate.isBlind) same)

/-- Leaving a node closes in both what entering it opened. -/
theorem leave (h : s.Alike t) (node : Node) : (s.leave node).Alike (t.leave node.stripped) := by
  cases node with
  | «class» c | datatype d =>
    refine ⟨?_, h.marks, h.chained, h.index, h.candidates⟩
    simp [Scan.leave, Node.stripped, h.view, View.stripped]
  | method d | function f => exact h.closeScope.setStatic false
  | block b | case c => exact h.closeScope
  | stmt st =>
    obtain ⟨kind, span, ghost⟩ := st
    cases kind with
    | varDecl d => exact h.declare .local d.locals
    | expr e =>
      refine ⟨?_, h.marks, h.chained, h.index, h.candidates⟩
      simp [Scan.leave, Node.stripped, Stmt.stripped, StmtKind.stripped, h.view, View.stripped]
    | _ => exact h
  | module m | field f | expr e => exact h

/-- What a hook does is the same with and without specifications. -/
theorem step (h : s.Alike t) (e : Event) : (s.step o e).Alike (t.step o e.stripped) := by
  cases e with
  | visit node => exact h.enter node
  | leave node => exact h.leave node
  | stmtList list =>
    exact h.emit (congrArg (List.filter Candidate.isBlind) (Stmt.exchanges_stripped list))
  | memberList list =>
    exact h.emit (congrArg (List.filter Candidate.isBlind) (Member.exchanges_stripped list))
  | _ => exact h

/-- The run: by induction on the course, two scans that start alike end alike. -/
theorem follow (h : s.Alike t) (course : List Event) :
    (s.follow o course).Alike (t.follow o (course.map Event.stripped)) := by
  induction course generalizing s t with
  | nil => exact h
  | cons e course ih => exact ih (h.step e)

end Alike

end Scan

/-- A scan of the stripped module proposes the same, but for the case operators. -/
theorem Module.scan_stripped (m : Module) (o : ScanOptions) :
    (m.stripped.scan o).filter Candidate.isBlind = (m.scan o).filter Candidate.isBlind := by
  have start : (m.startScan o).Alike (m.stripped.startScan o) := by
    refine ⟨?_, rfl, rfl, rfl, rfl⟩
    simp [Module.startScan, View.stripped, Module.declarations_stripped]
  rw [Module.scan_eq_course, Module.scan_eq_course, Module.course_stripped]
  exact (start.follow m.course).candidates

/-- Two modules that are equal but for their specifications have the same candidates of every kind
except the replacement and the extraction of cases. -/
theorem Module.scan_of_stripped {m m' : Module} (same : m.stripped = m'.stripped)
    (o : ScanOptions) :
    (m.scan o).filter Candidate.isBlind = (m'.scan o).filter Candidate.isBlind := by
  rw [← m.scan_stripped o, same, m'.scan_stripped o]

/-- A method with a loop, where the condition is required, kept by the loop and asserted behind
it. -/
def Module.annotated (condition : Expr) : Module :=
  ⟨"m", [.class
    { name := "C"
      span := .range 0 20
      members := [.method
        { name := "f"
          params := []
          contract := { requires := [condition] }
          span := .range 1 19
          body := some ⟨[⟨.whileLoop none [condition] [] ⟨[], .range 6 7⟩, .range 4 8, false⟩,
            ⟨.assert condition, .range 9 12, false⟩], .range 3 18⟩ }] }]⟩

/-- The loop gets the same proposals, whatever the condition is. -/
theorem Module.scan_annotated :
    (annotated ⟨.name "n", .range 10 10, .bool⟩).stripped =
        (annotated ⟨.literal (.bool true), .range 10 11, .bool⟩).stripped ∧
      ((annotated ⟨.name "n", .range 10 10, .bool⟩).scan {}).filter Candidate.isBlind =
        ((annotated ⟨.literal (.bool true), .range 10 11, .bool⟩).scan {}).filter
          Candidate.isBlind ∧
      ((annotated ⟨.name "n", .range 10 10, .bool⟩).scan {}).filter Candidate.isBlind =
        [⟨.range 4 8, .statementDeletion, ""⟩, ⟨.range 4 8, .breakInsertion, ""⟩] :=
  ⟨by rfl, Module.scan_of_stripped (by rfl) {}, by rfl⟩

end Mutation
