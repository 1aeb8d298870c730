import Mutation.Proposal
import Mutation.Walk.Survey

/-!
# Scanning a module

A scan proposes every mutation its nodes suggest, in walk order over the executable code. It keeps
track of the variables in scope: parameters and results, the locals declared so far in each
enclosing list, the index of an enclosing loop inside its body, and the variables of an enclosing
case. Branches of an `if` chain are no list elements, so they get no proposals of their own; they
are known by their ranges. Targets of assignments get none either, except inside an index.
-/

namespace Mutation

/-- What a scan proposes. -/
structure ScanOptions where
  /-- Only these kinds; all when missing. -/
  only : Option (List Kind) := none
  /-- The text proposed in place of an empty one. -/
  sentinel : String := "mutant"

/-- Candidates of this kind are proposed. -/
def ScanOptions.allows (o : ScanOptions) (kind : Kind) : Bool :=
  o.only.all fun kinds => kinds.contains kind

/-- The state of a scan. -/
structure Scan where
  view : View := {}
  /-- The depths of the scope at the enclosing blocks, cases and members, the innermost first. -/
  marks : List Nat := []
  /-- The spans of the `else` branches seen so far. -/
  chained : List Span := []
  /-- The index of a loop whose body comes next. No more than one is waiting at a time, and no other
  block is entered before the body: between a `for` and its body only expressions are walked. -/
  index : Option Variable := none
  candidates : List Candidate := []

namespace Scan

/-- Adds proposals of the allowed kinds. -/
def emit (o : ScanOptions) (new : List Candidate) (s : Scan) : Scan :=
  { s with candidates := s.candidates ++ new.filter fun c => o.allows c.kind }

/-- Opens a scope. -/
def openScope (s : Scan) : Scan := { s with marks := s.view.scope.depth :: s.marks }

/-- Closes the innermost scope. -/
def closeScope (s : Scan) : Scan :=
  match s.marks with
  | [] => s
  | mark :: marks =>
    { s with marks, view := { s.view with scope := s.view.scope.restore mark } }

/-- Declares a variable. -/
def bind (s : Scan) (b : Binding) : Scan :=
  { s with view := { s.view with scope := s.view.scope.declare b } }

/-- Declares some variables, except the ghost ones. -/
def declare (origin : Origin) (vars : List Variable) (s : Scan) : Scan :=
  (vars.filter fun v => !v.ghost).foldl (fun s v => s.bind ⟨v.name, v.ty, origin⟩) s

/-- What a scan remembers of a statement it enters. -/
def enterStmt (st : Stmt) (s : Scan) : Scan :=
  match st.kind with
  | .ifElse _ _ (some branch) => { s with chained := branch.span :: s.chained }
  | .forLoop index .. => { s with index := some index }
  | .expr e => { s with view := { s.view with bare := some e.span } }
  | _ => s

/-- A statement with this span is an `else` branch. -/
def isChained (s : Scan) (span : Span) : Bool := s.chained.any fun c => c.coincides span

/-- The scan behind the start of a node. -/
def enter (o : ScanOptions) (node : Node) (s : Scan) : Scan :=
  match node with
  | .class c =>
    { s with view := { s.view with enclosingClass := some c.name, enclosingType := some c.name } }
  | .datatype d => { s with view := { s.view with enclosingType := some d.name } }
  | .method m =>
    let s := s.openScope
    let s := { s with view := { s.view with inStatic := m.isStatic } }
    (s.declare .param m.params).declare .out m.outs
  | .function f =>
    let s := s.openScope
    let s := { s with view := { s.view with inStatic := f.isStatic } }
    s.declare .param f.params
  | .block _ =>
    let s := s.openScope
    { s.declare .loopIndex s.index.toList with index := none }
  | .case c =>
    c.pattern.bindings.foldl (fun s (name, ty) => s.bind ⟨name, ty, .patternVar⟩) s.openScope
  | .stmt st =>
    let s := s.enterStmt st
    if s.isChained st.span then s else s.emit o st.proposals
  | .expr e => s.emit o (s.view.expr e)
  | _ => s

/-- The scan behind the end of a node. -/
def leave (node : Node) (s : Scan) : Scan :=
  match node with
  | .class _ =>
    { s with view := { s.view with enclosingClass := none, enclosingType := none } }
  | .datatype _ => { s with view := { s.view with enclosingType := none } }
  | .method _ | .function _ =>
    let s := s.closeScope
    { s with view := { s.view with inStatic := false } }
  | .block _ | .case _ => s.closeScope
  | .stmt st =>
    match st.kind with
    | .varDecl d => s.declare .local d.locals
    | .expr _ => { s with view := { s.view with bare := none } }
    | _ => s
  | _ => s

/-- The walk of a scan over expressions. -/
def exprSurvey (o : ScanOptions) : Survey Scan where
  visit node s := (.proceed, s.enter o node)
  leave := leave

/-- The walk of a scan. -/
def survey (o : ScanOptions) : Survey Scan where
  visit node s := (.proceed, s.enter o node)
  leave := leave
  target e s :=
    match e.kind with
    | .index _ i => (.skip, ((exprSurvey o).expr i s).value)
    | _ => (.skip, s)
  stmtList list s := (.proceed, s.emit o (Stmt.exchanges list))
  memberList list s := (.proceed, s.emit o (Member.exchanges list))

end Scan

/-- The candidates of a module, in walk order. -/
def Module.scan (m : Module) (o : ScanOptions) : List Candidate :=
  let start : Scan := { view := { declarations := m.declarations, sentinel := o.sentinel } }
  ((Scan.survey o).module m start).value.candidates

end Mutation
