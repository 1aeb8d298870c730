import Mutation.Proofs.Course

/-!
# Restricted scans

A scan that is asked for some kinds only proposes what the full scan proposes of these kinds, in the
same order (`Module.scan_restricted`).

What a scan knows at a point does not depend on what it has proposed before. Forgetting the
candidates of other kinds before or after a hook call is the same (`Scan.retain_step`), and so it is
for a whole course.
-/

namespace Mutation

namespace Scan

/-- The scan without the candidates of the kinds that are not kept. -/
def retain (keep : Kind → Bool) (s : Scan) : Scan :=
  { s with candidates := s.candidates.filter fun c => keep c.kind }

variable {keep : Kind → Bool} {o o' : ScanOptions}

theorem retain_emit (narrow : ∀ kind, o'.allows kind = (o.allows kind && keep kind)) (s : Scan)
    (new : List Candidate) :
    (s.emit o new).retain keep = (s.retain keep).emit o' new := by
  have kept : (new.filter fun c => o.allows c.kind).filter (fun c => keep c.kind) =
      new.filter fun c => o'.allows c.kind := by
    rw [List.filter_filter]
    apply List.filter_congr
    intro c _
    rw [narrow, Bool.and_comm]
  rw [emit, emit, retain, List.filter_append, kept, retain]

theorem retain_declare (s : Scan) (origin : Origin) (vars : List Variable) :
    (s.declare origin vars).retain keep = (s.retain keep).declare origin vars := by
  simp only [declare]
  induction vars.filter fun v => !v.ghost generalizing s with
  | nil => rfl
  | cons v vars ih => exact ih (s.bind ⟨v.name, v.ty, origin⟩)

theorem retain_bindings (s : Scan) (bindings : List (String × Ty)) :
    (bindings.foldl (fun s b => s.bind ⟨b.1, b.2, .patternVar⟩) s).retain keep =
      bindings.foldl (fun s b => s.bind ⟨b.1, b.2, .patternVar⟩) (s.retain keep) := by
  induction bindings generalizing s with
  | nil => rfl
  | cons b bindings ih => exact ih (s.bind ⟨b.1, b.2, .patternVar⟩)

theorem retain_closeScope (s : Scan) : s.closeScope.retain keep = (s.retain keep).closeScope := by
  obtain ⟨view, marks, chained, index, candidates⟩ := s
  cases marks <;> rfl

theorem retain_enterStmt (s : Scan) (st : Stmt) :
    (s.enterStmt st).retain keep = (s.retain keep).enterStmt st := by
  obtain ⟨kind, span, ghost⟩ := st
  cases kind with
  | ifElse guard thenBranch elseBranch => cases elseBranch <;> rfl
  | _ => rfl

theorem retain_enter (narrow : ∀ kind, o'.allows kind = (o.allows kind && keep kind)) (s : Scan)
    (node : Node) : (s.enter o node).retain keep = (s.retain keep).enter o' node := by
  cases node with
  | method d =>
    simp only [enter]
    rw [retain_declare, retain_declare]
    rfl
  | function f =>
    simp only [enter]
    rw [retain_declare]
    rfl
  | block b =>
    have declared := @retain_declare keep s.openScope .loopIndex s.index.toList
    exact congrArg (fun s : Scan => { s with index := none }) declared
  | stmt st =>
    have entered := @retain_enterStmt keep s st
    have known : ((s.retain keep).enterStmt st).isChained st.span =
        (s.enterStmt st).isChained st.span := by
      rw [← entered]
      rfl
    simp only [enter, known]
    split
    · exact entered
    · rw [retain_emit narrow, entered]
  | case c => exact retain_bindings s.openScope c.pattern.bindings
  | expr e => exact retain_emit narrow s (s.view.expr e)
  | module m | «class» c | datatype d | field f => rfl

theorem retain_leave (s : Scan) (node : Node) :
    (s.leave node).retain keep = (s.retain keep).leave node := by
  cases node with
  | method d | function f =>
    have closed := @retain_closeScope keep s
    exact congrArg (fun s : Scan => { s with view := { s.view with inStatic := false } }) closed
  | block b | case c => exact retain_closeScope s
  | stmt st =>
    obtain ⟨kind, span, ghost⟩ := st
    cases kind with
    | varDecl d => exact retain_declare s .local d.locals
    | _ => rfl
  | module m | «class» c | datatype d | field f | expr e => rfl

/-- What a hook does to the rest of a scan does not depend on the candidates so far. -/
theorem retain_step (narrow : ∀ kind, o'.allows kind = (o.allows kind && keep kind)) (s : Scan)
    (e : Event) : (s.step o e).retain keep = (s.retain keep).step o' e := by
  cases e with
  | visit node => exact retain_enter narrow s node
  | leave node => exact retain_leave s node
  | stmtList list => exact retain_emit narrow s (Stmt.exchanges list)
  | memberList list => exact retain_emit narrow s (Member.exchanges list)
  | _ => rfl

theorem retain_follow (narrow : ∀ kind, o'.allows kind = (o.allows kind && keep kind)) (s : Scan)
    (course : List Event) : (s.follow o course).retain keep = (s.retain keep).follow o' course := by
  induction course generalizing s with
  | nil => rfl
  | cons e course ih =>
    calc ((s.step o e).follow o course).retain keep
      _ = ((s.step o e).retain keep).follow o' course := ih _
      _ = ((s.retain keep).step o' e).follow o' course := by rw [retain_step narrow]

end Scan

/-- Of two scans with the same sentinel, where one allows what the other allows of the kinds that
are kept, it proposes what the other proposes of these kinds. -/
theorem Module.scan_narrow {o o' : ScanOptions} {keep : Kind → Bool}
    (narrow : ∀ kind, o'.allows kind = (o.allows kind && keep kind))
    (sentinel : o'.sentinel = o.sentinel) (m : Module) :
    m.scan o' = (m.scan o).filter fun c => keep c.kind := by
  have start : m.startScan o' = (m.startScan o).retain keep := by
    rw [startScan, startScan, sentinel]
    rfl
  rw [scan_eq_course, scan_eq_course, start, ← Scan.retain_follow narrow]
  rfl

/-- A scan for some kinds proposes exactly the candidates of these kinds of the full scan, in its
order. -/
theorem Module.scan_restricted (m : Module) (sentinel : String) (kinds : List Kind) :
    m.scan { only := some kinds, sentinel } =
      (m.scan { only := none, sentinel }).filter fun c => kinds.contains c.kind := by
  let full : ScanOptions := { only := none, sentinel }
  have narrow (kind : Kind) : ScanOptions.allows { only := some kinds, sentinel } kind =
      (full.allows kind && kinds.contains kind) := rfl
  exact m.scan_narrow (o := full) narrow rfl

end Mutation
