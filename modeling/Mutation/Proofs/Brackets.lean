import Mutation.Proofs.Course
import Mutation.Proofs.Mirror

/-!
# Hook calls in brackets

The hooks of a reading walk open and close brackets: a node is visited and left, and code that is
not executable is entered and exited. `Bracketed` is the grammar of these calls. The brackets of a
node hold those of its direct parts, in source order, of which some may be missing, since a part
that is not worth entering or not admitted is passed over without a call.

A policy answers hooks by what has been called before. When no hook answers that the walk is to
stop, the calls of its walk are well bracketed; otherwise the first such answer is the last call,
and what has been called is the beginning of calls that are well bracketed
(`Policy.bracketed_module`).
-/

namespace Mutation

/-! ### Direct parts -/

/-- The node of a member. -/
def Member.node : Member → Node
  | .field f => .field f
  | .method m => .method m
  | .function f => .function f

/-- The nodes directly in a statement. Targets of initializers are not among them. -/
def StmtKind.nodes : StmtKind → List Node
  | .varDecl d => d.values.map .expr
  | .update u => u.targets.map .expr ++ u.values.map .expr
  | .expr e | .assert e | .assume e => [.expr e]
  | .ret es | .print es => es.map .expr
  | .ifElse guard thenBranch elseBranch =>
    guard.toList.map .expr ++ [.block thenBranch] ++ elseBranch.toList.map .stmt
  | .whileLoop guard invariants decreases body =>
    guard.toList.map .expr ++ (invariants ++ decreases).map .expr ++ [.block body]
  | .forLoop _ start stop _ invariants body =>
    [.expr start] ++ stop.toList.map .expr ++ invariants.map .expr ++ [.block body]
  | .breakLoop | .continueLoop => []
  | .block b => [.block b]
  | .matchOn source cases => [.expr source] ++ cases.map .case

/-- The nodes directly in a node, in source order. -/
def Node.parts : Node → List Node
  | .module m => m.decls.map Decl.node
  | .class c => c.members.map Member.node
  | .datatype d => d.members.map Member.node
  | .field _ => []
  | .method m => m.contract.clauses.flatten.map .expr ++ m.body.toList.map .block
  | .function f => f.contract.clauses.flatten.map .expr ++ f.body.toList.map .expr
  | .block b => b.stmts.map .stmt
  | .stmt s => s.kind.nodes
  | .case c => c.body.map .stmt
  | .expr e => e.kind.parts.map .expr

/-- A hook call without a counterpart. -/
def Event.isLone : Event → Bool
  | .target _ | .stmtList _ | .memberList _ => true
  | _ => false

/-- The hook calls around those inside of code of this kind. -/
def Context.around (context : Context) (inside : List Event) : List Event :=
  .enter context :: (inside ++ [.exit context])

/-- `Bracketed ns es`: the hook calls `es` are well bracketed, and their outermost nodes are some of
`ns`, in this order. -/
inductive Bracketed : List Node → List Event → Prop
  | nil : Bracketed [] []
  /-- A node that is passed over. -/
  | passed {n : Node} {ns : List Node} {es : List Event} (rest : Bracketed ns es) :
    Bracketed (n :: ns) es
  /-- A node that is visited, and left after its parts. -/
  | node {n : Node} {ns : List Node} {inside es : List Event} (parts : Bracketed n.parts inside)
    (rest : Bracketed ns es) : Bracketed (n :: ns) (n.around inside ++ es)
  /-- Nodes in code that is not executable. -/
  | context {c : Context} {ms ns : List Node} {inside es : List Event} (other : c ≠ .executable)
    (held : Bracketed ms inside) (rest : Bracketed ns es) :
    Bracketed (ms ++ ns) (c.around inside ++ es)
  | lone {e : Event} {ns : List Node} {es : List Event} (lone : e.isLone = true)
    (rest : Bracketed ns es) : Bracketed ns (e :: es)

namespace Bracketed

/-- Any nodes may be passed by: no call is no obligation. -/
theorem none (ns : List Node) : Bracketed ns [] := by
  induction ns with
  | nil => exact .nil
  | cons n ns ih => exact .passed ih

/-- Two runs of calls, one after the other, on the nodes one after the other. -/
theorem append {ms ns : List Node} {es fs : List Event} (h : Bracketed ms es)
    (rest : Bracketed ns fs) : Bracketed (ms ++ ns) (es ++ fs) := by
  induction h with
  | nil => exact rest
  | passed _ ih => exact .passed ih
  | node parts _ _ ih =>
    rw [List.append_assoc]
    exact .node parts ih
  | context other held _ _ ih =>
    rw [List.append_assoc, List.append_assoc]
    exact .context other held ih
  | lone lone _ ih => exact .lone lone ih

/-- A node is entered, then its parts have their calls, then it is left. -/
theorem around_node {n : Node} {inside : List Event} (parts : Bracketed n.parts inside) :
    Bracketed [n] (n.around inside) := by
  simpa using Bracketed.node parts .nil

/-- A context is entered and left around the nodes that are walked in it. -/
theorem around_context {c : Context} {ns : List Node} {inside : List Event}
    (other : c ≠ .executable) (held : Bracketed ns inside) : Bracketed ns (c.around inside) := by
  simpa using Bracketed.context other held .nil

end Bracketed

namespace Policy

variable (p : Policy)

/-- What a hook answers when these have been called before, the last one first. Hooks that have
nothing to answer let the walk go on. -/
def answer (earlier : List Event) : Event → Visit
  | .visit n => p.visit earlier n
  | .target e => p.target earlier e
  | .stmtList list => p.stmtList earlier list
  | .memberList list => p.memberList earlier list
  | _ => .proceed

/-- None of the hooks called, the last one first, has answered that the walk is to stop. -/
def Quiet (called : List Event) : Prop :=
  ∀ e earlier, e :: earlier <:+ called → p.answer earlier e ≠ .stop

variable {p} {called : List Event} {ms ns : List Node}

/-- Nothing was stopped before the first call. -/
theorem quiet_nil : p.Quiet [] := fun e earlier h => by simp at h

/-- A call that does not stop the walk keeps it quiet. -/
theorem Quiet.cons (h : p.Quiet called) {e : Event} (goes : p.answer called e ≠ .stop) :
    p.Quiet (e :: called) := by
  intro e' earlier suffix
  rcases List.suffix_cons_iff.1 suffix with same | suffix
  · obtain ⟨rfl, rfl⟩ := List.cons.inj same
    exact goes
  · exact h e' earlier suffix

variable (p) in
/-- A walk through some of the nodes, after the hooks `called`, has come to this. -/
inductive Ends (ns : List Node) (called : List Event) : Flow (List Event) → Prop
  /-- It has called well bracketed hooks, and goes on. -/
  | go (new : List Event) (brackets : Bracketed ns new.reverse) (quiet : p.Quiet (new ++ called)) :
    Ends ns called (.go (new ++ called))
  /-- A hook has answered that it is to stop, and the brackets that are open then can be closed. -/
  | halt (e : Event) (new rest : List Event) (brackets : Bracketed ns (new.reverse ++ e :: rest))
    (quiet : p.Quiet (new ++ called)) (stop : p.answer (new ++ called) e = .stop) :
    Ends ns called (.halt (e :: (new ++ called)))

variable (p) in
/-- A walk through some of the nodes calls well bracketed hooks, up to the first answer that it is
to stop. -/
def Walks (ns : List Node) (walk : List Event → Flow (List Event)) : Prop :=
  ∀ called, p.Quiet called → p.Ends ns called (walk called)

namespace Ends

variable {r : Flow (List Event)}

/-- A walk that calls nothing ends as it began. -/
theorem pass (ns : List Node) (quiet : p.Quiet called) : p.Ends ns called (.go called) :=
  .go [] (.none ns) quiet

/-- A node that is walked only on a condition. -/
theorem gated (worth : Bool) (quiet : p.Quiet called) (h : p.Ends ns called r) :
    p.Ends ns called (if worth then r else .go called) := by
  cases worth with
  | false => exact pass ns quiet
  | true => exact h

/-- A walk that ended and the walk that follows it end as one. -/
theorem next {k : List Event → Flow (List Event)} (h : p.Ends ms called r) (rest : p.Walks ns k) :
    p.Ends (ms ++ ns) called (r.next k) := by
  cases h with
  | go new brackets quiet =>
    have after := rest _ quiet
    rw [Flow.next]
    generalize k (new ++ called) = q at after ⊢
    cases after with
    | go more brackets' quiet' =>
      rw [← List.append_assoc] at quiet' ⊢
      refine .go _ ?_ quiet'
      rw [List.reverse_append]
      exact brackets.append brackets'
    | halt e more rest brackets' quiet' stop =>
      rw [← List.append_assoc] at quiet' stop ⊢
      refine .halt e _ rest ?_ quiet' stop
      rw [List.reverse_append, List.append_assoc]
      exact brackets.append brackets'
  | halt e new rest brackets quiet stop =>
    refine .halt e new rest ?_ quiet stop
    simpa using brackets.append (.none ns)

/-- Hooks called before and after a walk. -/
theorem closed {opening closing : Event} (h : p.Ends ms (opening :: called) r)
    (close : ∀ inside, Bracketed ms inside → Bracketed ns (opening :: (inside ++ [closing])))
    (goes : ∀ called, p.answer called closing ≠ .stop) :
    p.Ends ns called (r.next fun called => .go (closing :: called)) := by
  cases h with
  | go new brackets quiet =>
    have regroup : closing :: (new ++ opening :: called) =
        (closing :: (new ++ [opening])) ++ called := by simp
    rw [Flow.next, regroup]
    refine .go _ ?_ (regroup ▸ quiet.cons (goes _))
    simpa using close _ brackets
  | halt e new rest brackets quiet stop =>
    have regroup : new ++ opening :: called = (new ++ [opening]) ++ called := by simp
    rw [regroup] at quiet stop
    rw [Flow.next, regroup]
    refine .halt e _ (rest ++ [closing]) ?_ quiet stop
    simpa using close _ brackets

/-- A hook without a counterpart, called before a walk. -/
theorem after {e : Event} (lone : e.isLone = true) (h : p.Ends ns (e :: called) r) :
    p.Ends ns called r := by
  have regroup (new : List Event) : new ++ e :: called = (new ++ [e]) ++ called := by simp
  cases h with
  | go new brackets quiet =>
    rw [regroup] at quiet ⊢
    refine .go _ ?_ quiet
    simpa using Bracketed.lone lone brackets
  | halt e' new rest brackets quiet stop =>
    rw [regroup] at quiet stop ⊢
    refine .halt e' _ rest ?_ quiet stop
    simpa using Bracketed.lone lone brackets

end Ends

namespace Walks

/-- A part without a node of its own is walked by calling nothing. -/
theorem pass (ns : List Node) : p.Walks ns .go := fun _ quiet => .pass ns quiet

/-- Two walks after each other walk the nodes of both. -/
theorem next {walk k : List Event → Flow (List Event)} (h : p.Walks ms walk) (rest : p.Walks ns k) :
    p.Walks (ms ++ ns) fun called => (walk called).next k :=
  fun called quiet => (h called quiet).next rest

variable {inside : List Event → Flow (List Event)}

/-- A hook without a counterpart, which is asked whether to walk. -/
theorem enter {e : Event} (lone : e.isLone = true) (h : p.Walks ns inside) :
    p.Walks ns fun called => Visit.enter (p.answer called e, e :: called) inside := by
  intro called quiet
  show p.Ends ns called (Visit.enter (p.answer called e, e :: called) inside)
  have opened (goes : p.answer called e ≠ .stop) : p.Quiet (e :: called) := quiet.cons goes
  cases answered : p.answer called e with
  | stop => exact .halt e [] [] (.lone lone (.none ns)) quiet answered
  | skip => exact (Ends.pass ns (opened (by simp [answered]))).after lone
  | proceed => exact (h _ (opened (by simp [answered]))).after lone

/-- A node is walked when its parts are: the three replies, one case each. -/
theorem around {n : Node} (h : p.Walks n.parts inside) :
    p.Walks [n] (p.survey.around n inside) := by
  intro called quiet
  have close : ∀ inside, Bracketed n.parts inside → Bracketed [n] (n.around inside) :=
    fun _ => .around_node
  unfold Survey.around
  cases answered : p.visit called n with
  | stop =>
    have halted : p.Ends [n] called (.halt (.visit n :: called)) :=
      .halt (.visit n) [] [.leave n] (close [] (.none _)) quiet answered
    simpa [survey, answered, Visit.enter, Flow.next] using halted
  | skip =>
    have opened : p.Quiet (.visit n :: called) := quiet.cons (by simp [answer, answered])
    have ends := (Ends.pass n.parts opened).closed close fun _ => by simp [answer]
    simpa [survey, answered, Visit.enter] using ends
  | proceed =>
    have opened : p.Quiet (.visit n :: called) := quiet.cons (by simp [answer, answered])
    have ends := (h _ opened).closed close fun _ => by simp [answer]
    simpa [survey, answered, Visit.enter] using ends

/-- A context adds its two calls around what is walked in it. -/
theorem within (context : Context) (h : p.Walks ns inside) :
    p.Walks ns (p.survey.within context inside) := by
  intro called quiet
  unfold Survey.within
  split
  · exact h called quiet
  · next other =>
    have opened : p.Quiet (.enter context :: called) := quiet.cons (by simp [answer])
    exact (h _ opened).closed (fun _ => .around_context other) fun _ => by simp [answer]

/-- A specification is walked in its context or passed over as a whole. -/
theorem specified (h : p.Walks ns inside) : p.Walks ns (p.survey.specified inside) := by
  intro called quiet
  exact .gated _ quiet (h.within .specification called quiet)

/-! ### Expressions -/

/-- A list of expressions is walked in order. -/
theorem exprs {es : List Expr} (each : ∀ e ∈ es, p.Walks [.expr e] (p.survey.expr e)) :
    p.Walks (es.map .expr) (p.survey.exprs es) := by
  induction es with
  | nil => exact pass []
  | cons e es ih =>
    obtain ⟨first, others⟩ := List.forall_mem_cons.1 each
    exact first.next (ih others)

/-- An expression is walked: by induction over its parts, one case per form. -/
theorem expr (e : Expr) : p.Walks [.expr e] (p.survey.expr e) := by
  induction e using Expr.induct with
  | step e ih =>
    obtain ⟨kind, span, ty⟩ := e
    have parts : p.Walks (Node.parts (.expr ⟨kind, span, ty⟩)) (p.survey.exprKind kind) := by
      by_cases old : ∃ e, kind = .old e
      · obtain ⟨e, rfl⟩ := old
        exact specified (ih e (by simp [ExprKind.parts]))
      · have walk : p.survey.exprKind kind = p.survey.exprs kind.parts :=
          funext fun called => p.survey.exprKind_eq (fun e he => old ⟨e, he⟩) called
        rw [walk]
        exact exprs ih
    intro called quiet
    exact .gated _ quiet (parts.around called quiet)

/-- So is every list of expressions. -/
theorem allExprs (es : List Expr) : p.Walks (es.map .expr) (p.survey.exprs es) :=
  exprs fun e _ => expr e

/-- And an expression that may be absent. -/
theorem exprOpt (e : Option Expr) : p.Walks (e.toList.map .expr) (p.survey.exprOpt e) := by
  cases e with
  | none => exact pass []
  | some e => exact expr e

/-- A clause without expressions calls nothing; any other is a specification. -/
theorem clause (es : List Expr) : p.Walks (es.map .expr) (p.survey.clause es) := by
  intro called quiet
  unfold Survey.clause
  split
  · exact .pass _ quiet
  · exact specified (allExprs es) called quiet

/-- Clauses are walked in turn. -/
theorem clauses (cs : List (List Expr)) :
    p.Walks (cs.flatten.map .expr) (p.survey.clauses cs) := by
  induction cs with
  | nil => exact pass []
  | cons c cs ih =>
    rw [List.flatten_cons, List.map_append]
    exact (clause c).next ih

/-- Targets are walked as the expressions they are. -/
theorem targets (es : List Expr) : p.Walks (es.map .expr) (p.survey.targets es) := by
  induction es with
  | nil => exact pass []
  | cons e es ih => exact (enter (e := .target e) rfl (expr e)).next ih

/-- Targets come before values. -/
theorem update (u : Update) :
    p.Walks (u.targets.map .expr ++ u.values.map .expr) (p.survey.update u) :=
  (targets u.targets).next (allExprs u.values)

/-- A declaration is walked in its values. -/
theorem varDecl (d : VarDecl) :
    p.Walks (d.values.map .expr) (p.survey.varDecl d) := by
  obtain ⟨locals, init⟩ := d
  cases init with
  | none => exact pass []
  | some init => exact allExprs init.values

/-! ### Statements -/

/-- The statements of a list are walked in order. -/
theorem elements {list : List Stmt} (each : ∀ s ∈ list, p.Walks [.stmt s] (p.survey.stmt s)) :
    p.Walks (list.map .stmt) (p.survey.elements list) := by
  induction list with
  | nil => exact pass []
  | cons s list ih =>
    obtain ⟨first, others⟩ := List.forall_mem_cons.1 each
    exact first.next (ih others)

/-- The list of a block or case. -/
theorem listed {list : List Stmt} (each : ∀ s ∈ list, p.Walks [.stmt s] (p.survey.stmt s)) :
    p.Walks (list.map .stmt) fun called =>
      Visit.enter (p.survey.stmtList list called) fun called => p.survey.elements list called :=
  enter (e := .stmtList list) rfl (elements each)

/-- A block is a node with the statements of its list below it. -/
theorem block {b : Block} (each : ∀ s ∈ b.stmts, p.Walks [.stmt s] (p.survey.stmt s)) :
    p.Walks [.block b] (p.survey.block b) := by
  obtain ⟨list, span⟩ := b
  intro called quiet
  have parts : p.Walks (Node.parts (.block ⟨list, span⟩)) _ := listed each
  exact .gated _ quiet (parts.around called quiet)

/-- A case is a node with the statements of its body below it. -/
theorem matchCases {cases : List MatchCase}
    (each : ∀ c ∈ cases, ∀ s ∈ c.body, p.Walks [.stmt s] (p.survey.stmt s)) :
    p.Walks (cases.map .case) (p.survey.matchCases cases) := by
  induction cases with
  | nil => exact pass []
  | cons c cases ih =>
    obtain ⟨pattern, body, span⟩ := c
    obtain ⟨here, others⟩ := List.forall_mem_cons.1 each
    have parts : p.Walks (Node.parts (.case ⟨pattern, body, span⟩)) _ := listed here
    intro called quiet
    exact (Ends.gated _ quiet (parts.around called quiet)).next (ih others)

/-- A branch that may be absent is walked as a statement. -/
theorem stmtOpt {s : Option Stmt} (each : ∀ t ∈ s, p.Walks [.stmt t] (p.survey.stmt t)) :
    p.Walks (s.toList.map .stmt) (p.survey.stmtOpt s) := by
  cases s with
  | none => exact pass []
  | some s => exact each s rfl

/-- One case per form: its expressions, its blocks and its branch in the order of its nodes. -/
theorem stmtKind {s : Stmt}
    (lists : ∀ b ∈ s.kind.lists, ∀ t ∈ b.2, p.Walks [.stmt t] (p.survey.stmt t))
    (branch : ∀ t ∈ s.elseBranch?, p.Walks [.stmt t] (p.survey.stmt t)) :
    p.Walks s.kind.nodes (p.survey.stmtKind s.kind) := by
  obtain ⟨kind, span, ghost⟩ := s
  cases kind with
  | varDecl d => exact varDecl d
  | update u => exact update u
  | expr e | assert e | assume e => exact expr e
  | ret es | print es => exact allExprs es
  | breakLoop | continueLoop => exact pass []
  | block b => exact block (lists (b.span, b.stmts) (by simp [StmtKind.lists]))
  | ifElse guard b elseBranch =>
    have body := block (lists (b.span, b.stmts) (by simp [StmtKind.lists]))
    exact ((exprOpt guard).next body).next (stmtOpt branch)
  | whileLoop guard invariants decreases b =>
    have body := block (lists (b.span, b.stmts) (by simp [StmtKind.lists]))
    have conditions := clauses (p := p) [invariants, decreases]
    rw [show [invariants, decreases].flatten = invariants ++ decreases by simp] at conditions
    exact ((exprOpt guard).next conditions).next body
  | forLoop index start stop ascending invariants b =>
    have body := block (lists (b.span, b.stmts) (by simp [StmtKind.lists]))
    exact (((expr start).next (exprOpt stop)).next (clause invariants)).next body
  | matchOn source cases =>
    have bodies := matchCases (p := p) fun c hc =>
      lists (c.span, c.body) (by simpa [StmtKind.lists] using ⟨c, hc, rfl, rfl⟩)
    exact (expr source).next bodies

/-- A statement is walked: by induction over its lists and its branch. -/
theorem stmt (s : Stmt) : p.Walks [.stmt s] (p.survey.stmt s) := by
  induction s using Stmt.induct with
  | step s lists branch =>
    obtain ⟨kind, span, ghost⟩ := s
    have parts : p.Walks (Node.parts (.stmt ⟨kind, span, ghost⟩)) _ := stmtKind lists branch
    intro called quiet
    exact .gated _ quiet (parts.around.within _ called quiet)

/-! ### Declarations -/

/-- A body that may be absent is walked as a block. -/
theorem blockOpt (b : Option Block) : p.Walks (b.toList.map .block) (p.survey.blockOpt b) := by
  cases b with
  | none => exact pass []
  | some b => exact block fun s _ => stmt s

/-- What a member holds is walked in its contexts. -/
theorem memberKind (m : Member) : p.Walks [m.node] (p.survey.memberKind m) := by
  cases m with
  | field f => exact around (pass [])
  | method m => exact around ((clauses m.contract.clauses).next (blockOpt m.body))
  | function f => exact around ((clauses f.contract.clauses).next (exprOpt f.body))

/-- A member is a node with its contract and its body below it. -/
theorem member (m : Member) : p.Walks [m.node] (p.survey.member m) :=
  fun called quiet => .gated _ quiet ((memberKind m).within _ called quiet)

/-- The members of a declaration are walked in order. -/
theorem eachMember (ms : List Member) : p.Walks (ms.map Member.node) (p.survey.eachMember ms) := by
  induction ms with
  | nil => exact pass []
  | cons m ms ih => exact (member m).next ih

/-- The member list itself is no node. -/
theorem members (ms : List Member) : p.Walks (ms.map Member.node) (p.survey.members ms) :=
  enter (e := .memberList ms) rfl (eachMember ms)

/-- A declaration is a node with its members below it. -/
theorem decl (d : Decl) : p.Walks [d.node] (p.survey.decl d) := by
  intro called quiet
  cases d with
  | «class» c =>
    have parts : p.Walks (Node.parts (.class c)) _ := members c.members
    exact .gated _ quiet (parts.around called quiet)
  | datatype d =>
    have parts : p.Walks (Node.parts (.datatype d)) _ := members d.members
    exact .gated _ quiet (parts.around called quiet)

/-- Declarations are walked in order. -/
theorem decls (ds : List Decl) : p.Walks (ds.map Decl.node) (p.survey.decls ds) := by
  induction ds with
  | nil => exact pass []
  | cons d ds ih => exact (decl d).next ih

/-- The run over a module, for every policy. -/
theorem module (m : Module) : p.Walks [.module m] (p.survey.module m) := around (decls m.decls)

end Walks

/-- The walk of a module by a policy either goes to its end, and then no hook has answered that it
is to stop and the calls are well bracketed; or it ends with the first hook that answers so, and the
calls up to this one are the beginning of calls that are well bracketed. -/
theorem bracketed_module (p : Policy) (m : Module) :
    (∃ called, p.survey.module m [] = .go called ∧ p.Quiet called ∧
      Bracketed [.module m] called.reverse) ∨
    ∃ e earlier rest, p.survey.module m [] = .halt (e :: earlier) ∧ p.Quiet earlier ∧
      p.answer earlier e = .stop ∧ Bracketed [.module m] (earlier.reverse ++ e :: rest) := by
  have ends := Walks.module (p := p) m [] quiet_nil
  generalize p.survey.module m [] = r at ends ⊢
  cases ends with
  | go new brackets quiet =>
    rw [List.append_nil] at quiet ⊢
    exact .inl ⟨new, rfl, quiet, brackets⟩
  | halt e new rest brackets quiet stop =>
    rw [List.append_nil] at quiet stop ⊢
    exact .inr ⟨e, new, rest, rfl, quiet, stop, brackets⟩

end Policy

end Mutation
