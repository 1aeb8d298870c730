import Mutation.Walk.Flow

/-!
# Reading walks

A survey walks a tree without changing it. Nodes that are not worth entering and code of a kind
that is not admitted are passed over without a hook. Contracts come before bodies; the inside of
`old` is a specification; the targets of an initializer and the conjunction of a chain are not
walked.
-/

namespace Mutation

/-- The hooks of a reading walk. -/
structure Survey (σ : Type) extends Gates σ where
  /-- Called before a node. -/
  visit : Node → σ → Visit × σ := fun _ s => (.proceed, s)
  /-- Called after a node, also when its inside was skipped. -/
  leave : Node → σ → σ := fun _ s => s
  /-- Called on a target of an assignment, before it is walked as an expression. -/
  target : Expr → σ → Visit × σ := fun _ s => (.proceed, s)
  /-- Called before the statements of a list. -/
  stmtList : List Stmt → σ → Visit × σ := fun _ s => (.proceed, s)
  /-- Called before the members of a declaration. -/
  memberList : List Member → σ → Visit × σ := fun _ s => (.proceed, s)

namespace Survey

variable {σ : Type} (v : Survey σ)

/-- Calls the hooks of a node around the walk of its inside. -/
def around (node : Node) (inside : σ → Flow σ) (s : σ) : Flow σ :=
  (Visit.enter (v.visit node s) inside).next fun s => .go (v.leave node s)

/-- Calls the hooks of a kind of code around a walk; executable code has none. -/
def within (context : Context) (inside : σ → Flow σ) (s : σ) : Flow σ :=
  if context = .executable then inside s
  else (inside (v.enter context s)).next fun s => .go (v.exit context s)

/-- Walks a specification, if specifications are walked. -/
def specified (inside : σ → Flow σ) (s : σ) : Flow σ :=
  if v.specifications s then v.within .specification inside s else .go s

mutual
/-- Walks an expression. -/
def expr : Expr → σ → Flow σ
  | ⟨kind, span, ty⟩, s =>
    if v.worth s span then v.around (.expr ⟨kind, span, ty⟩) (fun s => exprKind kind s) s
    else .go s

def exprKind : ExprKind → σ → Flow σ
  | .literal _, s => .go s
  | .name _, s => .go s
  | .this, s => .go s
  | .binary _ l r, s => (expr l s).next fun s => expr r s
  | .unary _ x, s => expr x s
  | .chain c, s => chain c s
  | .member r _, s => expr r s
  | .tupleIndex t _, s => expr t s
  | .index q i, s => (expr q s).next fun s => expr i s
  | .call r _ args, s => (exprOpt r s).next fun s => exprs args s
  | .display _ es, s => exprs es s
  | .mapDisplay entries, s => mapEntries entries s
  | .arrayAlloc _ dims init, s => (exprs dims s).next fun s => exprsOpt init s
  | .ctor _ _ args, s => exprs args s
  | .ite c t f, s => ((expr c s).next fun s => expr t s).next fun s => expr f s
  | .old x, s => v.specified (fun s => expr x s) s

def chain : Chain → σ → Flow σ
  | ⟨operands, _, _⟩, s => exprs operands s

def exprs : List Expr → σ → Flow σ
  | [], s => .go s
  | e :: es, s => (expr e s).next fun s => exprs es s

def exprOpt : Option Expr → σ → Flow σ
  | none, s => .go s
  | some e, s => expr e s

def exprsOpt : Option (List Expr) → σ → Flow σ
  | none, s => .go s
  | some es, s => exprs es s

def mapEntries : List MapEntry → σ → Flow σ
  | [], s => .go s
  | ⟨key, value⟩ :: entries, s =>
    ((expr key s).next fun s => expr value s).next fun s => mapEntries entries s
end

/-- Walks the expressions of a clause; a clause without any has no hooks. -/
def clause (es : List Expr) (s : σ) : Flow σ :=
  if es.isEmpty then .go s else v.specified (fun s => v.exprs es s) s

/-- Walks some clauses. -/
def clauses : List (List Expr) → σ → Flow σ
  | [], s => .go s
  | c :: cs, s => (v.clause c s).next fun s => clauses cs s

/-- Walks the targets of an assignment. -/
def targets : List Expr → σ → Flow σ
  | [], s => .go s
  | e :: es, s => (Visit.enter (v.target e s) (v.expr e)).next fun s => targets es s

/-- Walks an assignment. -/
def update (u : Update) (s : σ) : Flow σ :=
  (v.targets u.targets s).next fun s => v.exprs u.values s

/-- Walks the values of a declaration. -/
def varDecl (d : VarDecl) (s : σ) : Flow σ :=
  match d.init with
  | some init => v.exprs init.values s
  | none => .go s

mutual
/-- Walks a statement. -/
def stmt : Stmt → σ → Flow σ
  | ⟨kind, span, ghost⟩, s =>
    let node : Stmt := ⟨kind, span, ghost⟩
    if v.admits node.context s && v.worth s span then
      v.within node.context (fun s => v.around (.stmt node) (fun s => stmtKind kind s) s) s
    else .go s

def stmtKind : StmtKind → σ → Flow σ
  | .varDecl d, s => v.varDecl d s
  | .update u, s => v.update u s
  | .expr e, s => v.expr e s
  | .ret values, s => v.exprs values s
  | .ifElse guard thenBranch elseBranch, s =>
    ((v.exprOpt guard s).next fun s => block thenBranch s).next fun s => stmtOpt elseBranch s
  | .whileLoop guard invariants decreases body, s =>
    ((v.exprOpt guard s).next fun s => v.clauses [invariants, decreases] s).next fun s =>
      block body s
  | .forLoop _ start stop _ invariants body, s =>
    (((v.expr start s).next fun s => v.exprOpt stop s).next fun s => v.clause invariants s).next
      fun s => block body s
  | .breakLoop, s => .go s
  | .continueLoop, s => .go s
  | .block b, s => block b s
  | .matchOn source cases, s => (v.expr source s).next fun s => matchCases cases s
  | .assert e, s => v.expr e s
  | .assume e, s => v.expr e s
  | .print args, s => v.exprs args s

def block : Block → σ → Flow σ
  | ⟨list, span⟩, s =>
    if v.worth s span then
      v.around (.block ⟨list, span⟩)
        (fun s => Visit.enter (v.stmtList list s) fun s => elements list s) s
    else .go s

/-- Walks the statements of a list in order. -/
def elements : List Stmt → σ → Flow σ
  | [], s => .go s
  | st :: list, s => (stmt st s).next fun s => elements list s

def stmtOpt : Option Stmt → σ → Flow σ
  | none, s => .go s
  | some st, s => stmt st s

def matchCases : List MatchCase → σ → Flow σ
  | [], s => .go s
  | ⟨pattern, body, span⟩ :: cases, s =>
    (if v.worth s span then
      v.around (.case ⟨pattern, body, span⟩)
        (fun s => Visit.enter (v.stmtList body s) fun s => elements body s) s
    else .go s).next fun s => matchCases cases s
end

/-- Walks a statement list. -/
def stmts (list : List Stmt) (s : σ) : Flow σ :=
  Visit.enter (v.stmtList list s) (v.elements list)

/-- Walks a block that may be missing. -/
def blockOpt : Option Block → σ → Flow σ
  | none, s => .go s
  | some b, s => v.block b s

/-- Walks a method. -/
def method (m : Method) (s : σ) : Flow σ :=
  v.around (.method m) (fun s =>
    (v.clauses m.contract.clauses s).next fun s => v.blockOpt m.body s) s

/-- Walks a function. -/
def function (f : Function) (s : σ) : Flow σ :=
  v.around (.function f) (fun s =>
    (v.clauses f.contract.clauses s).next fun s => v.exprOpt f.body s) s

/-- Walks the inside of a member. -/
def memberKind : Member → σ → Flow σ
  | .field f, s => v.around (.field f) .go s
  | .method m, s => v.method m s
  | .function f, s => v.function f s

/-- Walks a member. -/
def member (m : Member) (s : σ) : Flow σ :=
  if v.admits m.context s && v.worth s m.span then v.within m.context (v.memberKind m) s
  else .go s

/-- Walks the members of a declaration in order. -/
def eachMember : List Member → σ → Flow σ
  | [], s => .go s
  | m :: ms, s => (v.member m s).next fun s => eachMember ms s

/-- Walks a member list. -/
def members (list : List Member) (s : σ) : Flow σ :=
  Visit.enter (v.memberList list s) (v.eachMember list)

/-- Walks a declaration; constructors hold no code. -/
def decl : Decl → σ → Flow σ
  | .class c, s => if v.worth s c.span then v.around (.class c) (v.members c.members) s else .go s
  | .datatype d, s =>
    if v.worth s d.span then v.around (.datatype d) (v.members d.members) s else .go s

/-- Walks some declarations. -/
def decls : List Decl → σ → Flow σ
  | [], s => .go s
  | d :: ds, s => (v.decl d s).next fun s => decls ds s

/-- Walks a module. -/
def module (m : Module) (s : σ) : Flow σ := v.around (.module m) (v.decls m.decls) s

end Survey

end Mutation
