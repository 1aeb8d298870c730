import Mutation.Walk.Edit
import Mutation.Walk.Flow

/-!
# Editing walks

A revision walks a tree like a survey and may change it: each hook is given a node and leaves one
in its place, and the walk goes on with what it has left. What is put in the place of a whole list,
or of an element of a statement list, is not walked. An element of a statement list is offered to
the revision before it is walked; only one that is kept is entered. A revision that has what it
wants is *halted*, and a list ends the walk at its next element. When the walk ends inside an
assignment or a chain, the revision may bring the resolved copy in step on the way out.

A revision may put in more and more, so that a walk need not come to an end. It is given a depth,
and is cut off below it.
-/

namespace Mutation

/-- The course of a walk of bounded depth, with what it has come to: it goes on, it has ended, or it
has been cut off. -/
inductive Walked (α : Type) where
  | go (value : α)
  | halt (value : α)
  | cut (value : α)

namespace Walked

/-- What the walk has come to. -/
def value {α : Type} : Walked α → α
  | .go a => a
  | .halt a => a
  | .cut a => a

/-- Changes what the walk has come to. -/
def map {α β : Type} (f : α → β) : Walked α → Walked β
  | .go a => .go (f a)
  | .halt a => .halt (f a)
  | .cut a => .cut (f a)

/-- Continues a walk that goes on. -/
def next {α : Type} (r : Walked α) (k : α → Walked α) : Walked α :=
  match r with
  | .go a => k a
  | .halt a => .halt a
  | .cut a => .cut a

/-- Continues the walk of one part with the walk of another; when the first does not go on, the
other part stays as it is. -/
def both {α β σ : Type} (r : Walked (α × σ)) (other : β) (k : σ → Walked (β × σ)) :
    Walked ((α × β) × σ) :=
  match r with
  | .go (a, s) => (k s).map fun (b, s) => ((a, b), s)
  | .halt (a, s) => .halt ((a, other), s)
  | .cut (a, s) => .cut ((a, other), s)

/-- Builds a node from its walked part. -/
def rebuild {α β σ : Type} (r : Walked (α × σ)) (f : α → β) : Walked (β × σ) :=
  r.map fun (a, s) => (f a, s)

/-- Lets a hook see what the walk has ended in. -/
def ending {α σ : Type} (r : Walked (α × σ)) (hook : α → σ → α × σ) : Walked (α × σ) :=
  match r with
  | .go a => .go a
  | .halt (a, s) => .halt (hook a s)
  | .cut a => .cut a

end Walked

/-- The walk of a part. -/
abbrev Walker (σ α : Type) := α → σ → Walked (α × σ)

/-- What an editing hook answers, with the node as the hook leaves it. -/
inductive Reply (α : Type) where
  /-- Walk the inside of the node. -/
  | descend (node : α)
  /-- Skip the inside of the node and go on after it. -/
  | settle (node : α)
  /-- End the walk. -/
  | halt (node : α)

/-- Walks the inside of a node if the editing hook called before it lets the walk in. -/
def Reply.enter {α σ : Type} (answer : Reply α × σ) (inside : Walker σ α) : Walked (α × σ) :=
  match answer with
  | (.descend a, s) => inside a s
  | (.settle a, s) => .go (a, s)
  | (.halt a, s) => .halt (a, s)

/-- What an editing hook answers that is offered an element of a statement list: the element as the
hook leaves it, and what becomes of it. -/
structure Offer where
  left : Stmt
  edit : Edit Stmt := .keep

/-- What stands in the place of the element. -/
def Offer.result (o : Offer) : List Stmt := o.edit.result o.left

/-- The sorts of nodes on which hooks are called before and after the inside. -/
inductive NodeSort where
  | module | «class» | datatype | field | method | function | block | stmt | case | expr

/-- The nodes of a sort. -/
@[reducible] def NodeSort.Carrier : NodeSort → Type
  | .module => Module
  | .class => Class
  | .datatype => Datatype
  | .field => Variable
  | .method => Method
  | .function => Function
  | .block => Block
  | .stmt => Stmt
  | .case => MatchCase
  | .expr => Expr

/-- A node of a sort. -/
def NodeSort.node : (k : NodeSort) → k.Carrier → Node
  | .module => .module
  | .class => .class
  | .datatype => .datatype
  | .field => .field
  | .method => .method
  | .function => .function
  | .block => .block
  | .stmt => .stmt
  | .case => .case
  | .expr => .expr

/-- The hooks of an editing walk. -/
structure Revision (σ : Type) extends Gates σ where
  /-- The revision needs no further nodes. -/
  halted : σ → Bool := fun _ => false
  /-- Called before a node. -/
  visit : (k : NodeSort) → k.Carrier → σ → Reply k.Carrier × σ := fun _ a s => (.descend a, s)
  /-- Called after a node, also when its inside was skipped. -/
  leave : (k : NodeSort) → k.Carrier → σ → k.Carrier × σ := fun _ a s => (a, s)
  /-- Called on a target of an assignment, before it is walked as an expression. -/
  target : Expr → σ → Reply Expr × σ := fun e s => (.descend e, s)
  /-- Called before the statements of a list. -/
  reviseStmts : List Stmt → σ → Reply (List Stmt) × σ := fun list s => (.descend list, s)
  /-- Called before the members of a declaration. -/
  reviseMembers : List Member → σ → Reply (List Member) × σ := fun list s => (.descend list, s)
  /-- Called on an element of a statement list, before it is walked. -/
  offer : Stmt → σ → Offer × σ := fun st s => (⟨st, .keep⟩, s)
  /-- Called on an assignment in which the walk has ended. -/
  resyncUpdate : Update → σ → Update × σ := fun u s => (u, s)
  /-- Called on a chain in which the walk has ended. -/
  resyncChain : Chain → σ → Chain × σ := fun c s => (c, s)

namespace Revision

variable {σ : Type} (v : Revision σ)

/-- Calls the hooks of a node around the walk of its inside. -/
def around (k : NodeSort) (inside : Walker σ k.Carrier) (a : k.Carrier) (s : σ) :
    Walked (k.Carrier × σ) :=
  (Reply.enter (v.visit k a s) inside).next fun (a, s) => .go (v.leave k a s)

/-- Calls the hooks of a kind of code around a walk; executable code has none. -/
def within {α : Type} (context : Context) (inside : Walker σ α) (a : α) (s : σ) : Walked (α × σ) :=
  if context = .executable then inside a s
  else (inside a (v.enter context s)).next fun (a, s) => .go (a, v.exit context s)

/-- Walks a specification, if specifications are walked. -/
def specified {α : Type} (inside : Walker σ α) (a : α) (s : σ) : Walked (α × σ) :=
  if v.specifications s then v.within .specification inside a s else .go (a, s)

/-- Walks a list of which the list hook is asked first; a halted revision ends the walk. -/
def listed {α : Type} (hook : List α → σ → Reply (List α) × σ) (inside : Walker σ (List α))
    (list : List α) (s : σ) : Walked (List α × σ) :=
  Reply.enter (hook list s) fun list s =>
    if v.halted s then .halt (list, s) else inside list s

/-- Goes on with the elements after the first, unless the revision has halted. -/
def following {α : Type} (first rest : List α) (s : σ) (k : σ → Walked (List α × σ)) :
    Walked (List α × σ) :=
  if v.halted s then .halt (first ++ rest, s) else (k s).rebuild fun rest => first ++ rest

section

/-! The walks of the parts of a node are given the walk of an expression and that of a statement. -/

variable (expr : Walker σ Expr) (stmt : Walker σ Stmt)

/-- Walks some expressions. -/
def exprs : Walker σ (List Expr)
  | [], s => .go ([], s)
  | e :: es, s => ((expr e s).both es (exprs es)).rebuild fun (e, es) => e :: es

/-- Walks an expression that may be missing. -/
def exprOpt : Walker σ (Option Expr)
  | none, s => .go (none, s)
  | some e, s => (expr e s).rebuild some

/-- Walks expressions that may be missing. -/
def exprsOpt : Walker σ (Option (List Expr))
  | none, s => .go (none, s)
  | some es, s => (exprs expr es s).rebuild some

/-- Walks the entries of a map display. -/
def mapEntries : Walker σ (List MapEntry)
  | [], s => .go ([], s)
  | ⟨key, value⟩ :: entries, s =>
    (((expr key s).both value (expr value)).both entries (mapEntries entries)).rebuild
      fun ((key, value), entries) => ⟨key, value⟩ :: entries

/-- Walks the operands of a chain, and brings the chain in step when the walk ends in one. -/
def chain (c : Chain) (s : σ) : Walked (Chain × σ) :=
  ((exprs expr c.operands s).rebuild fun operands => { c with operands }).ending v.resyncChain

/-- Walks the parts of an expression. -/
def exprKind : Walker σ ExprKind
  | .literal l, s => .go (.literal l, s)
  | .name n, s => .go (.name n, s)
  | .this, s => .go (.this, s)
  | .binary op l r, s => ((expr l s).both r (expr r)).rebuild fun (l, r) => .binary op l r
  | .unary op x, s => (expr x s).rebuild fun x => .unary op x
  | .chain c, s => (v.chain expr c s).rebuild .chain
  | .member r field, s => (expr r s).rebuild fun r => .member r field
  | .tupleIndex t i, s => (expr t s).rebuild fun t => .tupleIndex t i
  | .index q i, s => ((expr q s).both i (expr i)).rebuild fun (q, i) => .index q i
  | .call r method args, s =>
    ((exprOpt expr r s).both args (exprs expr args)).rebuild fun (r, args) => .call r method args
  | .display k es, s => (exprs expr es s).rebuild fun es => .display k es
  | .mapDisplay entries, s => (mapEntries expr entries s).rebuild .mapDisplay
  | .arrayAlloc ty dims init, s =>
    ((exprs expr dims s).both init (exprsOpt expr init)).rebuild fun (dims, init) =>
      .arrayAlloc ty dims init
  | .ctor datatype ctor args, s => (exprs expr args s).rebuild fun args => .ctor datatype ctor args
  | .ite c t f, s =>
    (((expr c s).both t (expr t)).both f (expr f)).rebuild fun ((c, t), f) => .ite c t f
  | .old x, s => (v.specified expr x s).rebuild .old

/-- Walks the expressions of a clause; a clause without any has no hooks. -/
def clause (es : List Expr) (s : σ) : Walked (List Expr × σ) :=
  if es.isEmpty then .go (es, s) else v.specified (exprs expr) es s

/-- Walks a contract. -/
def contract (c : Contract) (s : σ) : Walked (Contract × σ) :=
  ((((v.clause expr c.requires s).both c.ensures (v.clause expr c.ensures)).both c.frame
    (v.clause expr c.frame)).both c.decreases (v.clause expr c.decreases)).rebuild
      fun (((requires, ensures), frame), decreases) => ⟨requires, ensures, frame, decreases⟩

/-- Walks the targets of an assignment, and says whether the walk has ended inside one. -/
def targets : List Expr → σ → Walked ((List Expr × Bool) × σ)
  | [], s => .go (([], false), s)
  | e :: es, s =>
    match v.target e s with
    | (.halt e, s) => .halt ((e :: es, false), s)
    | (.settle e, s) => (targets es s).rebuild fun (es, inside) => (e :: es, inside)
    | (.descend e, s) =>
      match expr e s with
      | .halt (e, s) => .halt ((e :: es, true), s)
      | .cut (e, s) => .cut ((e :: es, true), s)
      | .go (e, s) => (targets es s).rebuild fun (es, inside) => (e :: es, inside)

/-- Walks the values of an assignment, and brings it in step when the walk ends in one. -/
def values (u : Update) (s : σ) : Walked (Update × σ) :=
  ((exprs expr u.values s).rebuild fun values => { u with values }).ending v.resyncUpdate

/-- Walks an assignment. -/
def update (u : Update) (s : σ) : Walked (Update × σ) :=
  match v.targets expr u.targets s with
  | .halt ((targets, true), s) => .halt (v.resyncUpdate { u with targets } s)
  | .halt ((targets, false), s) => .halt ({ u with targets }, s)
  | .cut ((targets, _), s) => .cut ({ u with targets }, s)
  | .go ((targets, _), s) => v.values expr { u with targets } s

/-- Walks the values of a declaration. -/
def varDecl (d : VarDecl) (s : σ) : Walked (VarDecl × σ) :=
  match d.init with
  | some init => (v.values expr init s).rebuild fun init => { d with init := some init }
  | none => .go (d, s)

/-- Offers and walks the statements of a list in order. -/
def elements : Walker σ (List Stmt)
  | [], s => .go ([], s)
  | st :: list, s =>
    if v.admits st.context s && v.worth s st.span then
      match v.offer st s with
      | (offer, s) =>
        if v.halted s || !offer.edit.isKeep then
          v.following offer.result list s (elements list)
        else
          match stmt offer.left s with
          | .halt (st, s) => .halt (st :: list, s)
          | .cut (st, s) => .cut (st :: list, s)
          | .go (st, s) => v.following [st] list s (elements list)
    else (elements list s).rebuild fun list => st :: list

/-- Walks a statement list. -/
def stmts : Walker σ (List Stmt) := v.listed v.reviseStmts (v.elements stmt)

/-- Walks a block. -/
def block (b : Block) (s : σ) : Walked (Block × σ) :=
  if v.worth s b.span then
    v.around .block (fun b s =>
      (v.stmts stmt b.stmts s).rebuild fun stmts => { b with stmts }) b s
  else .go (b, s)

/-- Walks a case of a match. -/
def matchCase (c : MatchCase) (s : σ) : Walked (MatchCase × σ) :=
  if v.worth s c.span then
    v.around .case (fun c s => (v.stmts stmt c.body s).rebuild fun body => { c with body }) c s
  else .go (c, s)

/-- Walks the cases of a match. -/
def matchCases : Walker σ (List MatchCase)
  | [], s => .go ([], s)
  | c :: cases, s =>
    ((v.matchCase stmt c s).both cases (matchCases cases)).rebuild fun (c, cases) => c :: cases

/-- Walks a statement that may be missing. -/
def stmtOpt : Walker σ (Option Stmt)
  | none, s => .go (none, s)
  | some st, s => (stmt st s).rebuild some

/-- Walks a block that may be missing. -/
def blockOpt : Walker σ (Option Block)
  | none, s => .go (none, s)
  | some b, s => (v.block stmt b s).rebuild some

/-- Walks the parts of a statement. -/
def stmtKind : Walker σ StmtKind
  | .varDecl d, s => (v.varDecl expr d s).rebuild .varDecl
  | .update u, s => (v.update expr u s).rebuild .update
  | .expr e, s => (expr e s).rebuild .expr
  | .ret values, s => (exprs expr values s).rebuild .ret
  | .ifElse guard thenBranch elseBranch, s =>
    (((exprOpt expr guard s).both thenBranch (v.block stmt thenBranch)).both elseBranch
      (stmtOpt stmt elseBranch)).rebuild
        fun ((guard, thenBranch), elseBranch) => .ifElse guard thenBranch elseBranch
  | .whileLoop guard invariants decreases body, s =>
    ((((exprOpt expr guard s).both invariants (v.clause expr invariants)).both decreases
      (v.clause expr decreases)).both body (v.block stmt body)).rebuild
        fun (((guard, invariants), decreases), body) => .whileLoop guard invariants decreases body
  | .forLoop index start stop ascending invariants body, s =>
    ((((expr start s).both stop (exprOpt expr stop)).both invariants
      (v.clause expr invariants)).both body (v.block stmt body)).rebuild
        fun (((start, stop), invariants), body) =>
          .forLoop index start stop ascending invariants body
  | .breakLoop, s => .go (.breakLoop, s)
  | .continueLoop, s => .go (.continueLoop, s)
  | .block b, s => (v.block stmt b s).rebuild .block
  | .matchOn source cases, s =>
    ((expr source s).both cases (v.matchCases stmt cases)).rebuild
      fun (source, cases) => .matchOn source cases
  | .assert e, s => (expr e s).rebuild .assert
  | .assume e, s => (expr e s).rebuild .assume
  | .print args, s => (exprs expr args s).rebuild .print

end

/-- Walks an expression, to the given depth. -/
def expr : Nat → Walker σ Expr
  | 0, e, s => .cut (e, s)
  | depth + 1, e, s =>
    if v.worth s e.span then
      v.around .expr (fun e s =>
        (v.exprKind (expr depth) e.kind s).rebuild fun kind => { e with kind }) e s
    else .go (e, s)

/-- Walks a statement, to the given depth. -/
def stmt : Nat → Walker σ Stmt
  | 0, st, s => .cut (st, s)
  | depth + 1, st, s =>
    if v.admits st.context s && v.worth s st.span then
      v.within st.context (v.around .stmt fun st s =>
        (v.stmtKind (v.expr depth) (stmt depth) st.kind s).rebuild
          fun kind => { st with kind }) st s
    else .go (st, s)

variable (depth : Nat)

/-- Walks a method. -/
def method : Walker σ Method :=
  v.around .method fun m s =>
    ((v.contract (v.expr depth) m.contract s).both m.body
      (v.blockOpt (v.stmt depth) m.body)).rebuild fun (contract, body) => { m with contract, body }

/-- Walks a function. -/
def function : Walker σ Function :=
  v.around .function fun f s =>
    ((v.contract (v.expr depth) f.contract s).both f.body
      (exprOpt (v.expr depth) f.body)).rebuild fun (contract, body) => { f with contract, body }

/-- Walks the inside of a member. -/
def memberKind : Walker σ Member
  | .field f, s => (v.around .field (fun f s => .go (f, s)) f s).rebuild .field
  | .method m, s => (v.method depth m s).rebuild .method
  | .function f, s => (v.function depth f s).rebuild .function

/-- Walks a member. -/
def member (m : Member) (s : σ) : Walked (Member × σ) :=
  if v.admits m.context s && v.worth s m.span then
    v.within m.context (v.memberKind depth) m s
  else .go (m, s)

/-- Walks the members of a declaration in order. -/
def eachMember : Walker σ (List Member)
  | [], s => .go ([], s)
  | m :: ms, s =>
    match v.member depth m s with
    | .halt (m, s) => .halt (m :: ms, s)
    | .cut (m, s) => .cut (m :: ms, s)
    | .go (m, s) => v.following [m] ms s (eachMember ms)

/-- Walks a member list. -/
def members : Walker σ (List Member) := v.listed v.reviseMembers (v.eachMember depth)

/-- Walks a class. -/
def «class» (c : Class) (s : σ) : Walked (Class × σ) :=
  if v.worth s c.span then
    v.around .class (fun c s =>
      (v.members depth c.members s).rebuild fun members => { c with members }) c s
  else .go (c, s)

/-- Walks a datatype; constructors hold no code. -/
def datatype (d : Datatype) (s : σ) : Walked (Datatype × σ) :=
  if v.worth s d.span then
    v.around .datatype (fun d s =>
      (v.members depth d.members s).rebuild fun members => { d with members }) d s
  else .go (d, s)

/-- Walks a declaration. -/
def decl : Walker σ Decl
  | .class c, s => (v.class depth c s).rebuild .class
  | .datatype d, s => (v.datatype depth d s).rebuild .datatype

/-- Walks some declarations. -/
def decls : Walker σ (List Decl)
  | [], s => .go ([], s)
  | d :: ds, s => ((v.decl depth d s).both ds (decls ds)).rebuild fun (d, ds) => d :: ds

/-- Walks a module, to the given depth. -/
def module : Walker σ Module :=
  v.around .module fun m s => (v.decls depth m.decls s).rebuild fun decls => { m with decls }

end Revision

end Mutation
