import Mutation.Proofs.Checked
import Mutation.Proofs.Depth

/-!
# Editing walks by position

An editing walk of a program goes through the lists it may change by position: the targets and
values of an assignment, the operands of a chain, and the elements of a statement list, which
gets longer or shorter on the way. Its hooks can break off, and so can its recursion, which is
allowed a given depth. `CheckedRevision` is such a walk.

Where its hooks do not break off and do what the hooks of a modest revision do, and where it is
allowed the depth of the tree, the walk does not break off either and comes to what the revision
comes to (`CheckedRevision.Computes.module`).
-/

namespace Mutation

/-- The walk of a part, which can break off. -/
abbrev CheckedWalker (σ α : Type) := α → σ → Checked (Walked (α × σ))

namespace Checked

variable {α β σ : Type}

def rebuild (r : Checked (Walked (α × σ))) (f : α → β) : Checked (Walked (β × σ)) :=
  r.map fun r => r.rebuild f

/-- Continues the walk of one part with the walk of another. -/
def both (r : Checked (Walked (α × σ))) (other : β) (k : σ → Checked (Walked (β × σ))) :
    Checked (Walked ((α × β) × σ)) :=
  r.bind fun
    | .go (a, s) => rebuild (k s) fun b => (a, b)
    | .halt (a, s) => .ok (.halt ((a, other), s))
    | .cut (a, s) => .ok (.cut ((a, other), s))

/-- Walks the inside of a node if the editing hook called before it lets the walk in. -/
def enter (answer : Checked (Reply α × σ)) (inside : CheckedWalker σ α) :
    Checked (Walked (α × σ)) :=
  answer.bind fun
    | (.descend a, s) => inside a s
    | (.settle a, s) => .ok (.go (a, s))
    | (.halt a, s) => .ok (.halt (a, s))

/-- Walks the elements of a list in order. -/
def each (walk : CheckedWalker σ α) : CheckedWalker σ (List α)
  | [], s => .ok (.go ([], s))
  | a :: as, s => rebuild (both (walk a s) as (each walk as)) fun (a, as) => a :: as

/-- Walks the elements of a list by position, for so many rounds. -/
def eachAt (walk : CheckedWalker σ α) : Nat → List α → Nat → σ → Checked (Walked (List α × σ))
  | 0, list, _, s => .ok (.go (list, s))
  | rounds + 1, list, index, s => do
    match ← walk (← get list index) s with
    | .go (a, s) => eachAt walk rounds (← set list index a) (index + 1) s
    | .halt (a, s) => return .halt (← set list index a, s)
    | .cut (a, s) => return .cut (← set list index a, s)

end Checked

/-- The hooks of an editing walk that can break off. -/
structure CheckedRevision (σ : Type) extends Gates σ where
  halted : σ → Bool
  visit : (k : NodeSort) → k.Carrier → σ → Checked (Reply k.Carrier × σ)
  leave : (k : NodeSort) → k.Carrier → σ → k.Carrier × σ
  target : Expr → σ → Reply Expr × σ
  reviseStmts : List Stmt → σ → Checked (Reply (List Stmt) × σ)
  reviseMembers : List Member → σ → Checked (Reply (List Member) × σ)
  offer : Stmt → σ → Checked (Offer × σ)
  resyncUpdate : Update → σ → Checked (Update × σ)
  resyncChain : Chain → σ → Checked (Chain × σ)

namespace CheckedRevision

open Checked (rebuild both)

variable {σ : Type} (w : CheckedRevision σ)

def around (k : NodeSort) (inside : CheckedWalker σ k.Carrier) : CheckedWalker σ k.Carrier :=
  fun a s => do
    let walked ← Checked.enter (w.visit k a s) inside
    return walked.next fun (a, s) => .go (w.leave k a s)

def within {α : Type} (context : Context) (inside : CheckedWalker σ α) : CheckedWalker σ α :=
  fun a s =>
    if context = .executable then inside a s
    else do
      let walked ← inside a (w.enter context s)
      return walked.next fun (a, s) => .go (a, w.exit context s)

def specified {α : Type} (inside : CheckedWalker σ α) : CheckedWalker σ α
  | a, s => if w.specifications s then w.within .specification inside a s else .ok (.go (a, s))

section

/-!
The walks of the parts of a node are given the walk of an expression and that of a statement.
-/

variable (walkExpr : CheckedWalker σ Expr) (walkStmt : CheckedWalker σ Stmt)

/-- Walks the operands of a chain by position, and brings the chain in step when the walk ends in
one. -/
def chain : CheckedWalker σ Chain
  | c, s => do
    match ← Checked.eachAt walkExpr c.operands.length c.operands 0 s with
    | .go (operands, s) => return .go ({ c with operands }, s)
    | .halt (operands, s) => return .halt (← w.resyncChain { c with operands } s)
    | .cut (operands, s) => return .cut ({ c with operands }, s)

def exprKind : CheckedWalker σ ExprKind
  | .chain c, s => rebuild (w.chain walkExpr c s) .chain
  | .old x, s => rebuild (w.specified walkExpr x s) .old
  | kind, s => rebuild (Checked.each walkExpr kind.parts s) kind.withParts

def exprOpt : CheckedWalker σ (Option Expr)
  | none, s => .ok (.go (none, s))
  | some e, s => rebuild (walkExpr e s) some

/-- Walks the expressions of a clause. -/
def clause : CheckedWalker σ (List Expr)
  | es, s => if es.isEmpty then .ok (.go (es, s)) else w.specified (Checked.each walkExpr) es s

def contract : CheckedWalker σ Contract
  | c, s =>
    rebuild (both (both (both (w.clause walkExpr c.requires s)
      c.ensures (w.clause walkExpr c.ensures)) c.frame (w.clause walkExpr c.frame))
      c.decreases (w.clause walkExpr c.decreases))
        fun (((requires, ensures), frame), decreases) => ⟨requires, ensures, frame, decreases⟩

/-- Walks the targets of an assignment by position, and says whether the walk has ended inside
one. -/
def targetsAt : Nat → List Expr → Nat → σ → Checked (Walked ((List Expr × Bool) × σ))
  | 0, list, _, s => .ok (.go ((list, false), s))
  | rounds + 1, list, index, s => do
    let e ← Checked.get list index
    match w.target e s with
    | (.halt e, s) => return .halt ((← Checked.set list index e, false), s)
    | (.settle e, s) => targetsAt rounds (← Checked.set list index e) (index + 1) s
    | (.descend e, s) =>
      match ← walkExpr e s with
      | .go (e, s) => targetsAt rounds (← Checked.set list index e) (index + 1) s
      | .halt (e, s) => return .halt ((← Checked.set list index e, true), s)
      | .cut (e, s) => return .cut ((← Checked.set list index e, true), s)

/-- Walks the values of an assignment by position, and brings the assignment in step when the walk
ends in one. -/
def values : CheckedWalker σ Update
  | u, s => do
    match ← Checked.eachAt walkExpr u.values.length u.values 0 s with
    | .go (values, s) => return .go ({ u with values }, s)
    | .halt (values, s) => return .halt (← w.resyncUpdate { u with values } s)
    | .cut (values, s) => return .cut ({ u with values }, s)

def update : CheckedWalker σ Update
  | u, s => do
    match ← w.targetsAt walkExpr u.targets.length u.targets 0 s with
    | .halt ((targets, true), s) => return .halt (← w.resyncUpdate { u with targets } s)
    | .halt ((targets, false), s) => return .halt ({ u with targets }, s)
    | .cut ((targets, _), s) => return .cut ({ u with targets }, s)
    | .go ((targets, _), s) => w.values walkExpr { u with targets } s

def varDecl : CheckedWalker σ VarDecl
  | d, s =>
    match d.init with
    | some init => rebuild (w.values walkExpr init s) fun init => { d with init := some init }
    | none => .ok (.go (d, s))

/-- Offers and walks the elements of a statement list by position, for so many rounds at most. -/
def elementsAt : Nat → List Stmt → Nat → σ → Checked (Walked (List Stmt × σ))
  | 0, list, index, s =>
    if index < list.length then .error .endless else .ok (.go (list, s))
  | rounds + 1, list, index, s =>
    if index < list.length then do
      let st ← Checked.get list index
      if w.admits st.context s && w.worth s st.span then
        let (offer, s) ← w.offer st s
        let list ← Checked.set list index offer.left
        if w.halted s then
          let (list, _) ← offer.edit.checkedAt list index
          return .halt (list, s)
        else if offer.edit.isKeep then
          match ← walkStmt (← Checked.get list index) s with
          | .halt (st, s) => return .halt (← Checked.set list index st, s)
          | .cut (st, s) => return .cut (← Checked.set list index st, s)
          | .go (st, s) =>
            let list ← Checked.set list index st
            let index ← Checked.add index 1
            if w.halted s then return .halt (list, s) else elementsAt rounds list index s
        else
          let (list, count) ← offer.edit.checkedAt list index
          let index ← Checked.add index count
          if w.halted s then return .halt (list, s) else elementsAt rounds list index s
      else elementsAt rounds list (← Checked.add index 1) s
    else .ok (.go (list, s))

def stmts : CheckedWalker σ (List Stmt)
  | list, s =>
    Checked.enter (w.reviseStmts list s) fun list s =>
      if w.halted s then .ok (.halt (list, s)) else w.elementsAt walkStmt list.length list 0 s

def block : CheckedWalker σ Block
  | b, s =>
    if w.worth s b.span then
      w.around .block
        (fun b s => rebuild (w.stmts walkStmt b.stmts s) fun stmts => { b with stmts }) b s
    else .ok (.go (b, s))

def matchCase : CheckedWalker σ MatchCase
  | c, s =>
    if w.worth s c.span then
      w.around .case
        (fun c s => rebuild (w.stmts walkStmt c.body s) fun body => { c with body }) c s
    else .ok (.go (c, s))

def stmtOpt : CheckedWalker σ (Option Stmt)
  | none, s => .ok (.go (none, s))
  | some st, s => rebuild (walkStmt st s) some

def stmtKind : CheckedWalker σ StmtKind
  | .varDecl d, s => rebuild (w.varDecl walkExpr d s) .varDecl
  | .update u, s => rebuild (w.update walkExpr u s) .update
  | .expr e, s => rebuild (walkExpr e s) .expr
  | .ret values, s => rebuild (Checked.each walkExpr values s) .ret
  | .ifElse guard thenBranch elseBranch, s =>
    rebuild (both (both (exprOpt walkExpr guard s) thenBranch (w.block walkStmt thenBranch))
      elseBranch (stmtOpt walkStmt elseBranch))
        fun ((guard, thenBranch), elseBranch) => .ifElse guard thenBranch elseBranch
  | .whileLoop guard invariants decreases body, s =>
    rebuild (both (both (both (exprOpt walkExpr guard s)
      invariants (w.clause walkExpr invariants)) decreases (w.clause walkExpr decreases))
      body (w.block walkStmt body))
        fun (((guard, invariants), decreases), body) => .whileLoop guard invariants decreases body
  | .forLoop index start stop ascending invariants body, s =>
    rebuild (both (both (both (walkExpr start s) stop (exprOpt walkExpr stop))
      invariants (w.clause walkExpr invariants)) body (w.block walkStmt body))
        fun (((start, stop), invariants), body) =>
          .forLoop index start stop ascending invariants body
  | .breakLoop, s => .ok (.go (.breakLoop, s))
  | .continueLoop, s => .ok (.go (.continueLoop, s))
  | .block b, s => rebuild (w.block walkStmt b s) .block
  | .matchOn source cases, s =>
    rebuild (both (walkExpr source s) cases (Checked.each (w.matchCase walkStmt) cases))
      fun (source, cases) => .matchOn source cases
  | .assert e, s => rebuild (walkExpr e s) .assert
  | .assume e, s => rebuild (walkExpr e s) .assume
  | .print args, s => rebuild (Checked.each walkExpr args s) .print

end

/-- Walks an expression, to the given depth. -/
def expr : Nat → CheckedWalker σ Expr
  | 0, _, _ => .error .endless
  | depth + 1, e, s =>
    if w.worth s e.span then
      w.around .expr
        (fun e s => rebuild (w.exprKind (expr depth) e.kind s) fun kind => { e with kind }) e s
    else .ok (.go (e, s))

/-- Walks a statement, to the given depth. -/
def stmt : Nat → CheckedWalker σ Stmt
  | 0, _, _ => .error .endless
  | depth + 1, st, s =>
    if w.admits st.context s && w.worth s st.span then
      w.within st.context (w.around .stmt fun st s =>
        rebuild (w.stmtKind (w.expr depth) (stmt depth) st.kind s)
          fun kind => { st with kind }) st s
    else .ok (.go (st, s))

variable (depth : Nat)

def blockOpt : CheckedWalker σ (Option Block)
  | none, s => .ok (.go (none, s))
  | some b, s => rebuild (w.block (w.stmt depth) b s) some

def method : CheckedWalker σ Method :=
  w.around .method fun m s =>
    rebuild (both (w.contract (w.expr depth) m.contract s) m.body (w.blockOpt depth m.body))
      fun (contract, body) => { m with contract, body }

def function : CheckedWalker σ Function :=
  w.around .function fun f s =>
    rebuild (both (w.contract (w.expr depth) f.contract s) f.body
      (exprOpt (w.expr depth) f.body)) fun (contract, body) => { f with contract, body }

def memberKind : CheckedWalker σ Member
  | .field f, s => rebuild (w.around .field (fun f s => .ok (.go (f, s))) f s) .field
  | .method m, s => rebuild (w.method depth m s) .method
  | .function f, s => rebuild (w.function depth f s) .function

def member : CheckedWalker σ Member
  | m, s =>
    if w.admits m.context s && w.worth s m.span then
      w.within m.context (w.memberKind depth) m s
    else .ok (.go (m, s))

/-- Walks the members of a declaration in order; a halted revision ends the walk. -/
def eachMember : CheckedWalker σ (List Member)
  | [], s => .ok (.go ([], s))
  | m :: ms, s => do
    match ← w.member depth m s with
    | .halt (m, s) => return .halt (m :: ms, s)
    | .cut (m, s) => return .cut (m :: ms, s)
    | .go (m, s) =>
      if w.halted s then return .halt (m :: ms, s)
      else rebuild (eachMember ms s) fun ms => m :: ms

def members : CheckedWalker σ (List Member)
  | list, s =>
    Checked.enter (w.reviseMembers list s) fun list s =>
      if w.halted s then .ok (.halt (list, s)) else w.eachMember depth list s

/-- Walks a declaration. -/
def decl : CheckedWalker σ Decl
  | .class c, s =>
    rebuild (if w.worth s c.span then
      w.around .class (fun c s =>
        rebuild (w.members depth c.members s) fun members => { c with members }) c s
    else .ok (.go (c, s))) .class
  | .datatype d, s =>
    rebuild (if w.worth s d.span then
      w.around .datatype (fun d s =>
        rebuild (w.members depth d.members s) fun members => { d with members }) d s
    else .ok (.go (d, s))) .datatype

/-- Walks a module, to the given depth. -/
def module : CheckedWalker σ Module :=
  w.around .module fun m s =>
    rebuild (Checked.each (w.decl depth) m.decls s) fun decls => { m with decls }

/-- The hooks of a walk do not break off at nodes that are no larger than `bound`, and do there
what the hooks of a revision do. The revision lets the walk into no node that it has made larger,
and has what it wants once it has changed the element it was offered. -/
structure Computes (w : CheckedRevision σ) (v : Revision σ) (bound : Nat) : Prop where
  gates : w.toGates = v.toGates
  halted : w.halted = v.halted
  visit : ∀ k a s, w.visit k a s = .ok (v.visit k a s)
  leave : w.leave = v.leave
  target : w.target = v.target
  reviseStmts : ∀ list s, Stmt.sizeList list ≤ bound →
    w.reviseStmts list s = .ok (v.reviseStmts list s)
  reviseMembers : ∀ list s, w.reviseMembers list s = .ok (v.reviseMembers list s)
  offer : ∀ st s, w.offer st s = .ok (v.offer st s)
  resyncUpdate : ∀ u s, w.resyncUpdate u s = .ok (v.resyncUpdate u s)
  resyncChain : ∀ c s, c.operands.length ≤ bound → w.resyncChain c s = .ok (v.resyncChain c s)
  settled : ∀ st s, (v.offer st s).1.edit.isKeep = false → v.halted (v.offer st s).2 = true
  modest : v.Modest
  fits : bound < UInt64.size

end CheckedRevision

section

variable {α β σ : Type} {v : Revision σ}

namespace Checked

/-- Putting a node together breaks nothing off. -/
@[simp] theorem rebuild_ok (r : Walked (α × σ)) (f : α → β) :
    rebuild (.ok r) f = .ok (r.rebuild f) := rfl

/-- Two walks after each other do not break off when neither does. -/
theorem both_ok {r : Checked (Walked (α × σ))} {r' : Walked (α × σ)}
    {k : σ → Checked (Walked (β × σ))} {k' : σ → Walked (β × σ)} {other : β} (h : r = .ok r')
    (hk : ∀ s, k s = .ok (k' s)) : both r other k = .ok (r'.both other k') := by
  subst h
  cases r' with
  | halt r | cut r => rfl
  | go r =>
    change rebuild (k r.2) _ = _
    rw [hk, rebuild_ok]
    rfl

/-- A node is entered without breaking off when the hook answers and the inside, with the node that
the hook hands in, does not break off. -/
theorem enter_ok {answer : Checked (Reply α × σ)} {answer' : Reply α × σ}
    {inside : CheckedWalker σ α} {inside' : Walker σ α} (ha : answer = .ok answer')
    (h : ∀ a, answer'.1 = .descend a → ∀ s, inside a s = .ok (inside' a s)) :
    enter answer inside = .ok (Reply.enter answer' inside') := by
  subst ha
  obtain ⟨reply, s⟩ := answer'
  cases reply with
  | descend a => exact h a rfl s
  | settle a => rfl
  | halt a => rfl

variable {walk : CheckedWalker σ Expr} {plain : Walker σ Expr}

/-- A list is walked without breaking off when each of its members is. -/
theorem each_ok {es : List Expr} (h : ∀ e ∈ es, ∀ s, walk e s = .ok (plain e s)) (s : σ) :
    each walk es s = .ok (Revision.exprs plain es s) := by
  induction es generalizing s with
  | nil => rfl
  | cons e es ih =>
    obtain ⟨he, hes⟩ := List.forall_mem_cons.1 h
    rw [each, both_ok (he s) (ih hes), rebuild_ok, Revision.exprs]

/-- A walk by position leaves what is in front as it is. -/
theorem eachAt_ok (front : List Expr) {es : List Expr}
    (h : ∀ e ∈ es, ∀ s, walk e s = .ok (plain e s)) (s : σ) :
    eachAt walk es.length (front ++ es) front.length s =
      .ok ((Revision.exprs plain es s).rebuild fun es => front ++ es) := by
  induction es generalizing front s with
  | nil => rfl
  | cons e es ih =>
    obtain ⟨he, hes⟩ := List.forall_mem_cons.1 h
    simp only [List.length_cons, eachAt, get_next front es e rfl, ok_bind, he s, Revision.exprs]
    cases plain e s with
    | halt r | cut r => simp [set_next front es e rfl]
    | go r =>
      have rest := ih (front ++ [r.1]) hes r.2
      rw [List.append_assoc, List.length_append] at rest
      simp only [set_next front es e rfl, ok_bind]
      exact rest.trans (by simp)

end Checked

namespace CheckedRevision.Computes

open Checked

variable {w : CheckedRevision σ} {bound : Nat} (hw : w.Computes v bound)

include hw

/-- The node handed to the inside is no larger than the one the hook was given, so the depth at hand
is enough for it. -/
theorem around {k : NodeSort} {inside : CheckedWalker σ k.Carrier} {inside' : Walker σ k.Carrier}
    {a : k.Carrier} (h : ∀ b, k.size b ≤ k.size a → ∀ s, inside b s = .ok (inside' b s)) (s : σ) :
    w.around k inside a s = .ok (v.around k inside' a s) := by
  have entered : enter (w.visit k a s) inside = .ok (Reply.enter (v.visit k a s) inside') :=
    enter_ok (hw.visit k a s) fun b descends => h b (hw.modest.visit k a s b descends)
  rw [CheckedRevision.around, entered, ok_bind, hw.leave]
  rfl

/-- Entering and leaving a context breaks nothing off. -/
theorem within {context : Context} {inside : CheckedWalker σ α} {inside' : Walker σ α} {a : α}
    (h : ∀ s, inside a s = .ok (inside' a s)) (s : σ) :
    w.within context inside a s = .ok (v.within context inside' a s) := by
  unfold CheckedRevision.within Revision.within
  rw [hw.gates]
  split
  · exact h s
  · rw [h, ok_bind]
    rfl

/-- Nor does passing over a specification. -/
theorem specified {inside : CheckedWalker σ α} {inside' : Walker σ α} {a : α}
    (h : ∀ s, inside a s = .ok (inside' a s)) (s : σ) :
    w.specified inside a s = .ok (v.specified inside' a s) := by
  simp only [CheckedRevision.specified, Revision.specified, hw.gates]
  split
  · exact hw.within h s
  · rfl

section

/-!
The parts of a node, given that the walk of an expression and that of a statement come to what
the plain ones come to at nodes that are no larger than `n`.
-/

variable {walkExpr : CheckedWalker σ Expr} {expr : Walker σ Expr} {walkStmt : CheckedWalker σ Stmt}
  {stmt : Walker σ Stmt} {n : Nat} (small : n ≤ bound)
  (hE : ∀ e : Expr, e.size ≤ n → ∀ s, walkExpr e s = .ok (expr e s))
  (hS : ∀ st : Stmt, st.size ≤ n → ∀ s, walkStmt st s = .ok (stmt st s))

omit hw in
include hE in
/-- A member of a list that fits the depth fits it. -/
theorem forall_mem {es : List Expr} (h : Expr.sizeList es ≤ n) :
    ∀ e ∈ es, ∀ s, walkExpr e s = .ok (expr e s) :=
  fun e he => hE e (Nat.le_trans (Expr.size_le_of_mem he) h)

omit hw in
include hE in
/-- A list of expressions that fits the depth is walked in order. -/
theorem exprs {es : List Expr} (h : Expr.sizeList es ≤ n) (s : σ) :
    each walkExpr es s = .ok (Revision.exprs expr es s) :=
  each_ok (forall_mem hE h) s

omit hw in
include hE in
/-- By position, the same walk: no position is past the end. -/
theorem exprsAt {es : List Expr} (h : Expr.sizeList es ≤ n) (s : σ) :
    eachAt walkExpr es.length es 0 s = .ok (Revision.exprs expr es s) := by
  have walked := eachAt_ok [] (forall_mem hE h) s
  simpa using walked

include small hE

/-- The operands of a chain by position; the chain is brought in step where the walk ends in one. -/
theorem chain {c : Chain} (h : Expr.sizeList c.operands ≤ n) (s : σ) :
    w.chain walkExpr c s = .ok (v.chain expr c s) := by
  obtain ⟨operands, ops, resolved⟩ := c
  rw [CheckedRevision.chain, exprsAt hE h, ok_bind, Revision.chain]
  have length := Revision.length_exprs expr operands s
  cases walked : Revision.exprs expr operands s with
  | go r | cut r => rfl
  | halt r =>
    rw [walked, Walked.value] at length
    have few : r.1.length ≤ bound :=
      length ▸ Nat.le_trans (Expr.length_le_sizeList _) (Nat.le_trans h small)
    simp [hw.resyncChain ⟨r.1, ops, resolved⟩ r.2 few, Walked.ending]

/-- One case for chains, one for `old`, and one for all other shapes. -/
theorem exprKind {kind : ExprKind} (h : Expr.sizeList kind.parts ≤ n) (s : σ) :
    w.exprKind walkExpr kind s = .ok (v.exprKind expr kind s) := by
  by_cases chain : ∃ c, kind = .chain c
  · obtain ⟨c, rfl⟩ := chain
    rw [CheckedRevision.exprKind, hw.chain small hE h, rebuild_ok, Revision.exprKind]
  by_cases old : ∃ x, kind = .old x
  · obtain ⟨x, rfl⟩ := old
    rw [CheckedRevision.exprKind, hw.specified (forall_mem hE h x List.mem_cons_self),
      rebuild_ok, Revision.exprKind]
  have noChain : ∀ c, kind ≠ .chain c := fun c hc => chain ⟨c, hc⟩
  have noOld : ∀ x, kind ≠ .old x := fun x hx => old ⟨x, hx⟩
  rw [CheckedRevision.exprKind, exprs hE h, rebuild_ok, Revision.exprKind_eq expr v noChain noOld]
  · exact noChain
  · exact noOld

omit small

omit hw in
/-- An expression that may be absent. -/
theorem exprOpt {e : Option Expr} (h : Expr.sizeOpt e ≤ n) (s : σ) :
    exprOpt walkExpr e s = .ok (Revision.exprOpt expr e s) := by
  cases e with
  | none => rfl
  | some e => rw [CheckedRevision.exprOpt, hE e h, rebuild_ok, Revision.exprOpt]

/-- A clause is passed over when it is empty, so no first expression is asked of it. -/
theorem clause {es : List Expr} (h : Expr.sizeList es ≤ n) (s : σ) :
    w.clause walkExpr es s = .ok (v.clause expr es s) := by
  by_cases empty : es.isEmpty
  · simp [CheckedRevision.clause, Revision.clause, empty]
  · simpa [CheckedRevision.clause, Revision.clause, empty] using
      hw.specified (a := es) (exprs hE h) s

/-- The clauses of a contract in turn. -/
theorem contract {c : Contract} (h : c.size ≤ n) (s : σ) :
    w.contract walkExpr c s = .ok (v.contract expr c s) := by
  unfold Contract.size at h
  rw [CheckedRevision.contract,
    both_ok (both_ok (both_ok (hw.clause hE (by omega) s) (hw.clause hE (by omega)))
      (hw.clause hE (by omega))) (hw.clause hE (by omega)), rebuild_ok, Revision.contract]

/-- The targets by position: by induction on those that are left, with the front as it came out. -/
theorem targetsAt (front : List Expr) {es : List Expr} (h : Expr.sizeList es ≤ n) (s : σ) :
    w.targetsAt walkExpr es.length (front ++ es) front.length s =
      .ok ((v.targets expr es s).rebuild fun (es, inside) => (front ++ es, inside)) := by
  induction es generalizing front s with
  | nil => rfl
  | cons e es ih =>
    rw [Expr.sizeList_cons] at h
    have go (e' : Expr) (s : σ) : w.targetsAt walkExpr es.length (front ++ e' :: es)
        (front.length + 1) s =
          .ok (((v.targets expr es s).rebuild fun (es, inside) => (e' :: es, inside)).rebuild
            fun (es, inside) => (front ++ es, inside)) := by
      have rest := ih (front ++ [e']) (by omega) s
      rw [List.append_assoc, List.length_append] at rest
      exact rest.trans (by simp)
    have left := hw.modest.target e s
    simp only [List.length_cons, CheckedRevision.targetsAt, get_next front es e rfl, ok_bind,
      hw.target, Revision.targets]
    generalize v.target e s = answer at left
    obtain ⟨e' | e' | e', s'⟩ := answer
    · simp only [hE e' (Nat.le_trans (left e' rfl) (by omega)) s', ok_bind]
      cases expr e' s' with
      | halt r | cut r => simp [set_next front es e rfl]
      | go r =>
        simp only [set_next front es e rfl, ok_bind]
        exact go r.1 r.2
    · simp only [set_next front es e rfl, ok_bind]
      exact go e' s'
    · simp [set_next front es e rfl]

/-- The values by position; the pairs are brought in step where the walk ends in one. -/
theorem values {u : Update} (h : Expr.sizeList u.values ≤ n) (s : σ) :
    w.values walkExpr u s = .ok (v.values expr u s) := by
  rw [CheckedRevision.values, exprsAt hE h, ok_bind, Revision.values]
  cases Revision.exprs expr u.values s with
  | go r | cut r => rfl
  | halt r => simp [hw.resyncUpdate, Walked.ending]

/-- Targets come before values. -/
theorem update {u : Update} (h : u.size ≤ n) (s : σ) :
    w.update walkExpr u s = .ok (v.update expr u s) := by
  unfold Update.size at h
  have walked := hw.targetsAt hE [] (show Expr.sizeList u.targets ≤ n by omega) s
  simp only [List.nil_append, List.length_nil, Walked.rebuild_id] at walked
  rw [CheckedRevision.update, walked, ok_bind, Revision.update]
  rcases v.targets expr u.targets s with
    ⟨⟨targets, inside⟩, s⟩ | ⟨⟨targets, inside⟩, s⟩ | ⟨⟨targets, inside⟩, s⟩
  · exact hw.values hE (u := { u with targets }) (by simp only; omega) s
  · cases inside with
    | true => simp [hw.resyncUpdate]
    | false => rfl
  · rfl

/-- The assignment of a declaration, if it has one. -/
theorem varDecl {d : VarDecl} (h : d.size ≤ n) (s : σ) :
    w.varDecl walkExpr d s = .ok (v.varDecl expr d s) := by
  obtain ⟨locals, init⟩ := d
  cases init with
  | none => rfl
  | some init =>
    simp only [VarDecl.size, Update.size] at h
    simp only [CheckedRevision.varDecl, Revision.varDecl,
      hw.values hE (u := init) (by omega), rebuild_ok]

omit hE
include hS

/-- In front of the elements that are left stand as many as have been walked, so the rounds and
the positions are enough. -/
theorem elementsAt (front : List Stmt) {list : List Stmt} (h : Stmt.sizeList list ≤ n)
    (fits : front.length + list.length < UInt64.size) (s : σ) :
    w.elementsAt walkStmt list.length (front ++ list) front.length s =
      .ok ((v.elements stmt list s).rebuild fun list => front ++ list) := by
  induction list generalizing front s with
  | nil => simp [CheckedRevision.elementsAt, Revision.elements]
  | cons st list ih =>
    rw [Stmt.sizeList] at h
    rw [List.length_cons] at fits
    have go (st' : Stmt) (s : σ) : w.elementsAt walkStmt list.length (front ++ st' :: list)
        (front.length + 1) s =
          .ok ((v.elements stmt list s).rebuild fun list => front ++ st' :: list) := by
      have rest := ih (front ++ [st']) (by omega) (by simp; omega) s
      rw [List.append_assoc, List.length_append] at rest
      exact rest.trans (by simp)
    have settled := hw.settled st s
    have modest := hw.modest.offer st s
    obtain ⟨offer, s', offered⟩ : ∃ offer s', v.offer st s = (offer, s') := ⟨_, _, rfl⟩
    rw [offered] at settled modest
    simp only [List.length_cons, CheckedRevision.elementsAt, if_pos (lt_next front list st rfl),
      get_next front list st rfl, ok_bind, add_of_lt (show front.length + 1 < UInt64.size by omega),
      hw.offer, hw.halted, hw.gates, Revision.elements, offered, set_next front list st rfl]
    split
    next admitted =>
      cases halted : v.halted s' with
      | true =>
        simp [halted, offer.edit.checkedAt_next front list offer.left rfl, Revision.following,
          Offer.result]
      | false =>
        have kept : offer.edit.isKeep = true := by simpa [halted] using settled
        have walked := hS offer.left (Nat.le_trans (modest kept) (by omega)) s'
        simp only [kept, Bool.not_true, Bool.or_self, Bool.false_eq_true, if_false,
          if_true, get_next front list offer.left rfl, ok_bind, walked]
        cases stmt offer.left s' with
        | halt r | cut r => simp [set_next front list offer.left rfl]
        | go r =>
          simp only [set_next front list offer.left rfl, ok_bind, Revision.following]
          split
          · simp
          · exact (go r.1 r.2).trans (by simp)
    next passed => exact (go st s).trans (by simp)

include small

/-- A statement list: the list hook first, then its elements by position. -/
theorem stmts {list : List Stmt} (h : Stmt.sizeList list ≤ n) (s : σ) :
    w.stmts walkStmt list s = .ok (v.stmts stmt list s) := by
  refine enter_ok (hw.reviseStmts list s (by omega)) fun left descends s' => ?_
  have smaller := Nat.le_trans (hw.modest.reviseStmts list s left descends) h
  have length := Stmt.length_le_sizeList left
  have fits := hw.fits
  rw [hw.halted]
  split
  · rfl
  · have walked := hw.elementsAt hS [] smaller (by simp only [List.length_nil]; omega) s'
    simpa using walked

/-- A block that fits the depth. -/
theorem block {b : Block} (h : b.size ≤ n) (s : σ) :
    w.block walkStmt b s = .ok (v.block stmt b s) := by
  simp only [CheckedRevision.block, Revision.block, hw.gates]
  split
  · exact hw.around (k := .block) (fun b' smaller s => by
      obtain ⟨list, span⟩ := b'
      rw [hw.stmts small hS (Nat.le_trans smaller h), rebuild_ok]) s
  · rfl

/-- The cases of a match in turn. -/
theorem matchCases {cases : List MatchCase} (h : MatchCase.sizeList cases ≤ n) (s : σ) :
    each (w.matchCase walkStmt) cases s = .ok (v.matchCases stmt cases s) := by
  induction cases generalizing s with
  | nil => rfl
  | cons c cases ih =>
    rw [MatchCase.sizeList_cons] at h
    have first : w.matchCase walkStmt c s = .ok (v.matchCase stmt c s) := by
      simp only [CheckedRevision.matchCase, Revision.matchCase, hw.gates]
      split
      · exact hw.around (k := .case) (fun c' smaller s => by
          have fits : Stmt.sizeList c'.body ≤ n :=
            Nat.le_trans smaller (Nat.le_trans (Nat.le_add_right _ _) h)
          rw [hw.stmts small hS fits, rebuild_ok]) s
      · rfl
    rw [each, both_ok first (ih (by omega)), rebuild_ok, Revision.matchCases]

omit hw small in
/-- A branch that may be absent. -/
theorem stmtOpt {st : Option Stmt} (h : Stmt.sizeOpt st ≤ n) (s : σ) :
    stmtOpt walkStmt st s = .ok (Revision.stmtOpt stmt st s) := by
  cases st with
  | none => rfl
  | some st => rw [CheckedRevision.stmtOpt, hS st h, rebuild_ok, Revision.stmtOpt]

include hE

/-- One case per form: each part fits the depth that the form fits. -/
theorem stmtKind {kind : StmtKind} (h : kind.size ≤ n) (s : σ) :
    w.stmtKind walkExpr walkStmt kind s = .ok (v.stmtKind expr stmt kind s) := by
  cases kind <;> simp only [StmtKind.size] at h <;>
    rw [CheckedRevision.stmtKind, Revision.stmtKind]
  case varDecl d => rw [hw.varDecl hE h, rebuild_ok]
  case update u => rw [hw.update hE h, rebuild_ok]
  case expr e => rw [hE e h, rebuild_ok]
  case ret values => rw [exprs hE h, rebuild_ok]
  case ifElse guard thenBranch elseBranch =>
    rw [both_ok (both_ok (exprOpt hE (by omega) s) (hw.block small hS (by omega)))
      (stmtOpt hS (by omega)), rebuild_ok]
  case whileLoop guard invariants decreases body =>
    rw [both_ok (both_ok (both_ok (exprOpt hE (by omega) s) (hw.clause hE (by omega)))
      (hw.clause hE (by omega))) (hw.block small hS (by omega)), rebuild_ok]
  case forLoop index start stop ascending invariants body =>
    rw [both_ok (both_ok (both_ok (hE start (by omega) s) (exprOpt hE (by omega)))
      (hw.clause hE (by omega))) (hw.block small hS (by omega)), rebuild_ok]
  case block b => rw [hw.block small hS h, rebuild_ok]
  case matchOn source cases =>
    rw [both_ok (hE source (by omega) s) (hw.matchCases small hS (by omega)), rebuild_ok]
  case assert e => rw [hE e h, rebuild_ok]
  case assume e => rw [hE e h, rebuild_ok]
  case print args => rw [exprs hE h, rebuild_ok]

end

variable {depth : Nat} (deep : depth ≤ bound)

include deep

/-- The recursion over expressions: by induction on the depth. -/
theorem expr (e : Expr) (h : e.size ≤ depth) (s : σ) :
    w.expr depth e s = .ok (v.expr depth e s) := by
  induction depth generalizing e s with
  | zero =>
    have := e.size_pos
    omega
  | succ depth ih =>
    simp only [CheckedRevision.expr, Revision.expr, hw.gates]
    split
    · refine hw.around (k := .expr) (fun e' smaller s => ?_) s
      have fits : e'.size ≤ depth + 1 := Nat.le_trans smaller h
      rw [Expr.size_eq] at fits
      rw [hw.exprKind (by omega) (ih (by omega)) (by omega), rebuild_ok]
    · rfl

/-- The recursion over statements: by induction on the depth. -/
theorem stmt (st : Stmt) (h : st.size ≤ depth) (s : σ) :
    w.stmt depth st s = .ok (v.stmt depth st s) := by
  induction depth generalizing st s with
  | zero =>
    have := st.size_pos
    omega
  | succ depth ih =>
    simp only [CheckedRevision.stmt, Revision.stmt, hw.gates]
    split
    · refine hw.within (hw.around (k := .stmt) fun st' smaller s => ?_) s
      have fits : st'.size ≤ depth + 1 := Nat.le_trans smaller h
      rw [Stmt.size_eq] at fits
      rw [hw.stmtKind (by omega) (hw.expr (by omega)) (ih (by omega)) (by omega), rebuild_ok]
    · rfl

/-- A body that may be absent. -/
theorem blockOpt {b : Option Block} (h : b.elim 0 Block.size ≤ depth) (s : σ) :
    w.blockOpt depth b s = .ok (v.blockOpt (v.stmt depth) b s) := by
  cases b with
  | none => rfl
  | some b =>
    rw [CheckedRevision.blockOpt, hw.block deep (hw.stmt deep) h, rebuild_ok, Revision.blockOpt]

/-- One case per sort of member. -/
theorem memberKind {m : Member} (h : m.size ≤ depth) (s : σ) :
    w.memberKind depth m s = .ok (v.memberKind depth m s) := by
  cases m with
  | field f =>
    rw [CheckedRevision.memberKind, hw.around (k := .field) (fun _ _ _ => rfl), rebuild_ok,
      Revision.memberKind]
  | method m =>
    have walked : w.method depth m s = .ok (v.method depth m s) :=
      hw.around (k := .method) (fun m' smaller s => by
        have fits : (Member.method m').size ≤ depth := Nat.le_trans smaller h
        rw [Member.size] at fits
        rw [both_ok (hw.contract (hw.expr deep) (by omega) s) (hw.blockOpt deep (by omega)),
          rebuild_ok]) s
    rw [CheckedRevision.memberKind, walked, rebuild_ok, Revision.memberKind]
  | function f =>
    have walked : w.function depth f s = .ok (v.function depth f s) :=
      hw.around (k := .function) (fun f' smaller s => by
        have fits : (Member.function f').size ≤ depth := Nat.le_trans smaller h
        rw [Member.size] at fits
        rw [both_ok (hw.contract (hw.expr deep) (by omega) s)
          (exprOpt (hw.expr deep) (by omega)), rebuild_ok]) s
    rw [CheckedRevision.memberKind, walked, rebuild_ok, Revision.memberKind]

/-- A member that fits the depth. -/
theorem member {m : Member} (h : m.size ≤ depth) (s : σ) :
    w.member depth m s = .ok (v.member depth m s) := by
  simp only [CheckedRevision.member, Revision.member, hw.gates]
  split
  · exact hw.within (hw.memberKind deep h) s
  · rfl

/-- The members of a declaration in turn. -/
theorem eachMember {ms : List Member} (h : Member.sizeList ms ≤ depth) (s : σ) :
    w.eachMember depth ms s = .ok (v.eachMember depth ms s) := by
  induction ms generalizing s with
  | nil => rfl
  | cons m ms ih =>
    rw [Member.sizeList] at h
    rw [CheckedRevision.eachMember, hw.member deep (by omega), ok_bind, Revision.eachMember,
      hw.halted]
    cases v.member depth m s with
    | halt r | cut r => rfl
    | go r =>
      simp only [Revision.following, ih (by omega), rebuild_ok]
      split
      · rfl
      · rfl

/-- The member list, after the hook called on it. -/
theorem members {ms : List Member} (h : Member.sizeList ms ≤ depth) (s : σ) :
    w.members depth ms s = .ok (v.members depth ms s) := by
  refine enter_ok (hw.reviseMembers ms s) fun left descends s' => ?_
  rw [hw.halted]
  split
  · rfl
  · exact hw.eachMember deep (Nat.le_trans (hw.modest.reviseMembers ms s left descends) h) s'

/-- A declaration that fits the depth. -/
theorem decl {d : Decl} (h : d.size ≤ depth) (s : σ) :
    w.decl depth d s = .ok (v.decl depth d s) := by
  cases d with
  | «class» c =>
    simp only [CheckedRevision.decl, Revision.decl, Revision.class, hw.gates]
    split
    · rw [hw.around (k := .class) fun c' smaller s => by
        rw [hw.members deep (Nat.le_trans smaller h), rebuild_ok], rebuild_ok]
    · rfl
  | datatype d =>
    simp only [CheckedRevision.decl, Revision.decl, Revision.datatype, hw.gates]
    split
    · rw [hw.around (k := .datatype) fun d' smaller s => by
        rw [hw.members deep (Nat.le_trans smaller h), rebuild_ok], rebuild_ok]
    · rfl

/-- The declarations of a module in turn. -/
theorem decls {ds : List Decl} (h : Decl.sizeList ds ≤ depth) (s : σ) :
    each (w.decl depth) ds s = .ok (v.decls depth ds s) := by
  induction ds generalizing s with
  | nil => rfl
  | cons d ds ih =>
    rw [Decl.sizeList] at h
    rw [each, both_ok (hw.decl deep (by omega) s) (ih (by omega)), rebuild_ok, Revision.decls]

/-- A checked walk that is allowed the depth of the module comes to what the revision comes to. -/
theorem module {m : Module} (h : m.size ≤ depth) (s : σ) :
    w.module depth m s = .ok (v.module depth m s) :=
  hw.around (k := .module) (fun m' smaller s => by
    have fits : Decl.sizeList m'.decls ≤ depth := Nat.le_trans smaller h
    rw [hw.decls deep fits, rebuild_ok]) s

end CheckedRevision.Computes

end

end Mutation
