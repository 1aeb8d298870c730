import Mutation.Operator.OnStmt
import Mutation.Operator.Reduce
import Mutation.Report

/-!
# Deleting a variable

A deleted local takes with it what depends on it in the rest of its list, nested lists included:
expressions are reduced, and a statement that loses a part it cannot do without is deleted. A
declaration that loses the value of a local loses the local, which is an *orphan* and is purged
from the statements after it in turn. A declaration of the same name ends the purge behind its
own values. No local is purged twice, and orphans of orphans are followed to a limited depth.

Lists shrink as they are purged, so the recursion on lists is bounded by the number of statements
in them.
-/

namespace Mutation

/-- A local whose declaration died: its name and the span of the declaration. -/
abbrev Orphan := String × Span

/-- The state of a purge. -/
structure Purge where
  /-- The locals purged so far. -/
  visited : List Orphan := []
  /-- How many statements were deleted. -/
  deleted : Nat := 0
  /-- How many expressions gave way to an operand. -/
  collapsed : Nat := 0
  /-- The orphans purged so far, in order. -/
  cascaded : List String := []
  /-- An orphan lay too deep to be purged. -/
  exhausted : Bool := false
  notes : List Note := []

/-- Purges statements behind a declaration. -/
abbrev ListPurge := List Stmt → Purge → List Stmt × Purge

namespace Purge

/-- The local was purged before; declarations are told apart by their ranges. -/
def hasVisited (p : Purge) (orphan : Orphan) : Bool :=
  p.visited.any fun (name, span) => name == orphan.1 && span.coincides orphan.2

/-- Counts a deleted statement. -/
def countDeleted (p : Purge) : Purge := { p with deleted := p.deleted + 1 }

/-- Counts collapsed expressions. -/
def countCollapsed (p : Purge) (n : Nat) : Purge := { p with collapsed := p.collapsed + n }

/-- Gives up on an orphan at this depth. -/
def exhaust (p : Purge) (name : String) (depth : Nat) : Purge :=
  { p with exhausted := true, notes := p.notes ++ [.cascadeExhausted name depth] }

/-- Takes in an orphan that is about to be purged. -/
def takeIn (p : Purge) (orphan : Orphan) : Purge :=
  { p with visited := orphan :: p.visited, cascaded := p.cascaded ++ [orphan.1] }

/-- How far the deletion went. -/
def extent (p : Purge) : Extent :=
  if 0 < p.deleted then .statementsDeleted
  else if 0 < p.collapsed then .collapsed
  else .declarationOnly

end Purge

/-- What is left of a statement or of a part of one, and the orphans. -/
structure Purged (α : Type) where
  rest : Option α
  orphans : List Orphan := []
  state : Purge

namespace Purged

/-- Changes what is left. -/
def map {α β : Type} (f : α → β) (r : Purged α) : Purged β := { r with rest := r.rest.map f }

end Purged

/-- What is left of a part after reduction. -/
def Reduction.purged {α : Type} (r : Reduction α) (p : Purge) : Purged α :=
  { rest := r.rest, state := p.countCollapsed r.collapsed }

/-- The pairs of an assignment that are left: those whose target does not mention `dead` and of
whose value something is left. -/
def Update.reducePairs (dead : String) : List (Expr × Expr) → List (Expr × Expr) × Nat
  | [] => ([], 0)
  | (target, value) :: pairs =>
    let (rest, n) := Update.reducePairs dead pairs
    if target.mentions dead then (rest, n)
    else
      let r := value.reduce dead target.ty
      (match r.rest with
        | some value => (target, value) :: rest
        | none => rest,
        r.collapsed + n)

/-- What is left of an assignment. From one call nothing can be taken away. -/
def Update.purge (dead : String) (u : Update) (p : Purge) : Purged Update :=
  if u.isParallel then
    let (pairs, n) := Update.reducePairs dead (u.targets.zip u.values)
    { rest :=
        if pairs.isEmpty then none
        else some (.make (pairs.map (·.1)) (pairs.map (·.2)))
      state := p.countCollapsed n }
  else { rest := if u.names.contains dead then none else some u, state := p }

/-- The locals of a declaration that are left with their targets and values, and the names of the
others. -/
def VarDecl.reduceLocals (dead : String) :
    List (Variable × Expr × Expr) → List (Variable × Expr × Expr) × List String × Nat
  | [] => ([], [], 0)
  | (v, target, value) :: pairs =>
    let (rest, lost, n) := VarDecl.reduceLocals dead pairs
    let r := value.reduce dead v.ty
    match r.rest with
    | some value => ((v, target, value) :: rest, lost, r.collapsed + n)
    | none => (rest, v.name :: lost, r.collapsed + n)

/-- What is left of a declaration; the locals whose values are lost become orphans. -/
def VarDecl.purge (dead : String) (span : Span) (d : VarDecl) (p : Purge) : Purged VarDecl :=
  match d.init with
  | none => { rest := some d, state := p }
  | some init =>
    if d.isAligned init then
      let (left, lost, n) :=
        VarDecl.reduceLocals dead (d.locals.zip (init.targets.zip init.values))
      { rest :=
          if left.isEmpty then none
          else
            some ⟨left.map (·.1), some (.make (left.map (·.2.1)) (left.map (·.2.2)))⟩
        orphans := lost.map fun name => (name, span)
        state := p.countCollapsed n }
    else if (Expr.namesList init.values).contains dead then
      { rest := none, orphans := d.names.map fun name => (name, span), state := p }
    else { rest := some d, state := p }

/-- The arguments of a `print` of which something is left. -/
def Stmt.reduceArgs (dead : String) : List Expr → List Expr × Nat
  | [] => ([], 0)
  | e :: es =>
    let (rest, n) := Stmt.reduceArgs dead es
    let r := e.reduce dead e.ty
    (match r.rest with
      | some e => e :: rest
      | none => rest,
      r.collapsed + n)

/-- The clauses that do not mention a name. -/
def Expr.without (dead : String) (es : List Expr) : List Expr := es.filter fun e => !e.mentions dead

/-- Purges the bodies of the cases that do not bind the name themselves. -/
def MatchCase.purgeList (inner : ListPurge) (dead : String) :
    List MatchCase → Purge → List MatchCase × Purge
  | [], p => ([], p)
  | c :: cs, p =>
    let (body, p) := if c.pattern.names.contains dead then (c.body, p) else inner c.body p
    let (cs, p) := MatchCase.purgeList inner dead cs p
    ({ c with body } :: cs, p)

/-- Purges the statements of a block. -/
def Block.purge (inner : ListPurge) (b : Block) (p : Purge) : Block × Purge :=
  let (stmts, p) := inner b.stmts p
  ({ b with stmts }, p)

mutual
/-- What is left of a statement; `inner` purges the lists in it. -/
def Stmt.purge (inner : ListPurge) (dead : String) : Stmt → Purge → Purged Stmt
  | ⟨kind, span, ghost⟩, p => (kind.purge inner dead span p).map fun kind => ⟨kind, span, ghost⟩

def StmtKind.purge (inner : ListPurge) (dead : String) (span : Span) :
    StmtKind → Purge → Purged StmtKind
  | .varDecl d, p => (d.purge dead span p).map .varDecl
  | .update u, p => (u.purge dead p).map .update
  | .expr e, p => ((e.reduce dead e.ty).purged p).map .expr
  | .ret values, p => ((Expr.reduceList dead values).purged p).map .ret
  | .ifElse guard thenBranch elseBranch, p =>
    let r := (Expr.reduceOpt dead guard).purged p
    match r.rest with
    | none => { rest := none, state := r.state }
    | some guard =>
      let (thenBranch, p) := thenBranch.purge inner r.state
      let r := Stmt.purgeElse inner dead elseBranch p
      { r with rest := some (.ifElse guard thenBranch r.rest) }
  | .whileLoop guard invariants decreases body, p =>
    let r := (Expr.reduceOpt dead guard).purged p
    match r.rest with
    | none => { rest := none, state := r.state }
    | some guard =>
      let (body, p) := body.purge inner r.state
      { rest := some (.whileLoop guard (Expr.without dead invariants)
          (Expr.without dead decreases) body)
        state := p }
  | .forLoop index start stop ascending invariants body, p =>
    let r := ((start.reduce dead start.ty).both fun _ => Expr.reduceOpt dead stop).purged p
    match r.rest with
    | none => { rest := none, state := r.state }
    | some (start, stop) =>
      if index.name = dead then
        { rest := some (.forLoop index start stop ascending invariants body), state := r.state }
      else
        let (body, p) := body.purge inner r.state
        { rest := some (.forLoop index start stop ascending (Expr.without dead invariants) body)
          state := p }
  | .breakLoop, p => { rest := some .breakLoop, state := p }
  | .continueLoop, p => { rest := some .continueLoop, state := p }
  | .block b, p =>
    let (b, p) := b.purge inner p
    { rest := some (.block b), state := p }
  | .matchOn source cases, p =>
    let r := (source.reduce dead source.ty).purged p
    match r.rest with
    | none => { rest := none, state := r.state }
    | some source =>
      let (cases, p) := MatchCase.purgeList inner dead cases r.state
      { rest := some (.matchOn source cases), state := p }
  | .assert e, p => { rest := if e.mentions dead then none else some (.assert e), state := p }
  | .assume e, p => { rest := if e.mentions dead then none else some (.assume e), state := p }
  | .print args, p =>
    let (args, n) := Stmt.reduceArgs dead args
    { rest := if args.isEmpty then none else some (.print args), state := p.countCollapsed n }

/-- What is left of an `else` branch. The branch after it takes the place of a lost
`else if`. -/
def Stmt.purgeElse (inner : ListPurge) (dead : String) : Option Stmt → Purge → Purged Stmt
  | none, p => { rest := none, state := p }
  | some branch, p =>
    let r := branch.purge inner dead p
    { r with rest := r.rest.or branch.elseBranch? }
end

namespace Purge

/-- Purges orphans from the statements behind their declaration. -/
def adopt (limit : Nat) (purge : String → Nat → ListPurge) (depth : Nat) :
    List Orphan → ListPurge
  | [], list, p => (list, p)
  | orphan :: orphans, list, p =>
    if limit ≤ depth then (list, p.exhaust orphan.1 depth)
    else if p.hasVisited orphan then adopt limit purge depth orphans list p
    else
      let (list, p) := purge orphan.1 (depth + 1) list (p.takeIn orphan)
      adopt limit purge depth orphans list p

/-- Purges `dead` from a list, up to and including the first statement that declares it again. The
first argument bounds the number of statements in the list. -/
def purgeList (limit : Nat) : Nat → String → Nat → ListPurge
  | 0, _, _, list, p => (list, p)
  | _ + 1, _, _, [], p => ([], p)
  | fuel + 1, dead, depth, s :: list, p =>
    if p.exhausted then (s :: list, p)
    else
      let r := s.purge (purgeList limit fuel dead depth) dead p
      let p := if r.rest.isNone then r.state.countDeleted else r.state
      let (list, p) := adopt limit (purgeList limit fuel) depth r.orphans list p
      let (list, p) :=
        if s.declares.contains dead then (list, p) else purgeList limit fuel dead depth list p
      (r.rest.toList ++ list, p)

end Purge

mutual
/-- The number of statements in a statement, itself included. -/
def Stmt.weight : Stmt → Nat
  | ⟨kind, _, _⟩ => kind.weight + 1

def StmtKind.weight : StmtKind → Nat
  | .varDecl _ => 0
  | .update _ => 0
  | .expr _ => 0
  | .ret _ => 0
  | .ifElse _ thenBranch elseBranch => thenBranch.weight + Stmt.weightOpt elseBranch
  | .whileLoop _ _ _ body => body.weight
  | .forLoop _ _ _ _ _ body => body.weight
  | .breakLoop => 0
  | .continueLoop => 0
  | .block b => b.weight
  | .matchOn _ cases => MatchCase.weightList cases
  | .assert _ => 0
  | .assume _ => 0
  | .print _ => 0

def Block.weight : Block → Nat
  | ⟨stmts, _⟩ => Stmt.weightList stmts

def Stmt.weightList : List Stmt → Nat
  | [] => 0
  | s :: ss => s.weight + Stmt.weightList ss

def Stmt.weightOpt : Option Stmt → Nat
  | none => 0
  | some s => s.weight

def MatchCase.weightList : List MatchCase → Nat
  | [] => 0
  | ⟨_, body, _⟩ :: cases => Stmt.weightList body + MatchCase.weightList cases
end

/-- The declaration without one of its locals; when one call gives all locals their values, it is
lost and the other locals become orphans. -/
def VarDecl.drop (name : String) (d : VarDecl) : Option VarDecl × List String :=
  match d.locals.findIdx? fun v => v.name == name with
  | none => (some d, [])
  | some k =>
    let locals := d.locals.eraseIdx k
    let left (init : Option Update) : Option VarDecl :=
      if locals.isEmpty then none else some ⟨locals, init⟩
    match d.init with
    | none => (left none, [])
    | some init =>
      if d.isAligned init then (left (some (init.erasePair k)), [])
      else (none, d.names.filter fun n => n ≠ name)

/-- Deletes a local from its declaration `s` and from the statements behind it. -/
def Purge.deleteLocal (limit : Nat) (name : String) (s : Stmt) (list : List Stmt) :
    List Stmt × Purge :=
  let purge := Purge.purgeList limit (Stmt.weightList list)
  let p : Purge := { visited := [(name, s.span)] }
  let (kept, orphans) : Option Stmt × List String :=
    match s.kind with
    | .varDecl d =>
      let (left, orphans) := d.drop name
      (left.map fun d => { s with kind := .varDecl d }, orphans)
    | _ => (some s, [])
  let p := if kept.isNone then p.countDeleted else p
  let (list, p) := purge name 0 list p
  let (list, p) := Purge.adopt limit purge 0 (orphans.map fun n => (n, s.span)) list p
  (kept.toList ++ list, p)

end Mutation
