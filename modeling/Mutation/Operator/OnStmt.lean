import Mutation.Operator.Argument
import Mutation.Operator.Outcome
import Mutation.Tree.Names

/-!
# Operators on statements

These operators act on one element of a statement list. A block that takes the place of a
statement is opened into the list, unless it declares locals, which would then be visible
further than before.
-/

namespace Mutation

/-- A block in place of a statement with the given span. -/
def Block.inPlace (b : Block) (span : Span) : Change :=
  if b.declaresLocals then .replace ⟨.block b, span, false⟩ else .flatten b.stmts

namespace Stmt

/-- An `else` branch in place of its `if`. -/
def asElement (branch : Stmt) : Change :=
  match branch.kind with
  | .block b => b.inPlace branch.span
  | _ => .replace branch

/-- The statement goes; declarations are left to variable deletion. -/
def delete (s : Stmt) : Outcome Stmt Change :=
  if s.isVarDecl then .refused .isDeclaration s else .done .remove

/-- The block with a `break` before its statements. -/
def breaking (b : Block) : Block :=
  { b with stmts := ⟨.breakLoop, .token b.span.start, false⟩ :: b.stmts }

/-- A `break` at the start of a loop body. -/
def insertBreak (s : Stmt) : Outcome Stmt Change :=
  match s.kind with
  | .whileLoop guard invariants decreases body =>
    .done (.amend { s with kind := .whileLoop guard invariants decreases (breaking body) })
  | .forLoop index start stop ascending invariants body =>
    .done (.amend
      { s with kind := .forLoop index start stop ascending invariants (breaking body) })
  | _ => .pass s

/-- A value of the kind of the type's default, in place of a returned value. -/
def returnValue? (value : Expr) (text : String) : Option Expr := do
  let default ← value.ty.default?
  let literal ← Literal.readAs default.kind text
  return { value with kind := .literal literal }

/-- Other values returned. -/
def setReturn (texts : List String) (s : Stmt) : Outcome Stmt Change :=
  match s.kind with
  | .ret values =>
    if values.length ≠ texts.length then .refused .valueCount s
    else
      match (values.zip texts).mapM fun (value, text) => returnValue? value text with
      | some values => .done (.amend { s with kind := .ret values })
      | none => .refused .unreadableReturn s
  | _ => .pass s

/-- A branch in place of its `if`. -/
def keepBranch (branch : Branch) (s : Stmt) : Outcome Stmt Change :=
  match s.kind, branch with
  | .ifElse _ thenBranch _, .thenBranch => .done (thenBranch.inPlace s.span)
  | .ifElse guard thenBranch elseBranch, .elseBranch =>
    -- The branch is taken out before it is known whether there is one.
    let taken : Stmt := { s with kind := .ifElse guard thenBranch none }
    match elseBranch with
    | some branch => .done branch.asElement
    | none => .refused .noElse taken
  | _, _ => .pass s

/-- The `else` branch of an `if`. -/
def elseBranch? (s : Stmt) : Option Stmt :=
  match s.kind with
  | .ifElse _ _ next => next
  | _ => none

/-- The statement is an `if`. -/
def isIf (s : Stmt) : Bool :=
  match s.kind with
  | .ifElse .. => true
  | _ => false

mutual
/-- An `if` with the `else if` at the target taken out of its chain; `none` when there is no such
link. -/
def unlink? (target : Location) : Stmt → Option Stmt
  | ⟨.ifElse guard thenBranch next, span, ghost⟩ =>
    (unlinkBelow? target next).map fun next => ⟨.ifElse guard thenBranch next, span, ghost⟩
  | _ => none

/-- An `else` branch with the link at the target taken out. -/
def unlinkBelow? (target : Location) : Option Stmt → Option (Option Stmt)
  | none => none
  | some branch =>
    if !target.mayLieIn branch.span then none
    else if branch.isIf && target.matchesB branch.span then some branch.elseBranch?
    else (unlink? target branch).map some
end

/-- One branch of an `if` chain goes: the first one, or the link at the target. -/
def deleteBranch (target : Location) (s : Stmt) : Outcome Stmt Change :=
  if s.isIf && target.mayLieIn s.span then
    if target.matchesB s.span then
      match s.elseBranch? with
      | some branch => .done branch.asElement
      | none => .done .remove
    else
      match s.unlink? target with
      | some s => .done (.amend s)
      | none => .pass s
  else .pass s

/-- The body of the default case in every other case, and that of the named case in the default
case. -/
def exchangeDefault (ctor : String) (s : Stmt) : Outcome Stmt Change :=
  match s.kind with
  | .matchOn source cases =>
    match MatchCase.ctorIdx? cases ctor, MatchCase.defaultIdx? cases with
    | some i, some d =>
      match cases[i]?, cases[d]? with
      | some named, some default =>
        if named.readsNoBinding && default.readsNoBinding then
          let exchanged := cases.mapIdx fun k c =>
            { c with body := if k = d then named.body else default.body }
          .done (.amend { s with kind := .matchOn source exchanged })
        else .refused .movedBodyReads s
      | _, _ => .refused .noSuchCase s
    | _, _ => .refused .noSuchCase s
  | _ => .pass s

/-- The body of a case in place of the `match`. -/
def keepCase (index : Nat) (s : Stmt) : Outcome Stmt Change :=
  match s.kind with
  | .matchOn _ cases =>
    match cases[index]? with
    | none => .refused .caseOutOfRange s
    | some c =>
      if c.readsNoBinding then .done ((Block.mk c.body c.span).inPlace s.span)
      else .refused .caseBodyReads s
  | _ => .pass s

end Stmt

/-- What an operator answers when it is offered an element of a statement list. -/
def Operator.onStmt (op : Operator) (site : Site) (s : Stmt) : Outcome Stmt Change :=
  match op with
  | .deleteBranch => s.deleteBranch site.target
  | _ =>
    if site.isTarget s.span then
      match op with
      | .deleteStmt => s.delete
      | .insertBreak => s.insertBreak
      | .setReturn texts => s.setReturn texts
      | .keepBranch branch => s.keepBranch branch
      | .exchangeDefault ctor => s.exchangeDefault ctor
      | .keepCase index => s.keepCase index
      | _ => .pass s
    else .pass s

end Mutation
