import Mutation.Operator.OnExpr
import Mutation.Operator.OnList
import Mutation.Operator.OnStmt

/-!
# What an operator hands back

An operator that passes over a node, or refuses, hands back the node it was offered. For most
operators there is nothing to it: they build their change beside the node. Three of them take the
node apart first: the initializer of an array and the `else` branch of an `if` are taken out before
it is known what comes of it, and a deletion goes through the whole list before it can be exhausted.
-/

namespace Mutation

variable {ν α : Type}

/-- An operator that has not made its change has left the node as it was. -/
def Outcome.HandsBack (node : ν) : Outcome ν α → Prop
  | .pass left => left = node
  | .done _ => True
  | .refused _ left => left = node

/-- An initializer that is taken out is put back on a refusal. -/
theorem Expr.setInit_handsBack (form : InitForm) (e : Expr) : (e.setInit form).HandsBack e := by
  obtain ⟨kind, span, ty⟩ := e
  unfold setInit
  split
  case h_3 t dims init same =>
    cases same
    cases init with
    | none => exact rfl
    | some values =>
      simp only
      split
      · trivial
      · exact rfl
  all_goals first | trivial | (split <;> trivial)

/-- An operator on expressions hands back the expression that it does not change. -/
theorem Operator.onExpr_handsBack (op : Operator) (site : Site) (e : Expr) :
    (op.onExpr site e).HandsBack e := by
  unfold Operator.onExpr
  split
  · cases op with
    | setInit form => exact e.setInit_handsBack form
    | _ =>
      simp only [Expr.setOperator, Expr.setBool, Expr.keepOperand, Expr.insertNegation,
        Expr.deleteNegation, Expr.setLiteral, Expr.setDefault, Expr.setVariable, Expr.insertThis,
        Expr.deleteThis, Expr.setField, Expr.setComponent, Expr.setCtor, Expr.keepArgument,
        Expr.keepReceiver, Expr.setCallee, Expr.swapArguments]
      repeat' split
      all_goals trivial
  · exact rfl

/-- An `else` branch is only missed where there was none. -/
theorem Stmt.keepBranch_handsBack (branch : Branch) (s : Stmt) :
    (s.keepBranch branch).HandsBack s := by
  obtain ⟨kind, span, ghost⟩ := s
  unfold keepBranch
  split
  case h_2 guard thenBranch elseBranch same =>
    cases same
    cases elseBranch with
    | none => exact rfl
    | some branch => trivial
  all_goals trivial

/-- An operator on elements of a list hands back the element that it does not change. -/
theorem Operator.onStmt_handsBack (op : Operator) (site : Site) (s : Stmt) :
    (op.onStmt site s).HandsBack s := by
  unfold Operator.onStmt
  split
  · unfold Stmt.deleteBranch
    repeat' split
    all_goals trivial
  · split
    · cases op with
      | keepBranch branch => exact s.keepBranch_handsBack branch
      | _ =>
        simp only [Stmt.delete, Stmt.insertBreak, Stmt.setReturn, Stmt.exchangeDefault,
          Stmt.keepCase]
        repeat' split
        all_goals trivial
    · exact rfl

/-- A deletion that is exhausted has gone through the list in vain: the copy takes its place. -/
theorem Stmt.deleteVariable_handsBack (site : Site) (name : String) (list : List Stmt) :
    (deleteVariable site name list).1.HandsBack list := by
  unfold deleteVariable
  split
  · exact rfl
  · simp only
    split
    · exact rfl
    · trivial

/-- An operator on statement lists hands back the list that it does not change. -/
theorem Operator.onStmts_handsBack (op : Operator) (site : Site) (list : List Stmt) :
    (op.onStmts site list).1.HandsBack list := by
  unfold Operator.onStmts
  split
  · unfold Stmt.swapInits
    repeat' split
    all_goals trivial
  · exact Stmt.deleteVariable_handsBack site _ list
  · exact rfl

/-- An operator on member lists hands back the list that it does not change. -/
theorem Operator.onMembers_handsBack (op : Operator) (site : Site) (list : List Member) :
    (op.onMembers site list).HandsBack list := by
  unfold Operator.onMembers
  split
  · unfold Member.swapBodies
    repeat' split
    all_goals trivial
  · exact rfl

end Mutation
