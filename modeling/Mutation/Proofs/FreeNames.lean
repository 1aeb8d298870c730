import Mathlib.Data.List.Basic
import Mutation.Operator.OnList

/-!
# Free names of statements

A name is free in a statement list when it occurs there, in a place where no earlier declaration
of an enclosing list, no index of an enclosing loop and no pattern of an enclosing case binds it.
Occurrences in specifications and ghost code count; resolved copies and the targets of an
initializer do not. Beside the free names stand three more views of a list that a deletion is
judged by: the names an `else if` leaves behind when it loses its guard, the statements that stand
in the list or inside it with what is free behind them, and whether `else` branches are well
formed.
-/

namespace Mutation

mutual
/-- The free names of a statement; what it declares is not free behind it. -/
def Stmt.free : Stmt → List String
  | ⟨kind, _, _⟩ => kind.free

def StmtKind.free : StmtKind → List String
  | .varDecl d => d.valueNames
  | .update u => u.names
  | .expr e => e.names
  | .ret values => Expr.namesList values
  | .ifElse guard thenBranch elseBranch =>
    Expr.namesOpt guard ++ (thenBranch.free ++ Stmt.freeOpt elseBranch)
  | .whileLoop guard invariants decreases body =>
    (Expr.namesOpt guard ++ (Expr.namesList invariants ++ Expr.namesList decreases)) ++ body.free
  | .forLoop index start stop _ invariants body =>
    (start.names ++ Expr.namesOpt stop) ++
      (Expr.namesList invariants ++ body.free).filter (· ∉ [index.name])
  | .breakLoop => []
  | .continueLoop => []
  | .block b => b.free
  | .matchOn source cases => source.names ++ MatchCase.freeList cases
  | .assert e => e.names
  | .assume e => e.names
  | .print args => Expr.namesList args

def Block.free : Block → List String
  | ⟨list, _⟩ => Stmt.freeList list

def Stmt.freeList : List Stmt → List String
  | [] => []
  | s :: list => s.free ++ (Stmt.freeList list).filter (· ∉ s.declares)

def Stmt.freeOpt : Option Stmt → List String
  | none => []
  | some s => s.free

def MatchCase.freeList : List MatchCase → List String
  | [] => []
  | ⟨pattern, body, _⟩ :: cases =>
    (Stmt.freeList body).filter (· ∉ pattern.names) ++ MatchCase.freeList cases
end

/-- The names that occur in the guard of an `if` and are free in its `else` branch. -/
def Stmt.link (s : Stmt) : List String :=
  match s.kind with
  | .ifElse guard _ elseBranch =>
    (Expr.namesOpt guard).filter (· ∈ Stmt.freeOpt elseBranch)
  | _ => []

mutual
/-- The names that occur in the guard of an `else if` in the statement and are free in the branch
behind it. -/
def Stmt.linked : Stmt → List String
  | ⟨kind, _, _⟩ => kind.linked

/-- The names that occur in the guard of an `else if` of the shape and are free behind it. -/
def StmtKind.linked : StmtKind → List String
  | .ifElse _ thenBranch elseBranch => thenBranch.linked ++ Stmt.linkedElse elseBranch
  | .whileLoop _ _ _ body => body.linked
  | .forLoop _ _ _ _ _ body => body.linked
  | .block b => b.linked
  | .matchOn _ cases => MatchCase.linkedList cases
  | .varDecl _ | .update _ | .expr _ | .ret _ | .breakLoop | .continueLoop | .assert _
  | .assume _ | .print _ => []

/-- The names that occur in the guard of an `else if` of the block and are free behind it. -/
def Block.linked : Block → List String
  | ⟨list, _⟩ => Stmt.linkedList list

/-- The names that occur in the guard of an `else if` of the list and are free behind it. -/
def Stmt.linkedList : List Stmt → List String
  | [] => []
  | s :: list => s.linked ++ Stmt.linkedList list

/-- The same for an `else` branch, which may be an `else if` itself. -/
def Stmt.linkedElse : Option Stmt → List String
  | none => []
  | some s => s.linked ++ s.link

/-- The names that occur in the guard of an `else if` of the cases and are free behind it. -/
def MatchCase.linkedList : List MatchCase → List String
  | [] => []
  | ⟨_, body, _⟩ :: cases => Stmt.linkedList body ++ MatchCase.linkedList cases
end

/-- The range of a span. -/
def Span.area (s : Span) : Pos × Pos := (s.start, s.stop)

theorem Span.coincides_iff_area {s t : Span} : s.coincides t = true ↔ s.area = t.area := by
  simp [Span.coincides, Span.area]

mutual
/-- The statements in the lists inside a statement, each by its range with the names that are free
behind it. -/
def Stmt.standing : Stmt → List ((Pos × Pos) × List String)
  | ⟨kind, _, _⟩ => kind.standing

def StmtKind.standing : StmtKind → List ((Pos × Pos) × List String)
  | .ifElse _ thenBranch elseBranch => thenBranch.standing ++ Stmt.standingOpt elseBranch
  | .whileLoop _ _ _ body => body.standing
  | .forLoop _ _ _ _ _ body => body.standing
  | .block b => b.standing
  | .matchOn _ cases => MatchCase.standingList cases
  | .varDecl _ | .update _ | .expr _ | .ret _ | .breakLoop | .continueLoop | .assert _
  | .assume _ | .print _ => []

def Block.standing : Block → List ((Pos × Pos) × List String)
  | ⟨list, _⟩ => Stmt.standingList list

def Stmt.standingList : List Stmt → List ((Pos × Pos) × List String)
  | [] => []
  | s :: list => s.standing ++ (s.span.area, Stmt.freeList list) :: Stmt.standingList list

def Stmt.standingOpt : Option Stmt → List ((Pos × Pos) × List String)
  | none => []
  | some s => s.standing

def MatchCase.standingList : List MatchCase → List ((Pos × Pos) × List String)
  | [] => []
  | ⟨_, body, _⟩ :: cases => Stmt.standingList body ++ MatchCase.standingList cases
end

/-- The statement is a block. -/
def Stmt.isBlock (s : Stmt) : Bool :=
  match s.kind with
  | .block _ => true
  | _ => false

mutual
/-- Every `else` branch in the statement is a block or an `if`. -/
def Stmt.branched : Stmt → Bool
  | ⟨kind, _, _⟩ => kind.branched

/-- Every `else` branch in the shape is a block or an `if`. -/
def StmtKind.branched : StmtKind → Bool
  | .ifElse _ thenBranch elseBranch => thenBranch.branched && Stmt.branchedElse elseBranch
  | .whileLoop _ _ _ body => body.branched
  | .forLoop _ _ _ _ _ body => body.branched
  | .block b => b.branched
  | .matchOn _ cases => MatchCase.branchedList cases
  | .varDecl _ | .update _ | .expr _ | .ret _ | .breakLoop | .continueLoop | .assert _
  | .assume _ | .print _ => true

/-- Every `else` branch in the block is a block or an `if`. -/
def Block.branched : Block → Bool
  | ⟨list, _⟩ => Stmt.branchedList list

/-- Every `else` branch in the list is a block or an `if`. -/
def Stmt.branchedList : List Stmt → Bool
  | [] => true
  | s :: list => s.branched && Stmt.branchedList list

/-- The `else` branch, and every one in it, is a block or an `if`. -/
def Stmt.branchedElse : Option Stmt → Bool
  | none => true
  | some s => s.branched && (s.isBlock || s.isIf)

/-- Every `else` branch in the cases is a block or an `if`. -/
def MatchCase.branchedList : List MatchCase → Bool
  | [] => true
  | ⟨_, body, _⟩ :: cases => Stmt.branchedList body && MatchCase.branchedList cases
end

/-- The statements of the list and of the lists inside it have pairwise different ranges. -/
def Stmt.Apart (list : List Stmt) : Prop := ((Stmt.standingList list).map (·.1)).Nodup

instance (list : List Stmt) : Decidable (Stmt.Apart list) :=
  inferInstanceAs (Decidable (List.Nodup _))

end Mutation
