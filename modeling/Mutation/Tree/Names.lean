import Mutation.Tree.Stmt

/-!
# Names that occur in code

The names an expression or a statement refers to, at any depth: in specifications, ghost code
and assignment targets too, but not in the resolved copies of assignments and chains, nor in
the targets of a declaration's initializer, which are the declared locals themselves.
-/

namespace Mutation

mutual
/-- The names that occur in an expression, in source order. -/
def Expr.names : Expr → List String
  | ⟨kind, _, _⟩ => kind.names

def ExprKind.names : ExprKind → List String
  | .literal _ => []
  | .name n => [n]
  | .this => []
  | .binary _ l r => l.names ++ r.names
  | .unary _ x => x.names
  | .chain c => c.names
  | .member r _ => r.names
  | .tupleIndex t _ => t.names
  | .index s i => s.names ++ i.names
  | .call r _ args => Expr.namesOpt r ++ Expr.namesList args
  | .display _ es => Expr.namesList es
  | .mapDisplay entries => MapEntry.namesList entries
  | .arrayAlloc _ dims init => Expr.namesList dims ++ Expr.namesOptList init
  | .ctor _ _ args => Expr.namesList args
  | .ite c t f => c.names ++ t.names ++ f.names
  | .old x => x.names

def Chain.names : Chain → List String
  | ⟨operands, _, _⟩ => Expr.namesList operands

def Expr.namesList : List Expr → List String
  | [] => []
  | e :: es => e.names ++ Expr.namesList es

def Expr.namesOpt : Option Expr → List String
  | none => []
  | some e => e.names

def Expr.namesOptList : Option (List Expr) → List String
  | none => []
  | some es => Expr.namesList es

def MapEntry.namesList : List MapEntry → List String
  | [] => []
  | ⟨key, value⟩ :: entries => key.names ++ value.names ++ MapEntry.namesList entries
end

/-- The names that occur in an assignment. -/
def Update.names (u : Update) : List String :=
  Expr.namesList u.targets ++ Expr.namesList u.values

/-- The names that occur in the values of a declaration. -/
def VarDecl.valueNames (d : VarDecl) : List String :=
  match d.init with
  | some init => Expr.namesList init.values
  | none => []

mutual
/-- The names that occur in a statement, in source order. -/
def Stmt.names : Stmt → List String
  | ⟨kind, _, _⟩ => kind.names

def StmtKind.names : StmtKind → List String
  | .varDecl d => d.valueNames
  | .update u => u.names
  | .expr e => e.names
  | .ret values => Expr.namesList values
  | .ifElse guard thenBranch elseBranch =>
    Expr.namesOpt guard ++ thenBranch.names ++ Stmt.namesOpt elseBranch
  | .whileLoop guard invariants decreases body =>
    Expr.namesOpt guard ++ Expr.namesList invariants ++ Expr.namesList decreases ++ body.names
  | .forLoop _ start stop _ invariants body =>
    start.names ++ Expr.namesOpt stop ++ Expr.namesList invariants ++ body.names
  | .breakLoop => []
  | .continueLoop => []
  | .block b => b.names
  | .matchOn source cases => source.names ++ MatchCase.namesList cases
  | .assert e => e.names
  | .assume e => e.names
  | .print args => Expr.namesList args

def Block.names : Block → List String
  | ⟨stmts, _⟩ => Stmt.namesList stmts

def Stmt.namesList : List Stmt → List String
  | [] => []
  | s :: ss => s.names ++ Stmt.namesList ss

def Stmt.namesOpt : Option Stmt → List String
  | none => []
  | some s => s.names

def MatchCase.namesList : List MatchCase → List String
  | [] => []
  | ⟨_, body, _⟩ :: cases => Stmt.namesList body ++ MatchCase.namesList cases
end

/-- A name occurs in an expression. -/
def Expr.mentions (e : Expr) (name : String) : Bool := e.names.contains name

/-- One of some names occurs in some statements. -/
def Stmt.mentionAny (stmts : List Stmt) (names : List String) : Bool :=
  names.any fun n => (Stmt.namesList stmts).contains n

/-- The body of a case can run without its pattern: it reads no variable the pattern binds. -/
def MatchCase.readsNoBinding (c : MatchCase) : Bool := !Stmt.mentionAny c.body c.pattern.names

/-- A name put into an ascending list, unless it is there. -/
def insertName (name : String) : List String → List String
  | [] => [name]
  | n :: ns =>
    if name = n then n :: ns
    else if name < n then name :: n :: ns
    else n :: insertName name ns

/-- Names in ascending order, each once. -/
def sortNames (names : List String) : List String := names.foldr insertName []

end Mutation
