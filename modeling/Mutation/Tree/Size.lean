import Mutation.Tree.Module

/-!
# The size of a tree

How many nodes a tree has: members, statements and expressions. The resolved copies of
assignments and chains are not counted. No path into a tree is longer than the tree is large, so
its size is a depth to which a walk reaches all of it.
-/

namespace Mutation

mutual
/-- The number of expressions in an expression, itself included. -/
def Expr.size : Expr → Nat
  | ⟨kind, _, _⟩ => kind.size + 1

def ExprKind.size : ExprKind → Nat
  | .literal _ => 0
  | .name _ => 0
  | .this => 0
  | .binary _ l r => l.size + r.size
  | .unary _ x => x.size
  | .chain c => c.size
  | .member r _ => r.size
  | .tupleIndex t _ => t.size
  | .index q i => q.size + i.size
  | .call r _ args => Expr.sizeOpt r + Expr.sizeList args
  | .display _ es => Expr.sizeList es
  | .mapDisplay entries => MapEntry.sizeList entries
  | .arrayAlloc _ dims init => Expr.sizeList dims + Expr.sizeOptList init
  | .ctor _ _ args => Expr.sizeList args
  | .ite c t f => c.size + t.size + f.size
  | .old x => x.size

def Chain.size : Chain → Nat
  | ⟨operands, _, _⟩ => Expr.sizeList operands

def Expr.sizeList : List Expr → Nat
  | [] => 0
  | e :: es => e.size + Expr.sizeList es

def Expr.sizeOpt : Option Expr → Nat
  | none => 0
  | some e => e.size

def Expr.sizeOptList : Option (List Expr) → Nat
  | none => 0
  | some es => Expr.sizeList es

def MapEntry.sizeList : List MapEntry → Nat
  | [] => 0
  | ⟨key, value⟩ :: entries => key.size + value.size + MapEntry.sizeList entries
end

/-- The number of expressions in an assignment. -/
def Update.size (u : Update) : Nat := Expr.sizeList u.targets + Expr.sizeList u.values

/-- The number of expressions in a declaration. -/
def VarDecl.size (d : VarDecl) : Nat :=
  match d.init with
  | some init => init.size
  | none => 0

mutual
/-- The number of statements and expressions in a statement, itself included. -/
def Stmt.size : Stmt → Nat
  | ⟨kind, _, _⟩ => kind.size + 1

def StmtKind.size : StmtKind → Nat
  | .varDecl d => d.size
  | .update u => u.size
  | .expr e => e.size
  | .ret values => Expr.sizeList values
  | .ifElse guard thenBranch elseBranch =>
    Expr.sizeOpt guard + thenBranch.size + Stmt.sizeOpt elseBranch
  | .whileLoop guard invariants decreases body =>
    Expr.sizeOpt guard + Expr.sizeList invariants + Expr.sizeList decreases + body.size
  | .forLoop _ start stop _ invariants body =>
    start.size + Expr.sizeOpt stop + Expr.sizeList invariants + body.size
  | .breakLoop => 0
  | .continueLoop => 0
  | .block b => b.size
  | .matchOn source cases => source.size + MatchCase.sizeList cases
  | .assert e => e.size
  | .assume e => e.size
  | .print args => Expr.sizeList args

def Block.size : Block → Nat
  | ⟨list, _⟩ => Stmt.sizeList list

def Stmt.sizeList : List Stmt → Nat
  | [] => 0
  | s :: list => s.size + Stmt.sizeList list

/-- The number of statements and expressions in a statement that may be missing. -/
def Stmt.sizeOpt : Option Stmt → Nat
  | none => 0
  | some s => s.size

def MatchCase.sizeList : List MatchCase → Nat
  | [] => 0
  | ⟨_, body, _⟩ :: cases => Stmt.sizeList body + MatchCase.sizeList cases
end

/-- The number of expressions in a contract. -/
def Contract.size (c : Contract) : Nat :=
  Expr.sizeList c.requires + Expr.sizeList c.ensures + Expr.sizeList c.frame +
    Expr.sizeList c.decreases

/-- The number of nodes in a member, itself included. -/
def Member.size : Member → Nat
  | .field _ => 1
  | .method m => m.contract.size + (m.body.elim 0 Block.size) + 1
  | .function f => f.contract.size + Expr.sizeOpt f.body + 1

/-- The number of nodes in some members. -/
def Member.sizeList : List Member → Nat
  | [] => 0
  | m :: ms => m.size + Member.sizeList ms

/-- The number of nodes in the members of a declaration. -/
def Decl.size : Decl → Nat
  | .class c => Member.sizeList c.members
  | .datatype d => Member.sizeList d.members

/-- The number of nodes in the members of some declarations. -/
def Decl.sizeList : List Decl → Nat
  | [] => 0
  | d :: ds => d.size + Decl.sizeList ds

/-- The number of members, statements and expressions in a module. -/
def Module.size (m : Module) : Nat := Decl.sizeList m.decls

end Mutation
