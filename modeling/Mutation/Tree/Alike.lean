import Mutation.Tree.Module

/-!
# Comparing trees

Two trees are alike when they are the same program: anchors are not compared, and reals compare
as numbers, so that a tree with a literal that is not a number is not even like itself.
-/

namespace Mutation

/-- Lists of the same length that are alike element by element. -/
def alikeLists {α : Type} (alike : α → α → Bool) : List α → List α → Bool
  | [], [] => true
  | a :: as, b :: bs => alike a b && alikeLists alike as bs
  | _, _ => false

/-- Optional parts that are both missing, or both there and alike. -/
def alikeOpts {α : Type} (alike : α → α → Bool) : Option α → Option α → Bool
  | none, none => true
  | some a, some b => alike a b
  | _, _ => false

mutual
/-- Expressions that are alike. -/
def Expr.alike : Expr → Expr → Bool
  | ⟨k, s, t⟩, ⟨k', s', t'⟩ => k.alike k' && s.coincides s' && t = t'

def ExprKind.alike : ExprKind → ExprKind → Bool
  | .literal a, .literal b => a.same b
  | .name a, .name b => a == b
  | .this, .this => true
  | .binary op l r, .binary op' l' r' => op = op' && l.alike l' && r.alike r'
  | .unary op x, .unary op' x' => op = op' && x.alike x'
  | .chain c, .chain c' => c.alike c'
  | .member r f, .member r' f' => r.alike r' && f == f'
  | .tupleIndex t i, .tupleIndex t' i' => t.alike t' && i == i'
  | .index q i, .index q' i' => q.alike q' && i.alike i'
  | .call r m args, .call r' m' args' =>
    Expr.alikeOpt r r' && m == m' && Expr.alikeList args args'
  | .display k es, .display k' es' => k = k' && Expr.alikeList es es'
  | .mapDisplay es, .mapDisplay es' => MapEntry.alikeList es es'
  | .arrayAlloc t dims init, .arrayAlloc t' dims' init' =>
    t = t' && Expr.alikeList dims dims' && Expr.alikeOptList init init'
  | .ctor d c args, .ctor d' c' args' => d == d' && c == c' && Expr.alikeList args args'
  | .ite c t f, .ite c' t' f' => c.alike c' && t.alike t' && f.alike f'
  | .old x, .old x' => x.alike x'
  | _, _ => false

/-- Chains that are alike, with their conjunctions. -/
def Chain.alike : Chain → Chain → Bool
  | ⟨es, ops, r⟩, ⟨es', ops', r'⟩ => Expr.alikeList es es' && ops = ops' && Expr.alikeOpt r r'

def Expr.alikeList : List Expr → List Expr → Bool
  | [], [] => true
  | a :: as, b :: bs => a.alike b && Expr.alikeList as bs
  | _, _ => false

def Expr.alikeOpt : Option Expr → Option Expr → Bool
  | none, none => true
  | some a, some b => a.alike b
  | _, _ => false

def Expr.alikeOptList : Option (List Expr) → Option (List Expr) → Bool
  | none, none => true
  | some as, some bs => Expr.alikeList as bs
  | _, _ => false

def MapEntry.alikeList : List MapEntry → List MapEntry → Bool
  | [], [] => true
  | ⟨k, v⟩ :: as, ⟨k', v'⟩ :: bs => k.alike k' && v.alike v' && MapEntry.alikeList as bs
  | _, _ => false
end

/-- Variables that are alike. -/
def Variable.alike (a b : Variable) : Bool :=
  a.name == b.name && a.ty = b.ty && a.span.coincides b.span && a.ghost == b.ghost

/-- Assignments that are alike, with their resolved copies. -/
def Update.alike (a b : Update) : Bool :=
  Expr.alikeList a.targets b.targets && Expr.alikeList a.values b.values &&
    alikeLists (fun x y => x.target.alike y.target && x.value.alike y.value) a.resolved b.resolved

/-- Declarations of locals that are alike. -/
def VarDecl.alike (a b : VarDecl) : Bool :=
  alikeLists Variable.alike a.locals b.locals && alikeOpts Update.alike a.init b.init

mutual
/-- Patterns that are alike. -/
def Pattern.alike : Pattern → Pattern → Bool
  | .ctor n ps, .ctor n' ps' => n == n' && Pattern.alikeList ps ps'
  | .bind n t, .bind n' t' => n == n' && t = t'
  | .literal a, .literal b => a.same b
  | .wildcard, .wildcard => true
  | _, _ => false

def Pattern.alikeList : List Pattern → List Pattern → Bool
  | [], [] => true
  | a :: as, b :: bs => a.alike b && Pattern.alikeList as bs
  | _, _ => false
end

mutual
/-- Statements that are alike. -/
def Stmt.alike : Stmt → Stmt → Bool
  | ⟨k, s, g⟩, ⟨k', s', g'⟩ => k.alike k' && s.coincides s' && g == g'

def StmtKind.alike : StmtKind → StmtKind → Bool
  | .varDecl d, .varDecl d' => d.alike d'
  | .update u, .update u' => u.alike u'
  | .expr e, .expr e' => e.alike e'
  | .ret es, .ret es' => Expr.alikeList es es'
  | .ifElse g t e, .ifElse g' t' e' => Expr.alikeOpt g g' && t.alike t' && Stmt.alikeOpt e e'
  | .whileLoop g is ds b, .whileLoop g' is' ds' b' =>
    Expr.alikeOpt g g' && Expr.alikeList is is' && Expr.alikeList ds ds' && b.alike b'
  | .forLoop i a z up is b, .forLoop i' a' z' up' is' b' =>
    i.alike i' && a.alike a' && Expr.alikeOpt z z' && up == up' && Expr.alikeList is is' &&
      b.alike b'
  | .breakLoop, .breakLoop => true
  | .continueLoop, .continueLoop => true
  | .block b, .block b' => b.alike b'
  | .matchOn e cs, .matchOn e' cs' => e.alike e' && MatchCase.alikeList cs cs'
  | .assert e, .assert e' => e.alike e'
  | .assume e, .assume e' => e.alike e'
  | .print es, .print es' => Expr.alikeList es es'
  | _, _ => false

def Block.alike : Block → Block → Bool
  | ⟨ss, s⟩, ⟨ss', s'⟩ => Stmt.alikeList ss ss' && s.coincides s'

def Stmt.alikeList : List Stmt → List Stmt → Bool
  | [], [] => true
  | a :: as, b :: bs => a.alike b && Stmt.alikeList as bs
  | _, _ => false

def Stmt.alikeOpt : Option Stmt → Option Stmt → Bool
  | none, none => true
  | some a, some b => a.alike b
  | _, _ => false

def MatchCase.alikeList : List MatchCase → List MatchCase → Bool
  | [], [] => true
  | ⟨p, b, s⟩ :: as, ⟨p', b', s'⟩ :: bs =>
    p.alike p' && Stmt.alikeList b b' && s.coincides s' && MatchCase.alikeList as bs
  | _, _ => false
end

/-- Contracts that are alike. -/
def Contract.alike (a b : Contract) : Bool :=
  Expr.alikeList a.requires b.requires && Expr.alikeList a.ensures b.ensures &&
    Expr.alikeList a.frame b.frame && Expr.alikeList a.decreases b.decreases

/-- Methods that are alike. -/
def Method.alike (a b : Method) : Bool :=
  a.name == b.name && alikeLists Variable.alike a.params b.params &&
    alikeLists Variable.alike a.outs b.outs && a.contract.alike b.contract &&
    alikeOpts Block.alike a.body b.body && a.span.coincides b.span && a.ghost == b.ghost &&
    a.isStatic == b.isStatic

/-- Functions that are alike. -/
def Function.alike (a b : Function) : Bool :=
  a.name == b.name && alikeLists Variable.alike a.params b.params && a.result = b.result &&
    a.contract.alike b.contract && Expr.alikeOpt a.body b.body && a.span.coincides b.span &&
    a.ghost == b.ghost && a.isStatic == b.isStatic

/-- Members that are alike. -/
def Member.alike : Member → Member → Bool
  | .field a, .field b => a.alike b
  | .method a, .method b => a.alike b
  | .function a, .function b => a.alike b
  | _, _ => false

/-- Constructors that are alike. -/
def Ctor.alike (a b : Ctor) : Bool :=
  a.name == b.name && alikeLists Variable.alike a.formals b.formals && a.span.coincides b.span

/-- Declarations that are alike. -/
def Decl.alike : Decl → Decl → Bool
  | .class a, .class b =>
    a.name == b.name && alikeLists Member.alike a.members b.members &&
      a.span.coincides b.span && a.isDefault == b.isDefault
  | .datatype a, .datatype b =>
    a.name == b.name && alikeLists Ctor.alike a.ctors b.ctors &&
      alikeLists Member.alike a.members b.members && a.span.coincides b.span
  | _, _ => false

/-- Modules that are alike. -/
def Module.alike (a b : Module) : Bool :=
  a.name == b.name && alikeLists Decl.alike a.decls b.decls

end Mutation
