import Mutation.Tree.Expr

/-!
# Statements

An assignment gives values to targets, one each in the parallel form, or all from one call. It
keeps a resolved copy that pairs each target with its value; the copy is in step exactly when
`Update.sync` changes nothing. A declaration's initializer is an assignment to its locals.
Branches of an `if` form a chain to the right: an `else` branch is a block or another `if`.
-/

namespace Mutation

/-- A declared variable: a local, a parameter, a result or a field. -/
structure Variable where
  name : String
  ty : Ty
  span : Span
  ghost : Bool := false

/-- A target with the value it gets. -/
structure Assigned where
  target : Expr
  value : Expr

/-- An assignment. -/
structure Update where
  targets : List Expr
  values : List Expr
  resolved : List Assigned := []

namespace Update

/-- Each target has a value of its own. -/
def isParallel (u : Update) : Bool := u.targets.length == u.values.length

/-- The assignment with its resolved copy in step; only the parallel form has one. -/
def sync (u : Update) : Update :=
  { u with resolved := if u.isParallel then List.zipWith .mk u.targets u.values else [] }

/-- The assignment of values to targets, in step. -/
def make (targets values : List Expr) : Update := (Update.mk targets values []).sync

/-- The assignment without its `k`-th pair, in step; unchanged when it has none. -/
def erasePair (u : Update) (k : Nat) : Update :=
  if u.isParallel && k < u.targets.length then
    make (u.targets.eraseIdx k) (u.values.eraseIdx k)
  else u

end Update

/-- A declaration of locals. -/
structure VarDecl where
  locals : List Variable
  init : Option Update

/-- The name expression that refers to a variable. -/
def Variable.ref (v : Variable) : Expr := ⟨.name v.name, v.span, v.ty⟩

namespace VarDecl

/-- The declaration of locals with values. -/
def withInit (locals : List Variable) (values : List Expr) : VarDecl :=
  ⟨locals, some (Update.make (locals.map Variable.ref) values)⟩

/-- The names a declaration introduces. -/
def names (d : VarDecl) : List String := d.locals.map (·.name)

/-- The initializer gives each local its own value. -/
def isAligned (d : VarDecl) (init : Update) : Bool :=
  init.isParallel && init.targets.length == d.locals.length

end VarDecl

/-- A pattern of a match case. -/
inductive Pattern where
  | ctor (name : String) (args : List Pattern)
  | bind (name : String) (ty : Ty)
  | literal (value : Literal)
  | wildcard

namespace Pattern

/-- Every value matches. -/
def isCatchAll : Pattern → Bool
  | .bind .. | .wildcard => true
  | _ => false

/-- The constructor a pattern begins with. -/
def ctor? : Pattern → Option String
  | .ctor name _ => some name
  | _ => none

mutual
/-- The variables a pattern binds, in source order. -/
def bindings : Pattern → List (String × Ty)
  | .ctor _ args => bindingsList args
  | .bind name ty => [(name, ty)]
  | .literal _ => []
  | .wildcard => []

/-- The variables some patterns bind, in source order. -/
def bindingsList : List Pattern → List (String × Ty)
  | [] => []
  | p :: ps => p.bindings ++ bindingsList ps
end

/-- The names a pattern binds. -/
def names (p : Pattern) : List String := p.bindings.map (·.1)

end Pattern

mutual
/-- A statement; a ghost statement leaves no trace in the compiled program. -/
structure Stmt where
  kind : StmtKind
  span : Span
  ghost : Bool := false

/-- The shapes of statements. -/
inductive StmtKind where
  | varDecl (decl : VarDecl)
  | update (update : Update)
  /-- A call for its effect. -/
  | expr (expr : Expr)
  | ret (values : List Expr)
  /-- Without a guard the choice is not determined. -/
  | ifElse (guard : Option Expr) (thenBranch : Block) (elseBranch : Option Stmt)
  | whileLoop (guard : Option Expr) (invariants decreases : List Expr) (body : Block)
  | forLoop (index : Variable) (start : Expr) (stop : Option Expr) (ascending : Bool)
      (invariants : List Expr) (body : Block)
  | breakLoop
  | continueLoop
  | block (block : Block)
  | matchOn (source : Expr) (cases : List MatchCase)
  | assert (expr : Expr)
  | assume (expr : Expr)
  | print (args : List Expr)

/-- A braced list of statements. -/
structure Block where
  stmts : List Stmt
  span : Span

/-- A case of a match. -/
structure MatchCase where
  pattern : Pattern
  body : List Stmt
  span : Span
end

namespace Stmt

/-- The names a statement declares into the list it stands in. -/
def declares (s : Stmt) : List String :=
  match s.kind with
  | .varDecl d => d.names
  | _ => []

/-- The statement is a declaration. -/
def isVarDecl (s : Stmt) : Bool :=
  match s.kind with
  | .varDecl _ => true
  | _ => false

/-- The statement is a loop. -/
def isLoop (s : Stmt) : Bool :=
  match s.kind with
  | .whileLoop .. | .forLoop .. => true
  | _ => false

/-- The local and its value, when the statement declares one local with one value. -/
def simpleDecl? (s : Stmt) : Option (Variable × Expr) :=
  match s.kind with
  | .varDecl ⟨[v], some ⟨_, [e], _⟩⟩ => some (v, e)
  | _ => none

mutual
/-- The spans of the `if`s along a chain, its head first. -/
def ifSpans : Stmt → List Span
  | ⟨.ifElse _ _ next, span, _⟩ => span :: elseIfSpans next
  | _ => []

/-- The spans of the `else if` links below an `else` branch. -/
def elseIfSpans : Option Stmt → List Span
  | none => []
  | some s => s.ifSpans
end

end Stmt

/-- A statement of the list declares a local. -/
def Block.declaresLocals (b : Block) : Bool := b.stmts.any Stmt.isVarDecl

namespace MatchCase

/-- The first case that matches every value. -/
def defaultIdx? (cases : List MatchCase) : Option Nat :=
  cases.findIdx? fun c => c.pattern.isCatchAll

/-- The first case whose pattern begins with the constructor. -/
def ctorIdx? (cases : List MatchCase) (ctor : String) : Option Nat :=
  cases.findIdx? fun c => c.pattern.ctor? == some ctor

end MatchCase

end Mutation
