import Mutation.Source.Location
import Mutation.Tree.Symbol

/-!
# Expressions

An expression is a shape with a span and a resolved type. A chained comparison keeps, beside
its surface form, the conjunction of adjacent comparisons that later stages read; the two are
in step exactly when `Chain.rebuild` changes nothing. The children of an expression are its
direct parts in source order; the conjunction of a chain is not among them.
-/

namespace Mutation

mutual
/-- An expression with its span and type. -/
structure Expr where
  kind : ExprKind
  span : Span
  ty : Ty

/-- The shapes of expressions. -/
inductive ExprKind where
  | literal (value : Literal)
  /-- A local, a parameter, a bound variable or an implicit field. -/
  | name (name : String)
  | this
  | binary (op : BinaryOp) (lhs rhs : Expr)
  | unary (op : UnaryOp) (operand : Expr)
  | chain (chain : Chain)
  | member (receiver : Expr) (field : String)
  | tupleIndex (tuple : Expr) (index : UInt64)
  | index (seq index : Expr)
  /-- A call; without a receiver it goes to a member of the enclosing declaration. -/
  | call (receiver : Option Expr) (method : String) (args : List Expr)
  | display (collection : Collection) (elements : List Expr)
  | mapDisplay (entries : List MapEntry)
  /-- A new array, by its dimensions, its elements, or both. -/
  | arrayAlloc (elemTy : Ty) (dims : List Expr) (init : Option (List Expr))
  | ctor (datatype ctor : String) (args : List Expr)
  | ite (cond thenExpr elseExpr : Expr)
  /-- A value before the call; in specifications only. -/
  | old (inner : Expr)

/-- A chained comparison: `n + 1` operands, `n` operators, and the conjunction it means. -/
structure Chain where
  operands : List Expr
  ops : List BinaryOp
  resolved : Option Expr

/-- An entry of a map display. -/
structure MapEntry where
  key : Expr
  value : Expr
end

instance : Inhabited Expr := ⟨⟨.literal .null, default, .unknown⟩⟩

namespace Chain

/-- The comparison of two adjacent operands. -/
def link (op : BinaryOp) (lhs rhs : Expr) : Expr :=
  ⟨.binary op lhs rhs, ⟨lhs.span.start, rhs.span.stop, lhs.span.stop⟩, .bool⟩

/-- The comparisons of adjacent operands, as far as operands and operators go. -/
def links : List Expr → List BinaryOp → List Expr
  | a :: b :: rest, op :: ops => link op a b :: links (b :: rest) ops
  | _, _ => []

/-- The conjunction of two conditions. -/
def conjoin (left right : Expr) : Expr :=
  ⟨.binary .and left right, ⟨left.span.start, right.span.stop, left.span.stop⟩, .bool⟩

/-- The conjunction, nested to the left, of some conditions. -/
def conjunction : List Expr → Option Expr
  | [] => none
  | e :: es => some (es.foldl conjoin e)

/-- The chain with its conjunction in step with operands and operators. -/
def rebuild (c : Chain) : Chain :=
  { c with resolved := conjunction (links c.operands c.ops) }

end Chain

namespace Expr

/-- The name, when the expression is one. -/
def name? (e : Expr) : Option String :=
  match e.kind with
  | .name n => some n
  | _ => none

/-- The literal, when the expression is one. -/
def literal? (e : Expr) : Option Literal :=
  match e.kind with
  | .literal l => some l
  | _ => none

/-- The called method, when the expression is a call. -/
def callee? (e : Expr) : Option String :=
  match e.kind with
  | .call _ method _ => some method
  | _ => none

/-- The expression is `this`. -/
def isThis (e : Expr) : Bool :=
  match e.kind with
  | .this => true
  | _ => false

/-- The direct parts of an expression in source order. -/
def children (e : Expr) : List Expr :=
  match e.kind with
  | .literal _ | .name _ | .this => []
  | .binary _ l r => [l, r]
  | .unary _ x => [x]
  | .chain c => c.operands
  | .member r _ => [r]
  | .tupleIndex t _ => [t]
  | .index s i => [s, i]
  | .call r _ args => r.toList ++ args
  | .display _ es => es
  | .mapDisplay entries => entries.flatMap fun entry => [entry.key, entry.value]
  | .arrayAlloc _ dims init => dims ++ init.getD []
  | .ctor _ _ args => args
  | .ite c t f => [c, t, f]
  | .old x => [x]

/-- The value reads that may be replaced by the default of their type. -/
def isValueRead (e : Expr) : Bool :=
  match e.kind with
  | .name _ | .call .. | .member .. | .index .. | .tupleIndex .. => true
  | _ => false

end Expr

end Mutation
