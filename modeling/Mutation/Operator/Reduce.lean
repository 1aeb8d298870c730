import Mutation.Tree.Names

/-!
# Expressions without a name

What is left of an expression when a variable is gone. A binary expression with one lost operand
becomes the other operand, if the type of that operand fits the expression and the place where
it stands. Anything else that loses a part is lost itself. A chain that is left has its
conjunction in step.
-/

namespace Mutation

/-- What is left, if anything, and how many binary expressions gave way to an operand on the
way. -/
structure Reduction (α : Type) where
  rest : Option α
  collapsed : Nat

namespace Reduction

variable {α β : Type}

/-- Nothing is lost. -/
def whole (a : α) : Reduction α := ⟨some a, 0⟩

/-- Changes what is left. -/
def map (f : α → β) (r : Reduction α) : Reduction β := ⟨r.rest.map f, r.collapsed⟩

/-- What is left of two parts; the second is not looked at when the first is lost. -/
def both (r : Reduction α) (k : Unit → Reduction β) : Reduction (α × β) :=
  match r.rest with
  | none => ⟨none, r.collapsed⟩
  | some a =>
    let q := k ()
    ⟨q.rest.map fun b => (a, b), r.collapsed + q.collapsed⟩

/-- What is left of two operands; `l` and `r` say whether the left and right operand may stand
alone. -/
def either (left right : Reduction Expr) (l r : Bool) (f : Expr → Expr → Expr) :
    Reduction Expr :=
  let n := left.collapsed + right.collapsed
  match left.rest, right.rest with
  | some a, some b => ⟨some (f a b), n⟩
  | some a, none => if l then ⟨some a, n + 1⟩ else ⟨none, n⟩
  | none, some b => if r then ⟨some b, n + 1⟩ else ⟨none, n⟩
  | none, none => ⟨none, n⟩

end Reduction

mutual
/-- What is left of an expression, in a place that wants the type `wanted`, without the name
`dead`. -/
def Expr.reduce (dead : String) : Expr → Ty → Reduction Expr
  | ⟨kind, span, ty⟩, wanted => kind.reduce dead span ty wanted

def ExprKind.reduce (dead : String) : ExprKind → Span → Ty → Ty → Reduction Expr
  | .literal l, span, ty, _ => .whole ⟨.literal l, span, ty⟩
  | .name n, span, ty, _ => if n = dead then ⟨none, 0⟩ else .whole ⟨.name n, span, ty⟩
  | .this, span, ty, _ => .whole ⟨.this, span, ty⟩
  | .binary op l r, span, ty, wanted =>
    Reduction.either (l.reduce dead l.ty) (r.reduce dead r.ty) (l.ty.fits ty && l.ty.fits wanted)
      (r.ty.fits ty && r.ty.fits wanted) fun l r => ⟨.binary op l r, span, ty⟩
  | .unary op x, span, ty, _ => (x.reduce dead x.ty).map fun x => ⟨.unary op x, span, ty⟩
  | .chain c, span, ty, _ => (c.reduce dead).map fun c => ⟨.chain c, span, ty⟩
  | .member r field, span, ty, _ => (r.reduce dead r.ty).map fun r => ⟨.member r field, span, ty⟩
  | .tupleIndex t i, span, ty, _ => (t.reduce dead t.ty).map fun t => ⟨.tupleIndex t i, span, ty⟩
  | .index q i, span, ty, _ =>
    ((q.reduce dead q.ty).both fun _ => i.reduce dead i.ty).map fun (q, i) =>
      ⟨.index q i, span, ty⟩
  | .call r method args, span, ty, _ =>
    ((Expr.reduceOpt dead r).both fun _ => Expr.reduceList dead args).map fun (r, args) =>
      ⟨.call r method args, span, ty⟩
  | .display k es, span, ty, _ =>
    (Expr.reduceList dead es).map fun es => ⟨.display k es, span, ty⟩
  | .mapDisplay entries, span, ty, _ =>
    (MapEntry.reduceList dead entries).map fun entries => ⟨.mapDisplay entries, span, ty⟩
  | .arrayAlloc t dims init, span, ty, _ =>
    ((Expr.reduceList dead dims).both fun _ => Expr.reduceOptList dead init).map
      fun (dims, init) => ⟨.arrayAlloc t dims init, span, ty⟩
  | .ctor d c args, span, ty, _ =>
    (Expr.reduceList dead args).map fun args => ⟨.ctor d c args, span, ty⟩
  | .ite c t f, span, ty, _ =>
    (((c.reduce dead c.ty).both fun _ => t.reduce dead t.ty).both fun _ =>
      f.reduce dead f.ty).map fun ((c, t), f) => ⟨.ite c t f, span, ty⟩
  | .old x, span, ty, _ => (x.reduce dead x.ty).map fun x => ⟨.old x, span, ty⟩

/-- What is left of a chain: all of its operands or nothing. -/
def Chain.reduce (dead : String) : Chain → Reduction Chain
  | ⟨operands, ops, resolved⟩ =>
    (Expr.reduceList dead operands).map fun operands => (Chain.mk operands ops resolved).rebuild

/-- What is left of some expressions: all of them or nothing. -/
def Expr.reduceList (dead : String) : List Expr → Reduction (List Expr)
  | [] => .whole []
  | e :: es =>
    ((e.reduce dead e.ty).both fun _ => Expr.reduceList dead es).map fun (e, es) => e :: es

def Expr.reduceOpt (dead : String) : Option Expr → Reduction (Option Expr)
  | none => .whole none
  | some e => (e.reduce dead e.ty).map some

def Expr.reduceOptList (dead : String) : Option (List Expr) → Reduction (Option (List Expr))
  | none => .whole none
  | some es => (Expr.reduceList dead es).map some

def MapEntry.reduceList (dead : String) : List MapEntry → Reduction (List MapEntry)
  | [] => .whole []
  | ⟨key, value⟩ :: entries =>
    (((key.reduce dead key.ty).both fun _ => value.reduce dead value.ty).both fun _ =>
      MapEntry.reduceList dead entries).map fun ((key, value), entries) => ⟨key, value⟩ :: entries
end

end Mutation
