import Mutation.Tree.Module

/-!
# Building trees

Builders for trees whose parts are placed by hand. A compound expression takes its range from
its parts where the layout of the source fixes it, and from given positions otherwise; a range
is fitted, so that every node built from such parts has a non-empty range that holds its
anchor.
-/

namespace Mutation.Build

/-- The range from `start` to `stop`, anchored at its start. -/
def extent (start stop : Pos) : Span := .fitted start stop start

/-- A literal at a token. -/
def literal (value : Literal) (ty : Ty) (pos : Pos) : Expr := ⟨.literal value, .token pos, ty⟩

/-- An integer at a token. -/
def int (value : Wide) (pos : Pos) : Expr := literal (.int value) .int pos

/-- A boolean at a token. -/
def bool (value : Bool) (pos : Pos) : Expr := literal (.bool value) .bool pos

/-- A text at a token. -/
def string (value : String) (pos : Pos) : Expr := literal (.string value) .string pos

/-- A name at a token. -/
def name (name : String) (ty : Ty) (pos : Pos) : Expr := ⟨.name name, .token pos, ty⟩

/-- The receiver of a method of the class, at a token. -/
def this (className : String) (pos : Pos) : Expr := ⟨.this, .token pos, .class className⟩

/-- The type of a binary expression: conditions are boolean, all else has the type of the left
operand. -/
def binaryTy (op : BinaryOp) (lhs : Ty) : Ty :=
  match op.opClass with
  | .relational | .logical | .membership => .bool
  | _ => lhs

/-- A binary expression, anchored at its operator. -/
def binary (op : BinaryOp) (lhs rhs : Expr) (opPos : Pos) : Expr :=
  ⟨.binary op lhs rhs, .fitted lhs.span.start rhs.span.stop opPos, binaryTy op lhs.ty⟩

/-- The type of a unary expression: the negative of a natural number is an integer. -/
def unaryTy (op : UnaryOp) (operand : Ty) : Ty :=
  match op, operand with
  | .not, _ => .bool
  | .neg, .nat => .int
  | .neg, t => t

/-- A unary expression, anchored at its operator. -/
def unary (op : UnaryOp) (operand : Expr) (opPos : Pos) : Expr :=
  ⟨.unary op operand, extent opPos operand.span.stop, unaryTy op operand.ty⟩

/-- A field access, anchored at the field. -/
def member (receiver : Expr) (field : String) (ty : Ty) (pos : Pos) : Expr :=
  ⟨.member receiver field, .fitted receiver.span.start pos pos, ty⟩

/-- A component of a tuple, anchored at the index. -/
def tupleIndex (tuple : Expr) (index : UInt64) (ty : Ty) (pos : Pos) : Expr :=
  ⟨.tupleIndex tuple index, .fitted tuple.span.start pos pos, ty⟩

/-- An element of a collection, anchored at the start of the index. -/
def index (seq index : Expr) (ty : Ty) (stop : Pos) : Expr :=
  ⟨.index seq index, .fitted seq.span.start stop index.span.start, ty⟩

/-- A call. -/
def call (receiver : Option Expr) (method : String) (args : List Expr) (ty : Ty)
    (start stop : Pos) : Expr :=
  ⟨.call receiver method args, extent start stop, ty⟩

/-- A collection by its elements. -/
def display (collection : Collection) (elements : List Expr) (elemTy : Ty) (start stop : Pos) :
    Expr :=
  ⟨.display collection elements, extent start stop, collection.typeOf elemTy⟩

/-- A new array. -/
def arrayAlloc (elemTy : Ty) (dims : List Expr) (init : Option (List Expr)) (start stop : Pos) :
    Expr :=
  ⟨.arrayAlloc elemTy dims init, extent start stop,
    .array elemTy (UInt32.ofNat (max dims.length 1))⟩

/-- A constructor application, anchored at the constructor. -/
def ctor (datatype ctor : String) (args : List Expr) (start stop : Pos) : Expr :=
  ⟨.ctor datatype ctor args, extent start stop, .datatype datatype⟩

/-- A block. -/
def block (stmts : List Stmt) (start stop : Pos) : Block := ⟨stmts, extent start stop⟩

/-- A statement that is not ghost. -/
def stmt (kind : StmtKind) (start stop : Pos) : Stmt := ⟨kind, extent start stop, false⟩

/-- A block as a statement. -/
def blockStmt (stmts : List Stmt) (start stop : Pos) : Stmt :=
  stmt (.block (block stmts start stop)) start stop

/-- A declaration of one local, whose name stands right after `start`; `none` when there is no
position after it. -/
def varDecl (name : String) (ty : Ty) (init : Option Expr) (start stop : Pos) : Option Stmt :=
  if start.toNat + 1 < UInt32.size then
    let v : Variable := { name, ty, span := .token (start + 1) }
    let d : VarDecl :=
      match init with
      | some e => .withInit [v] [e]
      | none => ⟨[v], none⟩
    some (stmt (.varDecl d) start stop)
  else none

/-- An assignment to one target. -/
def assign (target value : Expr) (start stop : Pos) : Stmt :=
  stmt (.update (.make [target] [value])) start stop

/-- A call for its effect. -/
def exprStmt (e : Expr) (start stop : Pos) : Stmt := stmt (.expr e) start stop

/-- A return. -/
def ret (values : List Expr) (start stop : Pos) : Stmt := stmt (.ret values) start stop

/-- An `if` with a guard. -/
def ifElse (guard : Expr) (thenBranch : Block) (elseBranch : Option Stmt) (start stop : Pos) :
    Stmt :=
  stmt (.ifElse (some guard) thenBranch elseBranch) start stop

/-- A `while` with a guard. -/
def whileLoop (guard : Expr) (invariants : List Expr) (body : Block) (start stop : Pos) : Stmt :=
  stmt (.whileLoop (some guard) invariants [] body) start stop

/-- A `match`. -/
def matchOn (source : Expr) (cases : List MatchCase) (start stop : Pos) : Stmt :=
  stmt (.matchOn source cases) start stop

/-- A case of a match. -/
def case (pattern : Pattern) (body : List Stmt) (start stop : Pos) : MatchCase :=
  ⟨pattern, body, extent start stop⟩

/-- A constructor applied to variables, as a pattern. -/
def ctorPattern (name : String) (vars : List (String × Ty)) : Pattern :=
  .ctor name (vars.map fun (var, ty) => .bind var ty)

/-- An asserted condition. -/
def assert (e : Expr) (start stop : Pos) : Stmt := stmt (.assert e) start stop

/-- A `print`. -/
def print (args : List Expr) (start stop : Pos) : Stmt := stmt (.print args) start stop

/-- A `break` at a token. -/
def breakLoop (pos : Pos) : Stmt := ⟨.breakLoop, .token pos, false⟩

/-- A variable at a token: a parameter, a result or a field. -/
def formal (name : String) (ty : Ty) (pos : Pos) : Variable := { name, ty, span := .token pos }

/-- A method with a body. -/
def method (name : String) (params outs : List Variable) (body : Block) (start stop : Pos) :
    Method :=
  { name, params, outs, body := some body, span := extent start stop }

/-- A class. -/
def classDecl (name : String) (members : List Member) (start stop : Pos) : Decl :=
  .class { name, members, span := extent start stop }

/-- A datatype without members; its constructors have its range. -/
def datatype (name : String) (ctors : List (String × List Variable)) (start stop : Pos) : Decl :=
  .datatype
    { name, span := extent start stop
      ctors := ctors.map fun (ctor, formals) => ⟨ctor, formals, extent start stop⟩ }

end Mutation.Build
