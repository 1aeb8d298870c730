import Mutation.Json.Decoder
import Mutation.Tree.Module

/-!
# Trees from JSON

The decoders for trees. Types, patterns, expressions and statements nest; their decoders
recurse on a fuel of their own, which each record or variant they open uses up together with
the nesting budget, so a fuel above the budget never runs out.
-/

namespace Mutation

open Decoder (Fields)

/-- Decodes a span. -/
def Span.decoder : Decoder Span :=
  .record ["start", "end", "anchor"] fun r b => do
    return ⟨← r.required "start" .word32 b, ← r.required "end" .word32 b,
      ← r.required "anchor" .word32 b⟩

/-- Decodes a literal. -/
def Literal.decoder : Decoder Literal := fun b j =>
  match Decoder.variant b j with
  | some ("Int", some v, b) => (Decoder.wide b v).map .int
  | some ("Real", some v, b) => (Decoder.real b v).map .real
  | some ("Bool", some v, b) => (Decoder.bool b v).map .bool
  | some ("Char", some v, b) => (Decoder.char b v).map .char
  | some ("String", some v, b) => (Decoder.string b v).map .string
  | some ("Null", none, _) => some .null
  | some ("Null", some .null, _) => some .null
  | _ => none

/-- The types without parts. -/
def Ty.plain? : String → Option Ty
  | "Int" => some .int
  | "Nat" => some .nat
  | "Real" => some .real
  | "Bool" => some .bool
  | "Char" => some .char
  | "String" => some .string
  | "Unknown" => some .unknown
  | _ => none

/-- Decodes a type; `fuel` bounds the nesting. -/
def Ty.decoderUpTo : Nat → Decoder Ty
  | 0, _, _ => none
  | fuel + 1, b, j =>
    match Decoder.variant b j with
    | some ("BitVector", some v, b) => (Decoder.word32 b v).map .bitVector
    | some ("Seq", some v, b) => (Ty.decoderUpTo fuel b v).map .seq
    | some ("Set", some v, b) => (Ty.decoderUpTo fuel b v).map .set
    | some ("Multiset", some v, b) => (Ty.decoderUpTo fuel b v).map .multiset
    | some ("Map", some v, b) =>
      (Decoder.pair (Ty.decoderUpTo fuel) (Ty.decoderUpTo fuel) b v).map fun (k, v) => .map k v
    | some ("Array", some v, b) =>
      Decoder.record ["elem", "dims"] (fun r b => do
        return .array (← r.required "elem" (Ty.decoderUpTo fuel) b)
          (← r.required "dims" .word32 b)) b v
    | some ("Tuple", some v, b) => (Decoder.list (Ty.decoderUpTo fuel) b v).map .tuple
    | some ("Class", some v, b) => (Decoder.string b v).map .class
    | some ("Datatype", some v, b) => (Decoder.string b v).map .datatype
    | some (tag, none, _) => Ty.plain? tag
    | some (tag, some .null, _) => Ty.plain? tag
    | _ => none

/-- Decodes a type. -/
def Ty.decoder : Decoder Ty := fun b j => Ty.decoderUpTo (b + 1) b j

/-- Decodes a pattern; `fuel` bounds the nesting. -/
def Pattern.decoderUpTo : Nat → Decoder Pattern
  | 0, _, _ => none
  | fuel + 1, b, j =>
    match Decoder.variant b j with
    | some ("Ctor", some v, b) =>
      Decoder.record ["name", "args"] (fun r b => do
        return .ctor (← r.required "name" .string b)
          (← r.required "args" (.list (Pattern.decoderUpTo fuel)) b)) b v
    | some ("Var", some v, b) =>
      Decoder.record ["name", "ty"] (fun r b => do
        return .bind (← r.required "name" .string b) (← r.required "ty" Ty.decoder b)) b v
    | some ("Literal", some v, b) => (Literal.decoder b v).map .literal
    | some ("Wildcard", none, _) => some .wildcard
    | some ("Wildcard", some .null, _) => some .wildcard
    | _ => none

/-- Decodes a pattern. -/
def Pattern.decoder : Decoder Pattern := fun b j => Pattern.decoderUpTo (b + 1) b j

/-- Decodes the name of a binary operator. -/
def BinaryOp.decoder : Decoder BinaryOp := .unitVariant BinaryOp.ofName?

/-- Decodes the name of a unary operator. -/
def UnaryOp.decoder : Decoder UnaryOp := .unitVariant UnaryOp.ofName?

/-- Decodes the name of a kind of collection. -/
def Collection.decoder : Decoder Collection := .unitVariant Collection.ofName?

mutual
/-- Decodes an expression; `fuel` bounds the nesting. -/
def Expr.decoderUpTo : Nat → Decoder Expr
  | 0, _, _ => none
  | fuel + 1, b, j =>
    Decoder.record ["kind", "span", "ty"] (fun r b => do
      return ⟨← r.required "kind" (ExprKind.decoderUpTo fuel) b,
        ← r.required "span" Span.decoder b, ← r.required "ty" Ty.decoder b⟩) b j

/-- Decodes a shape of expression; `fuel` bounds the nesting. -/
def ExprKind.decoderUpTo : Nat → Decoder ExprKind
  | 0, _, _ => none
  | fuel + 1, b, j =>
    match Decoder.variant b j with
    | some ("Literal", some v, b) => (Literal.decoder b v).map .literal
    | some ("Name", some v, b) => (Decoder.string b v).map .name
    | some ("This", none, _) => some .this
    | some ("This", some .null, _) => some .this
    | some ("Binary", some v, b) =>
      Decoder.record ["op", "lhs", "rhs"] (fun r b => do
        return .binary (← r.required "op" BinaryOp.decoder b)
          (← r.required "lhs" (Expr.decoderUpTo fuel) b)
          (← r.required "rhs" (Expr.decoderUpTo fuel) b)) b v
    | some ("Unary", some v, b) =>
      Decoder.record ["op", "operand"] (fun r b => do
        return .unary (← r.required "op" UnaryOp.decoder b)
          (← r.required "operand" (Expr.decoderUpTo fuel) b)) b v
    | some ("Chain", some v, b) => (Chain.decoderUpTo fuel b v).map .chain
    | some ("Member", some v, b) =>
      Decoder.record ["receiver", "field"] (fun r b => do
        return .member (← r.required "receiver" (Expr.decoderUpTo fuel) b)
          (← r.required "field" .string b)) b v
    | some ("TupleIndex", some v, b) =>
      Decoder.record ["tuple", "index"] (fun r b => do
        return .tupleIndex (← r.required "tuple" (Expr.decoderUpTo fuel) b)
          (← r.required "index" .word64 b)) b v
    | some ("Index", some v, b) =>
      Decoder.record ["seq", "index"] (fun r b => do
        return .index (← r.required "seq" (Expr.decoderUpTo fuel) b)
          (← r.required "index" (Expr.decoderUpTo fuel) b)) b v
    | some ("Call", some v, b) =>
      Decoder.record ["receiver", "method", "args"] (fun r b => do
        return .call (← r.optional "receiver" (Expr.decoderUpTo fuel) b)
          (← r.required "method" .string b)
          (← r.required "args" (.list (Expr.decoderUpTo fuel)) b)) b v
    | some ("Display", some v, b) =>
      Decoder.record ["kind", "elements"] (fun r b => do
        return .display (← r.required "kind" Collection.decoder b)
          (← r.required "elements" (.list (Expr.decoderUpTo fuel)) b)) b v
    | some ("MapDisplay", some v, b) =>
      Decoder.record ["entries"] (fun r b => do
        return .mapDisplay (← r.required "entries" (.list (MapEntry.decoderUpTo fuel)) b)) b v
    | some ("ArrayAlloc", some v, b) =>
      Decoder.record ["elem_ty", "dims", "init"] (fun r b => do
        return .arrayAlloc (← r.required "elem_ty" Ty.decoder b)
          (← r.required "dims" (.list (Expr.decoderUpTo fuel)) b)
          (← r.optional "init" (.list (Expr.decoderUpTo fuel)) b)) b v
    | some ("Ctor", some v, b) =>
      Decoder.record ["datatype", "ctor", "args"] (fun r b => do
        return .ctor (← r.required "datatype" .string b) (← r.required "ctor" .string b)
          (← r.required "args" (.list (Expr.decoderUpTo fuel)) b)) b v
    | some ("Ite", some v, b) =>
      Decoder.record ["cond", "then_expr", "else_expr"] (fun r b => do
        return .ite (← r.required "cond" (Expr.decoderUpTo fuel) b)
          (← r.required "then_expr" (Expr.decoderUpTo fuel) b)
          (← r.required "else_expr" (Expr.decoderUpTo fuel) b)) b v
    | some ("Old", some v, b) => (Expr.decoderUpTo fuel b v).map .old
    | _ => none

/-- Decodes a chain; `fuel` bounds the nesting. -/
def Chain.decoderUpTo : Nat → Decoder Chain
  | 0, _, _ => none
  | fuel + 1, b, j =>
    Decoder.record ["operands", "ops", "resolved"] (fun r b => do
      return ⟨← r.required "operands" (.list (Expr.decoderUpTo fuel)) b,
        ← r.required "ops" (.list BinaryOp.decoder) b,
        ← r.optional "resolved" (Expr.decoderUpTo fuel) b⟩) b j

/-- Decodes an entry of a map display; `fuel` bounds the nesting. -/
def MapEntry.decoderUpTo : Nat → Decoder MapEntry
  | 0, _, _ => none
  | fuel + 1, b, j =>
    Decoder.record ["key", "value"] (fun r b => do
      return ⟨← r.required "key" (Expr.decoderUpTo fuel) b,
        ← r.required "value" (Expr.decoderUpTo fuel) b⟩) b j
end

/-- Decodes an expression. -/
def Expr.decoder : Decoder Expr := fun b j => Expr.decoderUpTo (b + 1) b j

/-- Decodes a chain. -/
def Chain.decoder : Decoder Chain := fun b j => Chain.decoderUpTo (b + 1) b j

/-- Decodes a variable. -/
def Variable.decoder : Decoder Variable :=
  .record ["name", "ty", "span", "ghost"] fun r b => do
    return ⟨← r.required "name" .string b, ← r.required "ty" Ty.decoder b,
      ← r.required "span" Span.decoder b, ← r.defaulted "ghost" false .bool b⟩

/-- Decodes a target with its value. -/
def Assigned.decoder : Decoder Assigned :=
  .record ["lhs", "rhs"] fun r b => do
    return ⟨← r.required "lhs" Expr.decoder b, ← r.required "rhs" Expr.decoder b⟩

/-- Decodes an assignment. -/
def Update.decoder : Decoder Update :=
  .record ["lhss", "rhss", "resolved"] fun r b => do
    return ⟨← r.required "lhss" (.list Expr.decoder) b, ← r.required "rhss" (.list Expr.decoder) b,
      ← r.defaulted "resolved" [] (.list Assigned.decoder) b⟩

/-- Decodes a declaration. -/
def VarDecl.decoder : Decoder VarDecl :=
  .record ["locals", "init"] fun r b => do
    return ⟨← r.required "locals" (.list Variable.decoder) b,
      ← r.optional "init" Update.decoder b⟩

mutual
/-- Decodes a statement; `fuel` bounds the nesting. -/
def Stmt.decoderUpTo : Nat → Decoder Stmt
  | 0, _, _ => none
  | fuel + 1, b, j =>
    Decoder.record ["kind", "span", "ghost"] (fun r b => do
      return ⟨← r.required "kind" (StmtKind.decoderUpTo fuel) b,
        ← r.required "span" Span.decoder b, ← r.defaulted "ghost" false .bool b⟩) b j

/-- Decodes a shape of statement; `fuel` bounds the nesting. -/
def StmtKind.decoderUpTo : Nat → Decoder StmtKind
  | 0, _, _ => none
  | fuel + 1, b, j =>
    match Decoder.variant b j with
    | some ("VarDecl", some v, b) => (VarDecl.decoder b v).map .varDecl
    | some ("Update", some v, b) => (Update.decoder b v).map .update
    | some ("Expr", some v, b) => (Expr.decoder b v).map .expr
    | some ("Return", some v, b) =>
      Decoder.record ["values"] (fun r b => do
        return .ret (← r.required "values" (.list Expr.decoder) b)) b v
    | some ("If", some v, b) =>
      Decoder.record ["guard", "then_branch", "else_branch"] (fun r b => do
        return .ifElse (← r.optional "guard" Expr.decoder b)
          (← r.required "then_branch" (Block.decoderUpTo fuel) b)
          (← r.optional "else_branch" (Stmt.decoderUpTo fuel) b)) b v
    | some ("While", some v, b) =>
      Decoder.record ["guard", "invariants", "decreases", "body"] (fun r b => do
        return .whileLoop (← r.optional "guard" Expr.decoder b)
          (← r.defaulted "invariants" [] (.list Expr.decoder) b)
          (← r.defaulted "decreases" [] (.list Expr.decoder) b)
          (← r.required "body" (Block.decoderUpTo fuel) b)) b v
    | some ("For", some v, b) =>
      Decoder.record ["index", "start", "end", "ascending", "invariants", "body"] (fun r b => do
        return .forLoop (← r.required "index" Variable.decoder b)
          (← r.required "start" Expr.decoder b) (← r.optional "end" Expr.decoder b)
          (← r.defaulted "ascending" true .bool b)
          (← r.defaulted "invariants" [] (.list Expr.decoder) b)
          (← r.required "body" (Block.decoderUpTo fuel) b)) b v
    | some ("Break", none, _) => some .breakLoop
    | some ("Break", some .null, _) => some .breakLoop
    | some ("Continue", none, _) => some .continueLoop
    | some ("Continue", some .null, _) => some .continueLoop
    | some ("Block", some v, b) => (Block.decoderUpTo fuel b v).map .block
    | some ("Match", some v, b) =>
      Decoder.record ["source", "cases"] (fun r b => do
        return .matchOn (← r.required "source" Expr.decoder b)
          (← r.required "cases" (.list (MatchCase.decoderUpTo fuel)) b)) b v
    | some ("Assert", some v, b) => (Expr.decoder b v).map .assert
    | some ("Assume", some v, b) => (Expr.decoder b v).map .assume
    | some ("Print", some v, b) => (Decoder.list Expr.decoder b v).map .print
    | _ => none

/-- Decodes a block; `fuel` bounds the nesting. -/
def Block.decoderUpTo : Nat → Decoder Block
  | 0, _, _ => none
  | fuel + 1, b, j =>
    Decoder.record ["stmts", "span"] (fun r b => do
      return ⟨← r.required "stmts" (.list (Stmt.decoderUpTo fuel)) b,
        ← r.required "span" Span.decoder b⟩) b j

/-- Decodes a case; `fuel` bounds the nesting. -/
def MatchCase.decoderUpTo : Nat → Decoder MatchCase
  | 0, _, _ => none
  | fuel + 1, b, j =>
    Decoder.record ["pattern", "body", "span"] (fun r b => do
      return ⟨← r.required "pattern" Pattern.decoder b,
        ← r.required "body" (.list (Stmt.decoderUpTo fuel)) b,
        ← r.required "span" Span.decoder b⟩) b j
end

/-- Decodes a statement. -/
def Stmt.decoder : Decoder Stmt := fun b j => Stmt.decoderUpTo (b + 1) b j

/-- Decodes a block. -/
def Block.decoder : Decoder Block := fun b j => Block.decoderUpTo (b + 1) b j

/-- Decodes a contract, whose frame clause has the given name. -/
def Contract.fromFields (r : Fields) (frame : String) (b : Nat) : Option Contract := do
  return ⟨← r.defaulted "requires" [] (.list Expr.decoder) b,
    ← r.defaulted "ensures" [] (.list Expr.decoder) b,
    ← r.defaulted frame [] (.list Expr.decoder) b,
    ← r.defaulted "decreases" [] (.list Expr.decoder) b⟩

/-- Decodes a method. -/
def Method.decoder : Decoder Method :=
  .record ["name", "params", "outs", "requires", "ensures", "modifies", "decreases", "body",
      "span", "ghost", "is_static"] fun r b => do
    return ⟨← r.required "name" .string b, ← r.required "params" (.list Variable.decoder) b,
      ← r.defaulted "outs" [] (.list Variable.decoder) b, ← Contract.fromFields r "modifies" b,
      ← r.optional "body" Block.decoder b, ← r.required "span" Span.decoder b,
      ← r.defaulted "ghost" false .bool b, ← r.defaulted "is_static" false .bool b⟩

/-- Decodes a function. -/
def Function.decoder : Decoder Function :=
  .record ["name", "params", "result", "requires", "ensures", "reads", "decreases", "body",
      "span", "ghost", "is_static"] fun r b => do
    return ⟨← r.required "name" .string b, ← r.required "params" (.list Variable.decoder) b,
      ← r.required "result" Ty.decoder b, ← Contract.fromFields r "reads" b,
      ← r.optional "body" Expr.decoder b, ← r.required "span" Span.decoder b,
      ← r.defaulted "ghost" false .bool b, ← r.defaulted "is_static" false .bool b⟩

/-- Decodes a member. -/
def Member.decoder : Decoder Member := fun b j =>
  match Decoder.variant b j with
  | some ("Field", some v, b) => (Variable.decoder b v).map .field
  | some ("Method", some v, b) => (Method.decoder b v).map .method
  | some ("Function", some v, b) => (Function.decoder b v).map .function
  | _ => none

/-- Decodes a class. -/
def Class.decoder : Decoder Class :=
  .record ["name", "members", "span", "is_default"] fun r b => do
    return ⟨← r.required "name" .string b, ← r.required "members" (.list Member.decoder) b,
      ← r.required "span" Span.decoder b, ← r.defaulted "is_default" false .bool b⟩

/-- Decodes a constructor. -/
def Ctor.decoder : Decoder Ctor :=
  .record ["name", "formals", "span"] fun r b => do
    return ⟨← r.required "name" .string b, ← r.required "formals" (.list Variable.decoder) b,
      ← r.required "span" Span.decoder b⟩

/-- Decodes a datatype. -/
def Datatype.decoder : Decoder Datatype :=
  .record ["name", "ctors", "members", "span"] fun r b => do
    return ⟨← r.required "name" .string b, ← r.required "ctors" (.list Ctor.decoder) b,
      ← r.defaulted "members" [] (.list Member.decoder) b, ← r.required "span" Span.decoder b⟩

/-- Decodes a declaration. -/
def Decl.decoder : Decoder Decl := fun b j =>
  match Decoder.variant b j with
  | some ("Class", some v, b) => (Class.decoder b v).map .class
  | some ("Datatype", some v, b) => (Datatype.decoder b v).map .datatype
  | _ => none

/-- Decodes a module. -/
def Module.decoder : Decoder Module :=
  .record ["name", "decls"] fun r b => do
    return ⟨← r.required "name" .string b, ← r.required "decls" (.list Decl.decoder) b⟩

end Mutation
