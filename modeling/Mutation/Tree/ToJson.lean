import Mutation.Json.Value
import Mutation.Tree.Module

/-!
# The JSON form of trees

A record becomes an object with all its fields, a missing part becoming `null`; a variant
without data becomes its tag, and one with data an object with the tag as its one key.
-/

namespace Mutation

open Json (tagged)

/-- The JSON form of a span. -/
def Span.toJson (s : Span) : Json :=
  .obj [("start", .word s.start), ("end", .word s.stop), ("anchor", .word s.anchor)]

/-- The JSON form of a literal. -/
def Literal.toJson : Literal → Json
  | .int v => tagged "Int" (.wide v)
  | .real v => tagged "Real" (.real v)
  | .bool v => tagged "Bool" (.bool v)
  | .char c => tagged "Char" (.str (String.ofList [c]))
  | .string s => tagged "String" (.str s)
  | .null => .str "Null"

mutual
/-- The JSON form of a type. -/
def Ty.toJson : Ty → Json
  | .int => .str "Int"
  | .nat => .str "Nat"
  | .real => .str "Real"
  | .bool => .str "Bool"
  | .char => .str "Char"
  | .string => .str "String"
  | .bitVector w => tagged "BitVector" (.word w)
  | .seq e => tagged "Seq" e.toJson
  | .set e => tagged "Set" e.toJson
  | .multiset e => tagged "Multiset" e.toJson
  | .map k v => tagged "Map" (.arr [k.toJson, v.toJson])
  | .array e dims => tagged "Array" (.obj [("elem", e.toJson), ("dims", .word dims)])
  | .tuple items => tagged "Tuple" (.arr (Ty.toJsonList items))
  | .class name => tagged "Class" (.str name)
  | .datatype name => tagged "Datatype" (.str name)
  | .unknown => .str "Unknown"

def Ty.toJsonList : List Ty → List Json
  | [] => []
  | t :: ts => t.toJson :: Ty.toJsonList ts
end

mutual
/-- The JSON form of a pattern. -/
def Pattern.toJson : Pattern → Json
  | .ctor name args =>
    tagged "Ctor" (.obj [("name", .str name), ("args", .arr (Pattern.toJsonList args))])
  | .bind name ty => tagged "Var" (.obj [("name", .str name), ("ty", ty.toJson)])
  | .literal l => tagged "Literal" l.toJson
  | .wildcard => .str "Wildcard"

def Pattern.toJsonList : List Pattern → List Json
  | [] => []
  | p :: ps => p.toJson :: Pattern.toJsonList ps
end

mutual
/-- The JSON form of an expression. -/
def Expr.toJson : Expr → Json
  | ⟨kind, span, ty⟩ =>
    .obj [("kind", kind.toJson), ("span", span.toJson), ("ty", ty.toJson)]

def ExprKind.toJson : ExprKind → Json
  | .literal l => tagged "Literal" l.toJson
  | .name n => tagged "Name" (.str n)
  | .this => .str "This"
  | .binary op l r =>
    tagged "Binary" (.obj [("op", .str op.name), ("lhs", l.toJson), ("rhs", r.toJson)])
  | .unary op x => tagged "Unary" (.obj [("op", .str op.name), ("operand", x.toJson)])
  | .chain c => tagged "Chain" c.toJson
  | .member r field => tagged "Member" (.obj [("receiver", r.toJson), ("field", .str field)])
  | .tupleIndex t index =>
    tagged "TupleIndex" (.obj [("tuple", t.toJson), ("index", .nat index.toNat)])
  | .index s i => tagged "Index" (.obj [("seq", s.toJson), ("index", i.toJson)])
  | .call r method args =>
    tagged "Call" (.obj
      [("receiver", Expr.toJsonOpt r), ("method", .str method),
        ("args", .arr (Expr.toJsonList args))])
  | .display kind es =>
    tagged "Display" (.obj [("kind", .str kind.name), ("elements", .arr (Expr.toJsonList es))])
  | .mapDisplay entries =>
    tagged "MapDisplay" (.obj [("entries", .arr (MapEntry.toJsonList entries))])
  | .arrayAlloc elemTy dims init =>
    tagged "ArrayAlloc" (.obj
      [("elem_ty", elemTy.toJson), ("dims", .arr (Expr.toJsonList dims)),
        ("init", Expr.toJsonOptList init)])
  | .ctor datatype ctor args =>
    tagged "Ctor" (.obj
      [("datatype", .str datatype), ("ctor", .str ctor), ("args", .arr (Expr.toJsonList args))])
  | .ite c t f =>
    tagged "Ite" (.obj [("cond", c.toJson), ("then_expr", t.toJson), ("else_expr", f.toJson)])
  | .old x => tagged "Old" x.toJson

def Chain.toJson : Chain → Json
  | ⟨operands, ops, resolved⟩ =>
    .obj
      [("operands", .arr (Expr.toJsonList operands)),
        ("ops", .list (fun op => .str op.name) ops), ("resolved", Expr.toJsonOpt resolved)]

def Expr.toJsonList : List Expr → List Json
  | [] => []
  | e :: es => e.toJson :: Expr.toJsonList es

def Expr.toJsonOpt : Option Expr → Json
  | none => .null
  | some e => e.toJson

def Expr.toJsonOptList : Option (List Expr) → Json
  | none => .null
  | some es => .arr (Expr.toJsonList es)

def MapEntry.toJsonList : List MapEntry → List Json
  | [] => []
  | ⟨key, value⟩ :: entries =>
    .obj [("key", key.toJson), ("value", value.toJson)] :: MapEntry.toJsonList entries
end

/-- The JSON form of a variable. -/
def Variable.toJson (v : Variable) : Json :=
  .obj
    [("name", .str v.name), ("ty", v.ty.toJson), ("span", v.span.toJson), ("ghost", .bool v.ghost)]

/-- The JSON form of a target with its value. -/
def Assigned.toJson (a : Assigned) : Json :=
  .obj [("lhs", a.target.toJson), ("rhs", a.value.toJson)]

/-- The JSON form of an assignment. -/
def Update.toJson (u : Update) : Json :=
  .obj
    [("lhss", .arr (Expr.toJsonList u.targets)), ("rhss", .arr (Expr.toJsonList u.values)),
      ("resolved", .list Assigned.toJson u.resolved)]

/-- The JSON form of a declaration. -/
def VarDecl.toJson (d : VarDecl) : Json :=
  .obj [("locals", .list Variable.toJson d.locals), ("init", .opt Update.toJson d.init)]

mutual
/-- The JSON form of a statement. -/
def Stmt.toJson : Stmt → Json
  | ⟨kind, span, ghost⟩ =>
    .obj [("kind", kind.toJson), ("span", span.toJson), ("ghost", .bool ghost)]

def StmtKind.toJson : StmtKind → Json
  | .varDecl d => tagged "VarDecl" d.toJson
  | .update u => tagged "Update" u.toJson
  | .expr e => tagged "Expr" e.toJson
  | .ret values => tagged "Return" (.obj [("values", .arr (Expr.toJsonList values))])
  | .ifElse guard thenBranch elseBranch =>
    tagged "If" (.obj
      [("guard", Expr.toJsonOpt guard), ("then_branch", thenBranch.toJson),
        ("else_branch", Stmt.toJsonOpt elseBranch)])
  | .whileLoop guard invariants decreases body =>
    tagged "While" (.obj
      [("guard", Expr.toJsonOpt guard), ("invariants", .arr (Expr.toJsonList invariants)),
        ("decreases", .arr (Expr.toJsonList decreases)), ("body", body.toJson)])
  | .forLoop index start stop ascending invariants body =>
    tagged "For" (.obj
      [("index", index.toJson), ("start", start.toJson), ("end", Expr.toJsonOpt stop),
        ("ascending", .bool ascending), ("invariants", .arr (Expr.toJsonList invariants)),
        ("body", body.toJson)])
  | .breakLoop => .str "Break"
  | .continueLoop => .str "Continue"
  | .block b => tagged "Block" b.toJson
  | .matchOn source cases =>
    tagged "Match" (.obj
      [("source", source.toJson), ("cases", .arr (MatchCase.toJsonList cases))])
  | .assert e => tagged "Assert" e.toJson
  | .assume e => tagged "Assume" e.toJson
  | .print args => tagged "Print" (.arr (Expr.toJsonList args))

def Block.toJson : Block → Json
  | ⟨stmts, span⟩ => .obj [("stmts", .arr (Stmt.toJsonList stmts)), ("span", span.toJson)]

def Stmt.toJsonList : List Stmt → List Json
  | [] => []
  | s :: ss => s.toJson :: Stmt.toJsonList ss

def Stmt.toJsonOpt : Option Stmt → Json
  | none => .null
  | some s => s.toJson

def MatchCase.toJsonList : List MatchCase → List Json
  | [] => []
  | ⟨pattern, body, span⟩ :: cases =>
    .obj
      [("pattern", pattern.toJson), ("body", .arr (Stmt.toJsonList body)), ("span", span.toJson)]
      :: MatchCase.toJsonList cases
end

/-- The JSON form of a method. -/
def Method.toJson (m : Method) : Json :=
  .obj
    [("name", .str m.name), ("params", .list Variable.toJson m.params),
      ("outs", .list Variable.toJson m.outs),
      ("requires", .list Expr.toJson m.contract.requires),
      ("ensures", .list Expr.toJson m.contract.ensures),
      ("modifies", .list Expr.toJson m.contract.frame),
      ("decreases", .list Expr.toJson m.contract.decreases),
      ("body", .opt Block.toJson m.body), ("span", m.span.toJson), ("ghost", .bool m.ghost),
      ("is_static", .bool m.isStatic)]

/-- The JSON form of a function. -/
def Function.toJson (f : Function) : Json :=
  .obj
    [("name", .str f.name), ("params", .list Variable.toJson f.params),
      ("result", f.result.toJson),
      ("requires", .list Expr.toJson f.contract.requires),
      ("ensures", .list Expr.toJson f.contract.ensures),
      ("reads", .list Expr.toJson f.contract.frame),
      ("decreases", .list Expr.toJson f.contract.decreases),
      ("body", .opt Expr.toJson f.body), ("span", f.span.toJson), ("ghost", .bool f.ghost),
      ("is_static", .bool f.isStatic)]

/-- The JSON form of a member. -/
def Member.toJson : Member → Json
  | .field f => tagged "Field" f.toJson
  | .method m => tagged "Method" m.toJson
  | .function f => tagged "Function" f.toJson

/-- The JSON form of a class. -/
def Class.toJson (c : Class) : Json :=
  .obj
    [("name", .str c.name), ("members", .list Member.toJson c.members), ("span", c.span.toJson),
      ("is_default", .bool c.isDefault)]

/-- The JSON form of a constructor. -/
def Ctor.toJson (c : Ctor) : Json :=
  .obj
    [("name", .str c.name), ("formals", .list Variable.toJson c.formals), ("span", c.span.toJson)]

/-- The JSON form of a datatype. -/
def Datatype.toJson (d : Datatype) : Json :=
  .obj
    [("name", .str d.name), ("ctors", .list Ctor.toJson d.ctors),
      ("members", .list Member.toJson d.members), ("span", d.span.toJson)]

/-- The JSON form of a declaration. -/
def Decl.toJson : Decl → Json
  | .class c => tagged "Class" c.toJson
  | .datatype d => tagged "Datatype" d.toJson

/-- The JSON form of a module. -/
def Module.toJson (m : Module) : Json :=
  .obj [("name", .str m.name), ("decls", .list Decl.toJson m.decls)]

end Mutation
