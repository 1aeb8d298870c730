import Mutation.Tree.ToJson
import Mutation.Proofs.JsonText

/-!
# The JSON forms of trees are legible

Whatever a tree holds, its JSON form is read back when it is written. A real literal is written
without an exponent when it is zero, and the form of one that is not finite is no number.
-/

namespace Mutation

theorem Literal.legible (l : Literal) : l.toJson.Legible := by
  cases l with
  | real v =>
    refine ⟨?_, trivial⟩
    unfold Json.real
    split
    · rename_i finite
      exact Double.exponent_decimalOf finite
    · trivial
  | null => trivial
  | _ => exact ⟨trivial, trivial⟩

mutual
theorem Ty.legible : (t : Ty) → t.toJson.Legible
  | .int => trivial
  | .nat => trivial
  | .real => trivial
  | .bool => trivial
  | .char => trivial
  | .string => trivial
  | .bitVector _ => ⟨trivial, trivial⟩
  | .seq e => ⟨e.legible, trivial⟩
  | .set e => ⟨e.legible, trivial⟩
  | .multiset e => ⟨e.legible, trivial⟩
  | .map k v => ⟨⟨k.legible, v.legible, trivial⟩, trivial⟩
  | .array e _ => ⟨⟨e.legible, trivial, trivial⟩, trivial⟩
  | .tuple items => ⟨Ty.legible_list items, trivial⟩
  | .class _ => ⟨trivial, trivial⟩
  | .datatype _ => ⟨trivial, trivial⟩
  | .unknown => trivial

theorem Ty.legible_list : (ts : List Ty) → Json.LegibleItems (Ty.toJsonList ts)
  | [] => trivial
  | t :: ts => ⟨t.legible, Ty.legible_list ts⟩
end

mutual
theorem Pattern.legible : (p : Pattern) → p.toJson.Legible
  | .ctor _ args => ⟨⟨trivial, Pattern.legible_list args, trivial⟩, trivial⟩
  | .bind _ ty => ⟨⟨trivial, ty.legible, trivial⟩, trivial⟩
  | .literal l => ⟨l.legible, trivial⟩
  | .wildcard => trivial

theorem Pattern.legible_list : (ps : List Pattern) → Json.LegibleItems (Pattern.toJsonList ps)
  | [] => trivial
  | p :: ps => ⟨p.legible, Pattern.legible_list ps⟩
end

theorem Span.legible (s : Span) : s.toJson.Legible := ⟨trivial, trivial, trivial, trivial⟩

namespace Json

theorem legible_list {α : Type} {f : α → Json} {as : List α} (each : ∀ a ∈ as, (f a).Legible) :
    (Json.list f as).Legible := by
  induction as with
  | nil => trivial
  | cons a as ih =>
    obtain ⟨first, others⟩ := List.forall_mem_cons.1 each
    exact ⟨first, ih others⟩

theorem legible_opt {α : Type} {f : α → Json} {a : Option α} (each : ∀ a, (f a).Legible) :
    (Json.opt f a).Legible := by
  cases a with
  | none => trivial
  | some a => exact each a

end Json

mutual
theorem Expr.legible : (e : Expr) → e.toJson.Legible
  | ⟨kind, span, ty⟩ => ⟨kind.legible, span.legible, ty.legible, trivial⟩

theorem ExprKind.legible : (k : ExprKind) → k.toJson.Legible
  | .literal l => ⟨l.legible, trivial⟩
  | .name _ => ⟨trivial, trivial⟩
  | .this => trivial
  | .binary _ l r => ⟨⟨trivial, l.legible, r.legible, trivial⟩, trivial⟩
  | .unary _ x => ⟨⟨trivial, x.legible, trivial⟩, trivial⟩
  | .chain c => ⟨c.legible, trivial⟩
  | .member r _ => ⟨⟨r.legible, trivial, trivial⟩, trivial⟩
  | .tupleIndex t _ => ⟨⟨t.legible, trivial, trivial⟩, trivial⟩
  | .index s i => ⟨⟨s.legible, i.legible, trivial⟩, trivial⟩
  | .call r _ args =>
    ⟨⟨Expr.legible_opt r, trivial, Expr.legible_list args, trivial⟩, trivial⟩
  | .display _ es => ⟨⟨trivial, Expr.legible_list es, trivial⟩, trivial⟩
  | .mapDisplay entries => ⟨⟨MapEntry.legible_list entries, trivial⟩, trivial⟩
  | .arrayAlloc elemTy dims init =>
    ⟨⟨elemTy.legible, Expr.legible_list dims, Expr.legible_optList init, trivial⟩, trivial⟩
  | .ctor _ _ args => ⟨⟨trivial, trivial, Expr.legible_list args, trivial⟩, trivial⟩
  | .ite c t f => ⟨⟨c.legible, t.legible, f.legible, trivial⟩, trivial⟩
  | .old x => ⟨x.legible, trivial⟩

theorem Chain.legible : (c : Chain) → c.toJson.Legible
  | ⟨operands, _, resolved⟩ =>
    ⟨Expr.legible_list operands, Json.legible_list fun _ _ => trivial, Expr.legible_opt resolved,
      trivial⟩

theorem Expr.legible_list : (es : List Expr) → Json.LegibleItems (Expr.toJsonList es)
  | [] => trivial
  | e :: es => ⟨e.legible, Expr.legible_list es⟩

theorem Expr.legible_opt : (e : Option Expr) → (Expr.toJsonOpt e).Legible
  | none => trivial
  | some e => e.legible

theorem Expr.legible_optList : (es : Option (List Expr)) → (Expr.toJsonOptList es).Legible
  | none => trivial
  | some es => Expr.legible_list es

theorem MapEntry.legible_list : (entries : List MapEntry) →
    Json.LegibleItems (MapEntry.toJsonList entries)
  | [] => trivial
  | ⟨key, value⟩ :: entries =>
    ⟨⟨key.legible, value.legible, trivial⟩, MapEntry.legible_list entries⟩
end

theorem Variable.legible (v : Variable) : v.toJson.Legible :=
  ⟨trivial, v.ty.legible, v.span.legible, trivial, trivial⟩

theorem Update.legible (u : Update) : u.toJson.Legible :=
  ⟨Expr.legible_list u.targets, Expr.legible_list u.values,
    Json.legible_list fun a _ => ⟨a.target.legible, a.value.legible, trivial⟩, trivial⟩

theorem VarDecl.legible (d : VarDecl) : d.toJson.Legible :=
  ⟨Json.legible_list fun v _ => v.legible, Json.legible_opt Update.legible, trivial⟩

mutual
theorem Stmt.legible : (s : Stmt) → s.toJson.Legible
  | ⟨kind, span, _⟩ => ⟨kind.legible, span.legible, trivial, trivial⟩

theorem StmtKind.legible : (k : StmtKind) → k.toJson.Legible
  | .varDecl d => ⟨d.legible, trivial⟩
  | .update u => ⟨u.legible, trivial⟩
  | .expr e => ⟨e.legible, trivial⟩
  | .ret values => ⟨⟨Expr.legible_list values, trivial⟩, trivial⟩
  | .ifElse guard thenBranch elseBranch =>
    ⟨⟨Expr.legible_opt guard, thenBranch.legible, Stmt.legible_opt elseBranch, trivial⟩, trivial⟩
  | .whileLoop guard invariants decreases body =>
    ⟨⟨Expr.legible_opt guard, Expr.legible_list invariants, Expr.legible_list decreases,
      body.legible, trivial⟩, trivial⟩
  | .forLoop index start stop _ invariants body =>
    ⟨⟨index.legible, start.legible, Expr.legible_opt stop, trivial,
      Expr.legible_list invariants, body.legible, trivial⟩, trivial⟩
  | .breakLoop => trivial
  | .continueLoop => trivial
  | .block b => ⟨b.legible, trivial⟩
  | .matchOn source cases => ⟨⟨source.legible, MatchCase.legible_list cases, trivial⟩, trivial⟩
  | .assert e => ⟨e.legible, trivial⟩
  | .assume e => ⟨e.legible, trivial⟩
  | .print args => ⟨Expr.legible_list args, trivial⟩

theorem Block.legible : (b : Block) → b.toJson.Legible
  | ⟨stmts, span⟩ => ⟨Stmt.legible_list stmts, span.legible, trivial⟩

theorem Stmt.legible_list : (ss : List Stmt) → Json.LegibleItems (Stmt.toJsonList ss)
  | [] => trivial
  | s :: ss => ⟨s.legible, Stmt.legible_list ss⟩

theorem Stmt.legible_opt : (s : Option Stmt) → (Stmt.toJsonOpt s).Legible
  | none => trivial
  | some s => s.legible

theorem MatchCase.legible_list : (cases : List MatchCase) →
    Json.LegibleItems (MatchCase.toJsonList cases)
  | [] => trivial
  | ⟨pattern, body, span⟩ :: cases =>
    ⟨⟨pattern.legible, Stmt.legible_list body, span.legible, trivial⟩,
      MatchCase.legible_list cases⟩
end

theorem Member.legible (m : Member) : m.toJson.Legible := by
  have formals (vs : List Variable) : (Json.list Variable.toJson vs).Legible :=
    Json.legible_list fun v _ => v.legible
  have exprs (es : List Expr) : (Json.list Expr.toJson es).Legible :=
    Json.legible_list fun e _ => e.legible
  cases m with
  | field f => exact ⟨f.legible, trivial⟩
  | method m =>
    exact ⟨⟨trivial, formals _, formals _, exprs _, exprs _, exprs _, exprs _,
      Json.legible_opt Block.legible, m.span.legible, trivial, trivial, trivial⟩, trivial⟩
  | function f =>
    exact ⟨⟨trivial, formals _, f.result.legible, exprs _, exprs _, exprs _, exprs _,
      Json.legible_opt Expr.legible, f.span.legible, trivial, trivial, trivial⟩, trivial⟩

theorem Decl.legible (d : Decl) : d.toJson.Legible := by
  have members (ms : List Member) : (Json.list Member.toJson ms).Legible :=
    Json.legible_list fun m _ => m.legible
  cases d with
  | «class» c => exact ⟨⟨trivial, members _, c.span.legible, trivial, trivial⟩, trivial⟩
  | datatype d =>
    refine ⟨⟨trivial, Json.legible_list fun c _ => ?_, members _, d.span.legible, trivial⟩, trivial⟩
    exact ⟨trivial, Json.legible_list fun v _ => v.legible, c.span.legible, trivial⟩

/-- The form of a module can be read when it is written. -/
theorem Module.legible (m : Module) : m.toJson.Legible :=
  ⟨trivial, Json.legible_list fun d _ => d.legible, trivial⟩

end Mutation
