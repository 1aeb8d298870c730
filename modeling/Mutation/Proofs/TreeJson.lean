import Mutation.Program
import Mutation.Proofs.Decoding
import Mutation.Proofs.LegibleForms

/-!
# Trees read back from JSON

Every part of a tree is decoded from its own JSON form: each decoder is followed through the cases
of its type, down to the literals. So the file that a module is written to is loaded as the same
module (`Module.load_pretty`), when its real literals are finite and its form is not nested too
deep. The copies in chains and assignments are parts like the others.
-/

namespace Mutation

open Json (tagged depthFields_cons)

/-! ### Literals -/

/-- A real literal is finite; every other literal counts as finite. -/
def Literal.isFinite : Literal → Bool
  | .real v => v.isFinite
  | _ => true

mutual
/-- The literals of a pattern. -/
def Pattern.literals : Pattern → List Literal
  | .ctor _ args => Pattern.literalsList args
  | .bind _ _ => []
  | .literal l => [l]
  | .wildcard => []

def Pattern.literalsList : List Pattern → List Literal
  | [] => []
  | p :: ps => p.literals ++ Pattern.literalsList ps
end

mutual
/-- The literals of an expression, those in the conjunctions of its chains included. -/
def Expr.literals : Expr → List Literal
  | ⟨kind, _, _⟩ => kind.literals

def ExprKind.literals : ExprKind → List Literal
  | .literal l => [l]
  | .name _ => []
  | .this => []
  | .binary _ l r => l.literals ++ r.literals
  | .unary _ x => x.literals
  | .chain c => c.literals
  | .member r _ => r.literals
  | .tupleIndex t _ => t.literals
  | .index s i => s.literals ++ i.literals
  | .call r _ args => Expr.literalsOpt r ++ Expr.literalsList args
  | .display _ es => Expr.literalsList es
  | .mapDisplay entries => MapEntry.literalsList entries
  | .arrayAlloc _ dims init => Expr.literalsList dims ++ Expr.literalsOptList init
  | .ctor _ _ args => Expr.literalsList args
  | .ite c t f => c.literals ++ (t.literals ++ f.literals)
  | .old x => x.literals

def Chain.literals : Chain → List Literal
  | ⟨operands, _, resolved⟩ => Expr.literalsList operands ++ Expr.literalsOpt resolved

def Expr.literalsList : List Expr → List Literal
  | [] => []
  | e :: es => e.literals ++ Expr.literalsList es

def Expr.literalsOpt : Option Expr → List Literal
  | none => []
  | some e => e.literals

def Expr.literalsOptList : Option (List Expr) → List Literal
  | none => []
  | some es => Expr.literalsList es

def MapEntry.literalsList : List MapEntry → List Literal
  | [] => []
  | ⟨key, value⟩ :: entries => key.literals ++ (value.literals ++ MapEntry.literalsList entries)
end

/-- The literals of an assignment, those of its resolved copy included. -/
def Update.literals (u : Update) : List Literal :=
  Expr.literalsList u.targets ++ (Expr.literalsList u.values ++
    u.resolved.flatMap fun a => a.target.literals ++ a.value.literals)

/-- The literals of a declaration of locals. -/
def VarDecl.literals (d : VarDecl) : List Literal := d.init.toList.flatMap Update.literals

mutual
/-- The literals of a statement, those of its patterns and specifications included. -/
def Stmt.literals : Stmt → List Literal
  | ⟨kind, _, _⟩ => kind.literals

def StmtKind.literals : StmtKind → List Literal
  | .varDecl d => d.literals
  | .update u => u.literals
  | .expr e => e.literals
  | .ret values => Expr.literalsList values
  | .ifElse guard thenBranch elseBranch =>
    Expr.literalsOpt guard ++ (thenBranch.literals ++ Stmt.literalsOpt elseBranch)
  | .whileLoop guard invariants decreases body =>
    Expr.literalsOpt guard ++ (Expr.literalsList invariants ++
      (Expr.literalsList decreases ++ body.literals))
  | .forLoop _ start stop _ invariants body =>
    start.literals ++ (Expr.literalsOpt stop ++ (Expr.literalsList invariants ++ body.literals))
  | .breakLoop => []
  | .continueLoop => []
  | .block b => b.literals
  | .matchOn source cases => source.literals ++ MatchCase.literalsList cases
  | .assert e => e.literals
  | .assume e => e.literals
  | .print args => Expr.literalsList args

def Block.literals : Block → List Literal
  | ⟨stmts, _⟩ => Stmt.literalsList stmts

def Stmt.literalsList : List Stmt → List Literal
  | [] => []
  | s :: ss => s.literals ++ Stmt.literalsList ss

def Stmt.literalsOpt : Option Stmt → List Literal
  | none => []
  | some s => s.literals

def MatchCase.literalsList : List MatchCase → List Literal
  | [] => []
  | ⟨pattern, body, _⟩ :: cases =>
    pattern.literals ++ (Stmt.literalsList body ++ MatchCase.literalsList cases)
end

/-- The literals of a contract. -/
def Contract.literals (c : Contract) : List Literal := c.clauses.flatMap Expr.literalsList

/-- The literals of a member. -/
def Member.literals : Member → List Literal
  | .field _ => []
  | .method m => m.contract.literals ++ m.body.toList.flatMap Block.literals
  | .function f => f.contract.literals ++ Expr.literalsOpt f.body

/-- The literals of a declaration. -/
def Decl.literals : Decl → List Literal
  | .class c => c.members.flatMap Member.literals
  | .datatype d => d.members.flatMap Member.literals

/-- The literals of a module. -/
def Module.literals (m : Module) : List Literal := m.decls.flatMap Decl.literals

/-! ### Leaves -/

/-- An operator is read back from its name. -/
theorem BinaryOp.ofName?_name (op : BinaryOp) : BinaryOp.ofName? op.name = some op := by
  cases op <;> decide

theorem UnaryOp.ofName?_name (op : UnaryOp) : UnaryOp.ofName? op.name = some op := by
  cases op <;> decide

theorem Collection.ofName?_name (k : Collection) : Collection.ofName? k.name = some k := by
  cases k <;> decide

/-- So is the text of the name in a file. -/
@[simp] theorem BinaryOp.decoder_name (op : BinaryOp) (b : Nat) :
    BinaryOp.decoder b (Json.str op.name).reread = some op := op.ofName?_name

@[simp] theorem UnaryOp.decoder_name (op : UnaryOp) (b : Nat) :
    UnaryOp.decoder b (Json.str op.name).reread = some op := op.ofName?_name

@[simp] theorem Collection.decoder_name (k : Collection) (b : Nat) :
    Collection.decoder b (Json.str k.name).reread = some k := k.ofName?_name

/-- A span is decoded with its anchor. -/
@[simp] theorem Span.restored (s : Span) (b : Nat) : Span.decoder.Restores b s.toJson s := by
  refine .record rfl (by simp) fun c _ _ => ?_
  simp

/-- A literal is restored from its file form, unless it is a real number without one. -/
theorem Literal.restored {l : Literal} (finite : l.isFinite = true) (b : Nat) :
    Literal.decoder.Restores b l.toJson l := by
  cases l with
  | int v =>
    refine .tagged fun c _ _ => ?_
    simp [Literal.decoder, tagged, Decoder.variant]
  | real v =>
    refine .tagged fun c _ _ => ?_
    simp [Literal.decoder, tagged, Decoder.variant, Decoder.real_real finite]
  | bool v =>
    refine .tagged fun c _ _ => ?_
    simp [Literal.decoder, tagged, Decoder.variant]
  | char v =>
    refine .tagged fun c _ _ => ?_
    simp only [Literal.decoder, tagged, Decoder.variant, Decoder.char_str, Option.map_some]
  | string v =>
    refine .tagged fun c _ _ => ?_
    simp [Literal.decoder, tagged, Decoder.variant]
  | null =>
    intro _
    simp [Literal.toJson, Json.reread, Literal.decoder, Decoder.variant]

/-- A type that is written as a bare tag is read from it at any depth. -/
theorem Ty.decoder_plain {tag : String} {t : Ty} (known : Ty.plain? tag = some t) {fuel b : Nat} :
    Ty.decoderUpTo (fuel + 1) b (Json.str tag).reread = some t := by
  simp [Json.reread, Ty.decoderUpTo, Decoder.variant, known]

mutual
/-- A type is restored by a reader that is allowed more depth than the text has. -/
theorem Ty.restored_upTo : (t : Ty) → {fuel b : Nat} → b < fuel →
    (Ty.decoderUpTo fuel).Restores b t.toJson t
  | _, 0, _, below => absurd below (Nat.not_lt_zero _)
  | .int, _ + 1, _, _ => fun _ => Ty.decoder_plain (by simp [Ty.plain?])
  | .nat, _ + 1, _, _ => fun _ => Ty.decoder_plain (by simp [Ty.plain?])
  | .real, _ + 1, _, _ => fun _ => Ty.decoder_plain (by simp [Ty.plain?])
  | .bool, _ + 1, _, _ => fun _ => Ty.decoder_plain (by simp [Ty.plain?])
  | .char, _ + 1, _, _ => fun _ => Ty.decoder_plain (by simp [Ty.plain?])
  | .string, _ + 1, _, _ => fun _ => Ty.decoder_plain (by simp [Ty.plain?])
  | .unknown, _ + 1, _, _ => fun _ => Ty.decoder_plain (by simp [Ty.plain?])
  | .bitVector w, _ + 1, _, _ => .tagged fun c _ _ => by
    simp [Ty.decoderUpTo, tagged, Decoder.variant]
  | .seq e, fuel + 1, b, below => .tagged fun c less fits => by
    have part := e.restored_upTo (show c < fuel by omega) fits
    simp [Ty.decoderUpTo, tagged, Decoder.variant, part]
  | .set e, fuel + 1, b, below => .tagged fun c less fits => by
    have part := e.restored_upTo (show c < fuel by omega) fits
    simp [Ty.decoderUpTo, tagged, Decoder.variant, part]
  | .multiset e, fuel + 1, b, below => .tagged fun c less fits => by
    have part := e.restored_upTo (show c < fuel by omega) fits
    simp [Ty.decoderUpTo, tagged, Decoder.variant, part]
  | .map k v, fuel + 1, b, below => .tagged fun c less fits => by
    have parts := Decoder.Restores.pair
      (fun c' less' => k.restored_upTo (show c' < fuel by omega))
      (fun c' less' => v.restored_upTo (show c' < fuel by omega)) fits
    simp [Ty.decoderUpTo, tagged, Decoder.variant, parts]
  | .array e dims, fuel + 1, b, below => .tagged fun c less fits => by
    simp only [Ty.decoderUpTo, tagged, Decoder.variant]
    refine Decoder.Restores.record rfl (by simp) (fun c' less' fits => ?_) fits
    simp only [depthFields_cons, Nat.max_le] at fits
    simp [fits, e.restored_upTo (show c' < fuel by omega)]
  | .tuple items, fuel + 1, b, below => .tagged fun c less fits => by
    have parts := Ty.restored_listUpTo items (show c ≤ fuel by omega) fits
    simp [Ty.decoderUpTo, tagged, Decoder.variant, parts]
  | .class name, _ + 1, _, _ => .tagged fun c _ _ => by
    simp [Ty.decoderUpTo, tagged, Decoder.variant]
  | .datatype name, _ + 1, _, _ => .tagged fun c _ _ => by
    simp [Ty.decoderUpTo, tagged, Decoder.variant]

/-- A list of types lies one level deeper than its types. -/
theorem Ty.restored_listUpTo : (ts : List Ty) → {fuel b : Nat} → b ≤ fuel →
    (Decoder.list (Ty.decoderUpTo fuel)).Restores b (.arr (Ty.toJsonList ts)) ts
  | [], _, _, _ => .nil
  | t :: ts, _, _, below =>
    .cons (fun _ less => t.restored_upTo (Nat.lt_of_lt_of_le less below))
      (Ty.restored_listUpTo ts below)
end

/-- A type is restored at every depth that a reader may start from. -/
@[simp] theorem Ty.restored (t : Ty) (b : Nat) : Ty.decoder.Restores b t.toJson t :=
  t.restored_upTo (Nat.lt_succ_self b)

/-! ### Patterns and expressions -/

/-- Every real literal of a list is finite. -/
abbrev AllFinite (ls : List Literal) : Prop := ∀ l ∈ ls, l.isFinite = true

mutual
/-- A pattern is restored by a reader that is allowed more depth than the text has. -/
theorem Pattern.restored_upTo : (p : Pattern) → AllFinite p.literals → {fuel b : Nat} → b < fuel →
    (Pattern.decoderUpTo fuel).Restores b p.toJson p
  | _, _, 0, _, below => absurd below (Nat.not_lt_zero _)
  | .ctor name args, finite, fuel + 1, b, below => .tagged fun c less fits => by
    simp only [Pattern.decoderUpTo, tagged, Decoder.variant]
    refine Decoder.Restores.record rfl (by simp) (fun c' less' fits => ?_) fits
    simp only [depthFields_cons, Nat.max_le] at fits
    simp [fits, Pattern.restored_listUpTo args finite (show c' ≤ fuel by omega)]
  | .bind name ty, _, fuel + 1, b, below => .tagged fun c less fits => by
    simp only [Pattern.decoderUpTo, tagged, Decoder.variant]
    refine Decoder.Restores.record rfl (by simp) (fun c' less' fits => ?_) fits
    simp only [depthFields_cons, Nat.max_le] at fits
    simp [fits]
  | .literal l, finite, fuel + 1, b, below => .tagged fun c less fits => by
    have value := Literal.restored (finite l List.mem_cons_self) c fits
    simp [Pattern.decoderUpTo, tagged, Decoder.variant, value]
  | .wildcard, _, _ + 1, _, _ => fun _ => by
    simp [Pattern.toJson, Json.reread, Pattern.decoderUpTo, Decoder.variant]

theorem Pattern.restored_listUpTo : (ps : List Pattern) → AllFinite (Pattern.literalsList ps) →
    {fuel b : Nat} → b ≤ fuel →
    (Decoder.list (Pattern.decoderUpTo fuel)).Restores b (.arr (Pattern.toJsonList ps)) ps
  | [], _, _, _, _ => .nil
  | p :: ps, finite, _, _, below =>
    have parts := List.forall_mem_append.1 finite
    .cons (fun _ less => p.restored_upTo parts.1 (Nat.lt_of_lt_of_le less below))
      (Pattern.restored_listUpTo ps parts.2 below)
end

/-- A pattern without unreadable reals is restored. -/
theorem Pattern.restored {p : Pattern} (finite : AllFinite p.literals) (b : Nat) :
    Pattern.decoder.Restores b p.toJson p :=
  p.restored_upTo finite (Nat.lt_succ_self b)

/-- The file form of an expression is never `null`, so it is not taken for a missing one. -/
theorem Expr.reread_ne_null (e : Expr) : e.toJson.reread ≠ .null := by
  obtain ⟨kind, span, ty⟩ := e
  rintro ⟨⟩

mutual
/-- An expression is restored by a reader that is allowed more depth than the text has. -/
theorem Expr.restored_upTo : (e : Expr) → AllFinite e.literals → {fuel b : Nat} → b < fuel →
    (Expr.decoderUpTo fuel).Restores b e.toJson e
  | _, _, 0, _, below => absurd below (Nat.not_lt_zero _)
  | ⟨kind, span, ty⟩, finite, fuel + 1, b, below => by
    intro fits
    rw [Expr.decoderUpTo]
    refine Decoder.Restores.record rfl (by simp) (fun c less fits => ?_) fits
    simp only [depthFields_cons, Nat.max_le] at fits
    simp [fits, kind.restored_upTo finite (show c < fuel by omega)]

/-- Each shape of expression has a tag of its own and its parts as fields. -/
theorem ExprKind.restored_upTo : (k : ExprKind) → AllFinite k.literals → {fuel b : Nat} →
    b < fuel → (ExprKind.decoderUpTo fuel).Restores b k.toJson k
  | _, _, 0, _, below => absurd below (Nat.not_lt_zero _)
  | .literal l, finite, fuel + 1, b, below => .tagged fun c less fits => by
    have value := Literal.restored (finite l List.mem_cons_self) c fits
    simp [ExprKind.decoderUpTo, tagged, Decoder.variant, value]
  | .name n, _, _ + 1, _, _ => .tagged fun c _ _ => by
    simp [ExprKind.decoderUpTo, tagged, Decoder.variant]
  | .this, _, _ + 1, _, _ => fun _ => by
    simp [ExprKind.toJson, Json.reread, ExprKind.decoderUpTo, Decoder.variant]
  | .binary op l r, finite, fuel + 1, b, below => .tagged fun c less fits => by
    obtain ⟨left, right⟩ := List.forall_mem_append.1 finite
    simp only [ExprKind.decoderUpTo, tagged, Decoder.variant]
    refine Decoder.Restores.record rfl (by simp) (fun c' less' fits => ?_) fits
    simp only [depthFields_cons, Nat.max_le] at fits
    have inner : c' < fuel := by omega
    simp [fits, l.restored_upTo left inner, r.restored_upTo right inner]
  | .unary op x, finite, fuel + 1, b, below => .tagged fun c less fits => by
    simp only [ExprKind.decoderUpTo, tagged, Decoder.variant]
    refine Decoder.Restores.record rfl (by simp) (fun c' less' fits => ?_) fits
    simp only [depthFields_cons, Nat.max_le] at fits
    simp [fits, x.restored_upTo finite (show c' < fuel by omega)]
  | .chain ch, finite, fuel + 1, b, below => .tagged fun c less fits => by
    have part := ch.restored_upTo finite (show c < fuel by omega) fits
    simp [ExprKind.decoderUpTo, tagged, Decoder.variant, part]
  | .member r field, finite, fuel + 1, b, below => .tagged fun c less fits => by
    simp only [ExprKind.decoderUpTo, tagged, Decoder.variant]
    refine Decoder.Restores.record rfl (by simp) (fun c' less' fits => ?_) fits
    simp only [depthFields_cons, Nat.max_le] at fits
    simp [fits, r.restored_upTo finite (show c' < fuel by omega)]
  | .tupleIndex t index, finite, fuel + 1, b, below => .tagged fun c less fits => by
    simp only [ExprKind.decoderUpTo, tagged, Decoder.variant]
    refine Decoder.Restores.record rfl (by simp) (fun c' less' fits => ?_) fits
    simp only [depthFields_cons, Nat.max_le] at fits
    simp [fits, t.restored_upTo finite (show c' < fuel by omega)]
  | .index s i, finite, fuel + 1, b, below => .tagged fun c less fits => by
    obtain ⟨seq, place⟩ := List.forall_mem_append.1 finite
    simp only [ExprKind.decoderUpTo, tagged, Decoder.variant]
    refine Decoder.Restores.record rfl (by simp) (fun c' less' fits => ?_) fits
    simp only [depthFields_cons, Nat.max_le] at fits
    have inner : c' < fuel := by omega
    simp [fits, s.restored_upTo seq inner, i.restored_upTo place inner]
  | .call r method args, finite, fuel + 1, b, below => .tagged fun c less fits => by
    obtain ⟨receiver, rest⟩ := List.forall_mem_append.1 finite
    simp only [ExprKind.decoderUpTo, tagged, Decoder.variant]
    refine Decoder.Restores.record rfl (by simp) (fun c' less' fits => ?_) fits
    simp only [depthFields_cons, Nat.max_le] at fits
    have inner : c' < fuel := by omega
    simp [fits, Expr.restored_optUpTo r receiver inner, Expr.restored_listUpTo args rest inner.le]
  | .display kind es, finite, fuel + 1, b, below => .tagged fun c less fits => by
    simp only [ExprKind.decoderUpTo, tagged, Decoder.variant]
    refine Decoder.Restores.record rfl (by simp) (fun c' less' fits => ?_) fits
    simp only [depthFields_cons, Nat.max_le] at fits
    simp [fits, Expr.restored_listUpTo es finite (show c' ≤ fuel by omega)]
  | .mapDisplay entries, finite, fuel + 1, b, below => .tagged fun c less fits => by
    simp only [ExprKind.decoderUpTo, tagged, Decoder.variant]
    refine Decoder.Restores.record rfl (by simp) (fun c' less' fits => ?_) fits
    simp only [depthFields_cons, Nat.max_le] at fits
    simp [fits, MapEntry.restored_listUpTo entries finite (show c' ≤ fuel by omega)]
  | .arrayAlloc elemTy dims init, finite, fuel + 1, b, below => .tagged fun c less fits => by
    obtain ⟨sizes, elements⟩ := List.forall_mem_append.1 finite
    simp only [ExprKind.decoderUpTo, tagged, Decoder.variant]
    refine Decoder.Restores.record rfl (by simp) (fun c' less' fits => ?_) fits
    simp only [depthFields_cons, Nat.max_le] at fits
    have inner : c' ≤ fuel := by omega
    simp [fits, Expr.restored_listUpTo dims sizes inner,
      Expr.restored_optListUpTo init elements inner]
  | .ctor datatype ctor args, finite, fuel + 1, b, below => .tagged fun c less fits => by
    simp only [ExprKind.decoderUpTo, tagged, Decoder.variant]
    refine Decoder.Restores.record rfl (by simp) (fun c' less' fits => ?_) fits
    simp only [depthFields_cons, Nat.max_le] at fits
    simp [fits, Expr.restored_listUpTo args finite (show c' ≤ fuel by omega)]
  | .ite g t f, finite, fuel + 1, b, below => .tagged fun c less fits => by
    obtain ⟨cond, branches⟩ := List.forall_mem_append.1 finite
    obtain ⟨yes, no⟩ := List.forall_mem_append.1 branches
    simp only [ExprKind.decoderUpTo, tagged, Decoder.variant]
    refine Decoder.Restores.record rfl (by simp) (fun c' less' fits => ?_) fits
    simp only [depthFields_cons, Nat.max_le] at fits
    have inner : c' < fuel := by omega
    simp [fits, g.restored_upTo cond inner, t.restored_upTo yes inner, f.restored_upTo no inner]
  | .old x, finite, fuel + 1, b, below => .tagged fun c less fits => by
    have part := x.restored_upTo finite (show c < fuel by omega) fits
    simp [ExprKind.decoderUpTo, tagged, Decoder.variant, part]

/-- A chain is decoded with its conjunction. -/
theorem Chain.restored_upTo : (c : Chain) → AllFinite c.literals → {fuel b : Nat} → b < fuel →
    (Chain.decoderUpTo fuel).Restores b c.toJson c
  | _, _, 0, _, below => absurd below (Nat.not_lt_zero _)
  | ⟨operands, ops, resolved⟩, finite, fuel + 1, b, below => by
    obtain ⟨parts, whole⟩ := List.forall_mem_append.1 finite
    intro fits
    rw [Chain.decoderUpTo]
    refine Decoder.Restores.record rfl (by simp) (fun c less fits => ?_) fits
    simp only [depthFields_cons, Nat.max_le] at fits
    have inner : c < fuel := by omega
    have links : (Decoder.list BinaryOp.decoder).Restores c
        (.list (fun op => .str op.name) ops) ops := .list fun c' _ op _ _ => op.decoder_name c'
    simp [fits, links, Expr.restored_listUpTo operands parts inner.le,
      Expr.restored_optUpTo resolved whole inner]

/-- The parts of an expression are restored in order. -/
theorem Expr.restored_listUpTo : (es : List Expr) → AllFinite (Expr.literalsList es) →
    {fuel b : Nat} → b ≤ fuel →
    (Decoder.list (Expr.decoderUpTo fuel)).Restores b (.arr (Expr.toJsonList es)) es
  | [], _, _, _, _ => .nil
  | e :: es, finite, _, _, below =>
    have parts := List.forall_mem_append.1 finite
    .cons (fun _ less => e.restored_upTo parts.1 (Nat.lt_of_lt_of_le less below))
      (Expr.restored_listUpTo es parts.2 below)

/-- A missing expression is written as `null` and restored as missing. -/
theorem Expr.restored_optUpTo : (e : Option Expr) → AllFinite (Expr.literalsOpt e) →
    {fuel b : Nat} → b < fuel →
    (Decoder.opt (Expr.decoderUpTo fuel)).Restores b (Expr.toJsonOpt e) e
  | none, _, _, _, _ => .missing
  | some e, finite, _, _, below => .present e.reread_ne_null (e.restored_upTo finite below)

theorem Expr.restored_optListUpTo : (es : Option (List Expr)) →
    AllFinite (Expr.literalsOptList es) → {fuel b : Nat} → b ≤ fuel →
    (Decoder.opt (Decoder.list (Expr.decoderUpTo fuel))).Restores b (Expr.toJsonOptList es) es
  | none, _, _, _, _ => .missing
  | some es, finite, _, _, below =>
    .present (by rintro ⟨⟩) (Expr.restored_listUpTo es finite below)

/-- The entries of a map display are written as pairs. -/
theorem MapEntry.restored_listUpTo : (entries : List MapEntry) →
    AllFinite (MapEntry.literalsList entries) → {fuel b : Nat} → b ≤ fuel →
    (Decoder.list (MapEntry.decoderUpTo fuel)).Restores b (.arr (MapEntry.toJsonList entries))
      entries
  | [], _, _, _, _ => .nil
  | ⟨key, value⟩ :: entries, finite, fuel, b, below => by
    obtain ⟨left, rest⟩ := List.forall_mem_append.1 finite
    obtain ⟨right, others⟩ := List.forall_mem_append.1 rest
    refine .cons (fun c less => ?_) (MapEntry.restored_listUpTo entries others below)
    obtain ⟨fuel, rfl⟩ : ∃ k, fuel = k + 1 := ⟨fuel - 1, by omega⟩
    intro fits
    rw [MapEntry.decoderUpTo]
    refine Decoder.Restores.record rfl (by simp) (fun c' less' fits => ?_) fits
    simp only [depthFields_cons, Nat.max_le] at fits
    have inner : c' < fuel := by omega
    simp [fits, key.restored_upTo left inner, value.restored_upTo right inner]
end

/-- An expression without unreadable reals is restored. -/
theorem Expr.restored {e : Expr} (finite : AllFinite e.literals) (b : Nat) :
    Expr.decoder.Restores b e.toJson e :=
  e.restored_upTo finite (Nat.lt_succ_self b)

/-- Expressions are written as an array of the written ones. -/
theorem Expr.list_toJson (es : List Expr) : Json.list Expr.toJson es = .arr (Expr.toJsonList es) := by
  rw [Json.list]
  congr 1
  induction es with
  | nil => rfl
  | cons e es ih => rw [List.map_cons, ih, Expr.toJsonList]

theorem Expr.restored_list {es : List Expr} (finite : AllFinite (Expr.literalsList es)) (b : Nat) :
    (Decoder.list Expr.decoder).Restores b (.arr (Expr.toJsonList es)) es := by
  induction es with
  | nil => exact .nil
  | cons e es ih =>
    obtain ⟨first, others⟩ := List.forall_mem_append.1 finite
    exact .cons (fun c _ => Expr.restored first c) (ih others)

theorem Expr.restored_opt {e : Option Expr} (finite : AllFinite (Expr.literalsOpt e)) (b : Nat) :
    (Decoder.opt Expr.decoder).Restores b (Expr.toJsonOpt e) e := by
  cases e with
  | none => exact .missing
  | some e => exact .present e.reread_ne_null (Expr.restored finite b)

/-! ### Statements -/

/-- A variable is restored, whatever its type. -/
@[simp] theorem Variable.restored (v : Variable) (b : Nat) :
    Variable.decoder.Restores b v.toJson v := by
  refine .record rfl (by simp) fun c _ fits => ?_
  simp only [depthFields_cons, Nat.max_le] at fits
  simp [fits]

@[simp] theorem Variable.restored_list (vs : List Variable) (b : Nat) :
    (Decoder.list Variable.decoder).Restores b (.list Variable.toJson vs) vs :=
  .list fun c _ v _ => v.restored c

/-- A resolved assignment is restored with its target and its value. -/
theorem Assigned.restored {a : Assigned} (target : AllFinite a.target.literals)
    (value : AllFinite a.value.literals) (b : Nat) : Assigned.decoder.Restores b a.toJson a := by
  refine .record rfl (by simp) fun c _ fits => ?_
  simp only [depthFields_cons, Nat.max_le] at fits
  simp [fits, Expr.restored target c, Expr.restored value c]

/-- An assignment is decoded with its resolved copy. -/
theorem Update.restored {u : Update} (finite : AllFinite u.literals) (b : Nat) :
    Update.decoder.Restores b u.toJson u := by
  obtain ⟨targets, rest⟩ := List.forall_mem_append.1 finite
  obtain ⟨values, copies⟩ := List.forall_mem_append.1 rest
  refine .record rfl (by simp) fun c _ fits => ?_
  have resolved : (Decoder.list Assigned.decoder).Restores c (.list Assigned.toJson u.resolved)
      u.resolved := by
    refine .list fun c' _ a ha => ?_
    obtain ⟨target, value⟩ := List.forall_mem_append.1 (List.forall_mem_flatMap.1 copies a ha)
    exact Assigned.restored target value c'
  simp only [depthFields_cons, Nat.max_le] at fits
  simp [fits, Expr.restored_list targets c, Expr.restored_list values c, resolved]

/-- A declaration is restored with its initializer, the resolved copy included. -/
theorem VarDecl.restored {d : VarDecl} (finite : AllFinite d.literals) (b : Nat) :
    VarDecl.decoder.Restores b d.toJson d := by
  refine .record rfl (by simp) fun c _ fits => ?_
  have init : (Decoder.opt Update.decoder).Restores c (.opt Update.toJson d.init) d.init := by
    refine .opt (fun u => by rintro ⟨⟩) fun u hu => ?_
    exact Update.restored (List.forall_mem_flatMap.1 finite u (Option.mem_toList.2 hu)) c
  simp only [depthFields_cons, Nat.max_le] at fits
  simp [fits, init]

/-- The file form of a statement is never `null`, so it is not taken for a missing `else`. -/
theorem Stmt.reread_ne_null (s : Stmt) : s.toJson.reread ≠ .null := by
  obtain ⟨kind, span, ghost⟩ := s
  rintro ⟨⟩

mutual
/-- A statement is restored by a reader that is allowed more depth than the text has. -/
theorem Stmt.restored_upTo : (s : Stmt) → AllFinite s.literals → {fuel b : Nat} → b < fuel →
    (Stmt.decoderUpTo fuel).Restores b s.toJson s
  | _, _, 0, _, below => absurd below (Nat.not_lt_zero _)
  | ⟨kind, span, ghost⟩, finite, fuel + 1, b, below => by
    intro fits
    rw [Stmt.decoderUpTo]
    refine Decoder.Restores.record rfl (by simp) (fun c less fits => ?_) fits
    simp only [depthFields_cons, Nat.max_le] at fits
    simp [fits, kind.restored_upTo finite (show c < fuel by omega)]

/-- Each shape of statement has a tag of its own and its parts as fields. -/
theorem StmtKind.restored_upTo : (k : StmtKind) → AllFinite k.literals → {fuel b : Nat} →
    b < fuel → (StmtKind.decoderUpTo fuel).Restores b k.toJson k
  | _, _, 0, _, below => absurd below (Nat.not_lt_zero _)
  | .varDecl d, finite, _ + 1, _, _ => .tagged fun c _ fits => by
    simp [StmtKind.decoderUpTo, tagged, Decoder.variant, VarDecl.restored finite c fits]
  | .update u, finite, _ + 1, _, _ => .tagged fun c _ fits => by
    simp [StmtKind.decoderUpTo, tagged, Decoder.variant, Update.restored finite c fits]
  | .expr e, finite, _ + 1, _, _ => .tagged fun c _ fits => by
    simp [StmtKind.decoderUpTo, tagged, Decoder.variant, Expr.restored finite c fits]
  | .ret values, finite, fuel + 1, b, below => .tagged fun c less fits => by
    simp only [StmtKind.decoderUpTo, tagged, Decoder.variant]
    refine Decoder.Restores.record rfl (by simp) (fun c' less' fits => ?_) fits
    simp only [depthFields_cons, Nat.max_le] at fits
    simp [fits, Expr.restored_list finite c']
  | .ifElse guard thenBranch elseBranch, finite, fuel + 1, b, below => .tagged fun c less fits => by
    obtain ⟨cond, branches⟩ := List.forall_mem_append.1 finite
    obtain ⟨yes, no⟩ := List.forall_mem_append.1 branches
    simp only [StmtKind.decoderUpTo, tagged, Decoder.variant]
    refine Decoder.Restores.record rfl (by simp) (fun c' less' fits => ?_) fits
    simp only [depthFields_cons, Nat.max_le] at fits
    have inner : c' < fuel := by omega
    simp [fits, Expr.restored_opt cond c', thenBranch.restored_upTo yes inner,
      Stmt.restored_optUpTo elseBranch no inner]
  | .whileLoop guard invariants decreases body, finite, fuel + 1, b, below =>
    .tagged fun c less fits => by
    obtain ⟨cond, rest⟩ := List.forall_mem_append.1 finite
    obtain ⟨kept, rest⟩ := List.forall_mem_append.1 rest
    obtain ⟨measures, inside⟩ := List.forall_mem_append.1 rest
    simp only [StmtKind.decoderUpTo, tagged, Decoder.variant]
    refine Decoder.Restores.record rfl (by simp) (fun c' less' fits => ?_) fits
    simp only [depthFields_cons, Nat.max_le] at fits
    have inner : c' < fuel := by omega
    simp [fits, Expr.restored_opt cond c', Expr.restored_list kept c',
      Expr.restored_list measures c', body.restored_upTo inside inner]
  | .forLoop index start stop ascending invariants body, finite, fuel + 1, b, below =>
    .tagged fun c less fits => by
    obtain ⟨first, rest⟩ := List.forall_mem_append.1 finite
    obtain ⟨last, rest⟩ := List.forall_mem_append.1 rest
    obtain ⟨kept, inside⟩ := List.forall_mem_append.1 rest
    simp only [StmtKind.decoderUpTo, tagged, Decoder.variant]
    refine Decoder.Restores.record rfl (by simp) (fun c' less' fits => ?_) fits
    simp only [depthFields_cons, Nat.max_le] at fits
    have inner : c' < fuel := by omega
    simp [fits, Expr.restored first c', Expr.restored_opt last c', Expr.restored_list kept c',
      body.restored_upTo inside inner]
  | .breakLoop, _, _ + 1, _, _ => fun _ => by
    simp [StmtKind.toJson, Json.reread, StmtKind.decoderUpTo, Decoder.variant]
  | .continueLoop, _, _ + 1, _, _ => fun _ => by
    simp [StmtKind.toJson, Json.reread, StmtKind.decoderUpTo, Decoder.variant]
  | .block body, finite, fuel + 1, b, below => .tagged fun c less fits => by
    have part := body.restored_upTo finite (show c < fuel by omega) fits
    simp [StmtKind.decoderUpTo, tagged, Decoder.variant, part]
  | .matchOn source cases, finite, fuel + 1, b, below => .tagged fun c less fits => by
    obtain ⟨subject, arms⟩ := List.forall_mem_append.1 finite
    simp only [StmtKind.decoderUpTo, tagged, Decoder.variant]
    refine Decoder.Restores.record rfl (by simp) (fun c' less' fits => ?_) fits
    simp only [depthFields_cons, Nat.max_le] at fits
    have inner : c' ≤ fuel := by omega
    simp [fits, Expr.restored subject c', MatchCase.restored_listUpTo cases arms inner]
  | .assert e, finite, _ + 1, _, _ => .tagged fun c _ fits => by
    simp [StmtKind.decoderUpTo, tagged, Decoder.variant, Expr.restored finite c fits]
  | .assume e, finite, _ + 1, _, _ => .tagged fun c _ fits => by
    simp [StmtKind.decoderUpTo, tagged, Decoder.variant, Expr.restored finite c fits]
  | .print args, finite, _ + 1, _, _ => .tagged fun c _ fits => by
    simp [StmtKind.decoderUpTo, tagged, Decoder.variant, Expr.restored_list finite c fits]

/-- A block is restored with the span of its braces. -/
theorem Block.restored_upTo : (b : Block) → AllFinite b.literals → {fuel c : Nat} → c < fuel →
    (Block.decoderUpTo fuel).Restores c b.toJson b
  | _, _, 0, _, below => absurd below (Nat.not_lt_zero _)
  | ⟨stmts, span⟩, finite, fuel + 1, b, below => by
    intro fits
    rw [Block.decoderUpTo]
    refine Decoder.Restores.record rfl (by simp) (fun c less fits => ?_) fits
    simp only [depthFields_cons, Nat.max_le] at fits
    simp [fits, Stmt.restored_listUpTo stmts finite (show c ≤ fuel by omega)]

/-- The elements of a statement list are restored in order. -/
theorem Stmt.restored_listUpTo : (ss : List Stmt) → AllFinite (Stmt.literalsList ss) →
    {fuel b : Nat} → b ≤ fuel →
    (Decoder.list (Stmt.decoderUpTo fuel)).Restores b (.arr (Stmt.toJsonList ss)) ss
  | [], _, _, _, _ => .nil
  | s :: ss, finite, _, _, below =>
    have parts := List.forall_mem_append.1 finite
    .cons (fun _ less => s.restored_upTo parts.1 (Nat.lt_of_lt_of_le less below))
      (Stmt.restored_listUpTo ss parts.2 below)

theorem Stmt.restored_optUpTo : (s : Option Stmt) → AllFinite (Stmt.literalsOpt s) →
    {fuel b : Nat} → b < fuel →
    (Decoder.opt (Stmt.decoderUpTo fuel)).Restores b (Stmt.toJsonOpt s) s
  | none, _, _, _, _ => .missing
  | some s, finite, _, _, below => .present s.reread_ne_null (s.restored_upTo finite below)

/-- The cases of a `match` are restored in order, patterns included. -/
theorem MatchCase.restored_listUpTo : (cases : List MatchCase) →
    AllFinite (MatchCase.literalsList cases) → {fuel b : Nat} → b ≤ fuel →
    (Decoder.list (MatchCase.decoderUpTo fuel)).Restores b (.arr (MatchCase.toJsonList cases))
      cases
  | [], _, _, _, _ => .nil
  | ⟨pattern, body, span⟩ :: cases, finite, fuel, b, below => by
    obtain ⟨shape, rest⟩ := List.forall_mem_append.1 finite
    obtain ⟨inside, others⟩ := List.forall_mem_append.1 rest
    refine .cons (fun c less => ?_) (MatchCase.restored_listUpTo cases others below)
    obtain ⟨fuel, rfl⟩ : ∃ k, fuel = k + 1 := ⟨fuel - 1, by omega⟩
    intro fits
    rw [MatchCase.decoderUpTo]
    refine Decoder.Restores.record rfl (by simp) (fun c' less' fits => ?_) fits
    simp only [depthFields_cons, Nat.max_le] at fits
    have inner : c' ≤ fuel := by omega
    simp [fits, Pattern.restored shape c', Stmt.restored_listUpTo body inside inner]
end

/-- A block without unreadable reals is restored. -/
theorem Block.restored {b : Block} (finite : AllFinite b.literals) (c : Nat) :
    Block.decoder.Restores c b.toJson b :=
  b.restored_upTo finite (Nat.lt_succ_self c)

/-! ### Declarations -/

/-- The clauses of a contract are decoded from lists of their own. -/
theorem Contract.restored {k : Contract} (finite : AllFinite k.literals) (b : Nat) :
    ∀ es ∈ k.clauses, (Decoder.list Expr.decoder).Restores b (.list Expr.toJson es) es := by
  intro es clause
  rw [Expr.list_toJson]
  exact Expr.restored_list (List.forall_mem_flatMap.1 finite es clause) b

/-- A method is restored with its contract, and without a body when it has none. -/
theorem Method.restored {m : Method} (finite : AllFinite (Member.method m).literals) (b : Nat) :
    Method.decoder.Restores b m.toJson m := by
  obtain ⟨contract, inside⟩ := List.forall_mem_append.1 finite
  refine .record rfl (by simp) fun c _ fits => ?_
  have body : (Decoder.opt Block.decoder).Restores c (.opt Block.toJson m.body) m.body := by
    refine .opt (fun body => by cases body; rintro ⟨⟩) fun body found => ?_
    exact Block.restored (List.forall_mem_flatMap.1 inside body (Option.mem_toList.2 found)) c
  simp only [depthFields_cons, Nat.max_le] at fits
  have clauses := Contract.restored contract c
  simp only [Contract.clauses, List.forall_mem_cons] at clauses
  simp [fits, Contract.fromFields, clauses, body]

/-- So is a function. -/
theorem Function.restored {f : Function} (finite : AllFinite (Member.function f).literals)
    (b : Nat) : Function.decoder.Restores b f.toJson f := by
  obtain ⟨contract, inside⟩ := List.forall_mem_append.1 finite
  refine .record rfl (by simp) fun c _ fits => ?_
  have body : (Decoder.opt Expr.decoder).Restores c (.opt Expr.toJson f.body) f.body := by
    refine .opt Expr.reread_ne_null fun body found => ?_
    rw [Option.mem_def.1 found] at inside
    exact Expr.restored inside c
  simp only [depthFields_cons, Nat.max_le] at fits
  have clauses := Contract.restored contract c
  simp only [Contract.clauses, List.forall_mem_cons] at clauses
  simp [fits, Contract.fromFields, clauses, body]

/-- A member is restored as what it is: field, method or function. -/
theorem Member.restored {m : Member} (finite : AllFinite m.literals) (b : Nat) :
    Member.decoder.Restores b m.toJson m := by
  cases m with
  | field f =>
    refine .tagged fun c _ fits => ?_
    simp [Member.decoder, tagged, Decoder.variant, fits]
  | method m =>
    refine .tagged fun c _ fits => ?_
    simp [Member.decoder, tagged, Decoder.variant, Method.restored finite c fits]
  | function f =>
    refine .tagged fun c _ fits => ?_
    simp [Member.decoder, tagged, Decoder.variant, Function.restored finite c fits]

theorem Member.restored_list {ms : List Member} (finite : AllFinite (ms.flatMap Member.literals))
    (b : Nat) : (Decoder.list Member.decoder).Restores b (.list Member.toJson ms) ms :=
  .list fun c _ m hm => Member.restored (List.forall_mem_flatMap.1 finite m hm) c

/-- A class is restored with all its members. -/
theorem Class.restored {d : Class} (finite : AllFinite (Decl.class d).literals) (b : Nat) :
    Class.decoder.Restores b d.toJson d := by
  have members := Member.restored_list finite
  refine .record rfl (by simp) fun c _ fits => ?_
  simp only [depthFields_cons, Nat.max_le] at fits
  simp [fits, members]

/-- A constructor is restored with its parameters. -/
theorem Ctor.restored (d : Ctor) (b : Nat) : Ctor.decoder.Restores b d.toJson d := by
  refine .record rfl (by simp) fun c _ fits => ?_
  simp only [depthFields_cons, Nat.max_le] at fits
  simp [fits]

/-- A datatype is restored with its constructors and its members. -/
theorem Datatype.restored {d : Datatype} (finite : AllFinite (Decl.datatype d).literals)
    (b : Nat) : Datatype.decoder.Restores b d.toJson d := by
  have members := Member.restored_list finite
  refine .record rfl (by simp) fun c _ fits => ?_
  have ctors : (Decoder.list Ctor.decoder).Restores c (.list Ctor.toJson d.ctors) d.ctors :=
    .list fun c' _ k _ => k.restored c'
  simp only [depthFields_cons, Nat.max_le] at fits
  simp [fits, ctors, members]

/-- A declaration is restored as what it is: class or datatype. -/
theorem Decl.restored {d : Decl} (finite : AllFinite d.literals) (b : Nat) :
    Decl.decoder.Restores b d.toJson d := by
  cases d with
  | «class» d =>
    refine .tagged fun c _ fits => ?_
    simp [Decl.decoder, tagged, Decoder.variant, Class.restored finite c fits]
  | datatype d =>
    refine .tagged fun c _ fits => ?_
    simp [Decl.decoder, tagged, Decoder.variant, Datatype.restored finite c fits]

/-- A module without unreadable reals is restored from its file form. -/
theorem Module.restored {m : Module} (finite : AllFinite m.literals) (b : Nat) :
    Module.decoder.Restores b m.toJson m := by
  refine .record rfl (by simp) fun c _ fits => ?_
  have decls : (Decoder.list Decl.decoder).Restores c (.list Decl.toJson m.decls) m.decls :=
    .list fun c' _ d hd => Decl.restored (List.forall_mem_flatMap.1 finite d hd) c'
  simp only [depthFields_cons, Nat.max_le] at fits
  simp [fits, decls]

/-- The file that a module is written to is loaded as the same module: every part of it, the
spans with their anchors and the copies in chains and assignments included. -/
theorem Module.load_pretty {m : Module} (finite : AllFinite m.literals)
    (nested : m.toJson.depth ≤ Decoder.nestingLimit) (path : String) :
    Module.load path (.ok m.toJson.pretty) = .ok m := by
  have read : Module.ofText? m.toJson.pretty = some m := by
    rw [Module.ofText?, Json.read?_pretty m.legible, Option.bind_some]
    exact Module.restored finite Decoder.nestingLimit nested
  simp only [Module.load, read]

/-- A method that assigns the real number nearest to a tenth. The resolved copy has the smallest
positive number instead, and the anchor of the assignment lies outside its range. -/
def Module.copied : Module :=
  ⟨"m", [.class
    { name := "C"
      span := .range 0 20
      members := [.method
        { name := "f"
          params := []
          span := .range 1 19
          body := some ⟨[⟨.update
            { targets := [⟨.name "x", .token 5, .real⟩]
              values := [⟨.literal (.real ⟨0x3FB999999999999A⟩), .token 7, .real⟩]
              resolved := [⟨⟨.name "x", .token 5, .real⟩,
                ⟨.literal (.real ⟨1⟩), .token 7, .real⟩⟩] }, ⟨4, 8, 30⟩, false⟩],
            .range 3 18⟩ }] }]⟩

/-- The method is loaded with the copy and the anchor it was written with. -/
theorem Module.copied_load :
    AllFinite copied.literals ∧ copied.toJson.depth ≤ Decoder.nestingLimit ∧
      Module.load "tree.json" (.ok copied.toJson.pretty) = .ok copied := by
  have finite : AllFinite copied.literals := List.all_eq_true.1 rfl
  have nested : copied.toJson.depth ≤ Decoder.nestingLimit := by decide
  exact ⟨finite, nested, Module.load_pretty finite nested "tree.json"⟩

end Mutation
