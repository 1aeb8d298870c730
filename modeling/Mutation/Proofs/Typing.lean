import Mathlib.Data.List.Forall2
import Mutation.Proofs.Coherence
import Mutation.Proofs.FirstSlot
import Mutation.Proofs.LiteralValues

/-!
# Types stay

An operator on expressions leaves an expression of the same type in the place, or one of type `int`
or `nat` where the other was (`Operator.onExpr_ty`): most keep the type as it is written, and those
that put a part in the place of the whole ask whether its type fits.
-/

namespace Mutation

/-- The types are equal, or one is `int` and the other is `nat`. -/
def Ty.Near (a b : Ty) : Prop := a = b ∨ a = .int ∧ b = .nat ∨ a = .nat ∧ b = .int

/-- A type that fits another is near it. -/
theorem Ty.near_of_fits {a b : Ty} (h : a.fits b = true) : a.Near b := by
  unfold fits at h
  split at h
  · cases h
  · cases h
  · exact .inl rfl
  · exact .inr (.inl ⟨rfl, rfl⟩)
  · exact .inr (.inr ⟨rfl, rfl⟩)
  · exact .inl rfl
  · exact .inl (of_decide_eq_true h)

namespace Expr

variable {e e' : Expr}

theorem ty_setOperator {new : BinaryOp} (h : e.setOperator new = .done e') : e'.ty = e.ty := by
  obtain ⟨kind, span, ty⟩ := e
  cases kind with
  | binary old l r =>
    obtain ⟨-, rfl⟩ := Outcome.if_done_iff.1 h
    rfl
  | _ => cases h

theorem ty_setBool {value : Bool} (h : e.setBool value = .done e') : e'.ty = e.ty := by
  obtain ⟨kind, span, ty⟩ := e
  cases kind with
  | binary old l r =>
    obtain ⟨bool, rfl⟩ := Outcome.if_done_iff.1 h
    exact bool.symm
  | _ => cases h

/-- An operand that is kept has a type near that of the whole. -/
theorem ty_keepOperand {side : Side} (h : e.keepOperand side = .done e') : e'.ty.Near e.ty := by
  obtain ⟨kind, span, ty⟩ := e
  cases kind with
  | binary op l r =>
    obtain ⟨fits, rfl⟩ := Outcome.if_done_iff.1 h
    exact Ty.near_of_fits fits
  | _ => cases h

/-- A negation has the type of what it negates. -/
theorem ty_insertNegation {op : UnaryOp} (h : e.insertNegation op = .done e') : e'.ty = e.ty := by
  obtain ⟨kind, span, ty⟩ := e
  cases kind with
  | name n =>
    obtain ⟨-, rfl⟩ := Outcome.if_done_iff.1 h
    rfl
  | _ => cases h

/-- What stood under a negation has a type near that of the negation. -/
theorem ty_deleteNegation (h : e.deleteNegation = .done e') : e'.ty.Near e.ty := by
  obtain ⟨kind, span, ty⟩ := e
  cases kind with
  | unary op x =>
    obtain ⟨fits, rfl⟩ := Outcome.if_done_iff.1 h
    exact Ty.near_of_fits fits
  | _ => cases h

/-- A literal stays a literal of its kind. -/
theorem setLiteral_done {text : String} (h : e.setLiteral text = .done e') :
    ∃ old new, e.kind = .literal old ∧ e' = { e with kind := .literal new } ∧
      new.kind = old.kind := by
  obtain ⟨kind, span, ty⟩ := e
  cases kind with
  | literal old =>
    simp only [setLiteral] at h
    split at h
    · cases h
    · rename_i new read
      obtain ⟨-, h⟩ := Outcome.if_refused_iff.1 h
      cases h
      exact ⟨old, new, rfl, rfl, Literal.kind_of_readAs read⟩
  | _ => cases h

/-- A value that is read gives way to a literal of the kind of the default of its type. -/
theorem setDefault_done {text : String} (h : e.setDefault text = .done e') :
    ∃ default value, e.ty.default? = some default ∧ e' = { e with kind := .literal value } ∧
      value.kind = default.kind := by
  unfold setDefault at h
  split at h
  · split at h
    · cases h
    · rename_i default given
      split at h
      · cases h
      · rename_i value read
        cases h
        exact ⟨default, value, given, rfl, Literal.kind_of_readAs read⟩
  · cases h

/-- The new name stands under the type of the old one. -/
theorem ty_setVariable {name : String} (h : e.setVariable name = .done e') : e'.ty = e.ty := by
  obtain ⟨kind, span, ty⟩ := e
  cases kind with
  | name old =>
    obtain ⟨-, h⟩ := Outcome.if_refused_iff.1 h
    cases h
    rfl
  | _ => cases h

theorem ty_setInit {form : InitForm} (h : e.setInit form = .done e') : e'.ty = e.ty := by
  unfold setInit at h
  split at h
  · cases h
    rfl
  · split at h <;> cases h
    rfl
  · split at h
    · obtain ⟨-, rfl⟩ := Outcome.if_done_iff.1 h
      rfl
    · cases h
  · split at h <;> cases h
    rfl
  · cases h
  · cases h
  · cases h

/-- A field read through `this` stands under the type of the name. -/
theorem ty_insertThis {enclosing : Option String} {field : String}
    (h : e.insertThis enclosing field = .done e') : e'.ty = e.ty := by
  obtain ⟨kind, span, ty⟩ := e
  cases kind with
  | name n =>
    obtain ⟨-, h⟩ := Outcome.if_refused_iff.1 h
    split at h <;> cases h
    rfl
  | _ => cases h

theorem ty_deleteThis {field : String} (h : e.deleteThis field = .done e') : e'.ty = e.ty := by
  obtain ⟨kind, span, ty⟩ := e
  cases kind with
  | member r f =>
    simp only [deleteThis] at h
    split at h
    · obtain ⟨-, rfl⟩ := Outcome.if_done_iff.1 h
      rfl
    · cases h
  | _ => cases h

/-- The new field stands under the type of the old one. -/
theorem ty_setField {declarations : Declarations} {field : String}
    (h : e.setField declarations field = .done e') : e'.ty = e.ty := by
  obtain ⟨kind, span, ty⟩ := e
  cases kind with
  | member r old =>
    obtain ⟨-, h⟩ := Outcome.if_refused_iff.1 h
    split at h
    · obtain ⟨-, rfl⟩ := Outcome.if_done_iff.1 h
      rfl
    · cases h
  | _ => cases h

theorem ty_setComponent {index : UInt64} (h : e.setComponent index = .done e') : e'.ty = e.ty := by
  obtain ⟨kind, span, ty⟩ := e
  cases kind with
  | tupleIndex t old =>
    simp only [setComponent] at h
    split at h
    · split at h
      · obtain ⟨-, rfl⟩ := Outcome.if_done_iff.1 h
        rfl
      · cases h
    · cases h
  | _ => cases h

theorem ty_setCtor {declarations : Declarations} {ctor : String}
    (h : e.setCtor declarations ctor = .done e') : e'.ty = e.ty := by
  obtain ⟨kind, span, ty⟩ := e
  cases kind with
  | ctor datatype old args =>
    obtain ⟨-, h⟩ := Outcome.if_refused_iff.1 h
    obtain ⟨-, rfl⟩ := Outcome.if_done_iff.1 h
    rfl
  | _ => cases h

/-- An argument that is kept has a type near that of the whole. -/
theorem ty_keepArgument {index : Nat} (h : e.keepArgument index = .done e') :
    e'.ty.Near e.ty := by
  obtain ⟨kind, span, ty⟩ := e
  cases kind with
  | call r method args =>
    simp only [keepArgument] at h
    split at h
    · cases h
    · obtain ⟨fits, rfl⟩ := Outcome.if_done_iff.1 h
      exact Ty.near_of_fits fits
  | _ => cases h

/-- So has a receiver. -/
theorem ty_keepReceiver (h : e.keepReceiver = .done e') : e'.ty.Near e.ty := by
  obtain ⟨kind, span, ty⟩ := e
  cases kind with
  | call r method args =>
    cases r with
    | none => cases h
    | some r =>
      obtain ⟨fits, rfl⟩ := Outcome.if_done_iff.1 h
      exact Ty.near_of_fits fits
  | _ => cases h

theorem ty_setCallee {site : Site} {method : String} (h : e.setCallee site method = .done e') :
    e'.ty = e.ty := by
  obtain ⟨kind, span, ty⟩ := e
  cases kind with
  | call r old args =>
    obtain ⟨-, h⟩ := Outcome.if_refused_iff.1 h
    split at h
    · obtain ⟨-, rfl⟩ := Outcome.if_done_iff.1 h
      rfl
    · cases h
  | _ => cases h

theorem ty_swapArguments {i j : Nat} (h : e.swapArguments i j = .done e') : e'.ty = e.ty := by
  obtain ⟨kind, span, ty⟩ := e
  cases kind with
  | call r method args =>
    simp only [swapArguments] at h
    split at h
    · obtain ⟨-, rfl⟩ := Outcome.if_done_iff.1 h
      rfl
    · cases h
  | _ => cases h

end Expr

/-- What an operator puts in the place of an expression has its type, up to `int` and `nat`. -/
theorem Operator.onExpr_ty {op : Operator} {site : Site} {e e' : Expr}
    (h : op.onExpr site e = .done e') : e'.ty.Near e.ty := by
  unfold Operator.onExpr at h
  split at h
  · cases op with
    | setOperator _ => exact .inl (Expr.ty_setOperator h)
    | setBool _ => exact .inl (Expr.ty_setBool h)
    | keepOperand _ => exact Expr.ty_keepOperand h
    | insertNegation _ => exact .inl (Expr.ty_insertNegation h)
    | deleteNegation => exact Expr.ty_deleteNegation h
    | setLiteral _ =>
      obtain ⟨_, _, -, rfl, -⟩ := Expr.setLiteral_done h
      exact .inl rfl
    | setDefault _ =>
      obtain ⟨_, _, -, rfl, -⟩ := Expr.setDefault_done h
      exact .inl rfl
    | setVariable _ => exact .inl (Expr.ty_setVariable h)
    | setInit _ => exact .inl (Expr.ty_setInit h)
    | insertThis _ => exact .inl (Expr.ty_insertThis h)
    | deleteThis _ => exact .inl (Expr.ty_deleteThis h)
    | setField _ => exact .inl (Expr.ty_setField h)
    | setComponent _ => exact .inl (Expr.ty_setComponent h)
    | setCtor _ => exact .inl (Expr.ty_setCtor h)
    | keepArgument _ => exact Expr.ty_keepArgument h
    | keepReceiver => exact Expr.ty_keepReceiver h
    | setCallee _ => exact .inl (Expr.ty_setCallee h)
    | swapArguments _ _ => exact .inl (Expr.ty_swapArguments h)
    | _ => cases h
  · cases h

/-- A literal is replaced by a literal of its kind. -/
theorem Operator.onExpr_literal {op : Operator} {site : Site} {e e' : Expr}
    (kind : op.kind = .literalReplacement) (h : op.onExpr site e = .done e') :
    ∃ old new, e.kind = .literal old ∧ e'.kind = .literal new ∧ new.kind = old.kind := by
  cases op with
  | setLiteral text =>
    unfold Operator.onExpr at h
    split at h
    · obtain ⟨old, new, before, rfl, same⟩ := Expr.setLiteral_done h
      exact ⟨old, new, before, rfl, same⟩
    · cases h
  | _ => cases kind

/-- A default value is a literal of the kind that the type names. -/
theorem Operator.onExpr_default {op : Operator} {site : Site} {e e' : Expr}
    (kind : op.kind = .defaultValue) (h : op.onExpr site e = .done e') :
    ∃ default value, e.ty.default? = some default ∧ e'.kind = .literal value ∧
      value.kind = default.kind := by
  cases op with
  | setDefault text =>
    unfold Operator.onExpr at h
    split at h
    · obtain ⟨default, value, given, rfl, same⟩ := Expr.setDefault_done h
      exact ⟨default, value, given, rfl, same⟩
    · cases h
  | _ => cases kind

/-! ### All types in a tree -/

mutual
/-- The types in an expression in source order, with those in the copies of chains on demand. -/
def Expr.types (copies : Bool) : Expr → List Ty
  | ⟨kind, _, ty⟩ => ty :: kind.types copies

def ExprKind.types (copies : Bool) : ExprKind → List Ty
  | .literal _ | .name _ | .this => []
  | .binary _ l r => l.types copies ++ r.types copies
  | .unary _ x => x.types copies
  | .chain c => c.types copies
  | .member r _ => r.types copies
  | .tupleIndex t _ => t.types copies
  | .index s i => s.types copies ++ i.types copies
  | .call r _ args => Expr.typesOpt copies r ++ Expr.typesList copies args
  | .display _ es => Expr.typesList copies es
  | .mapDisplay entries => MapEntry.typesList copies entries
  | .arrayAlloc t dims init => t :: (Expr.typesList copies dims ++ Expr.typesOptList copies init)
  | .ctor _ _ args => Expr.typesList copies args
  | .ite c t f => c.types copies ++ (t.types copies ++ f.types copies)
  | .old x => x.types copies

/-- The types in the operands of a chain, and those in its conjunction on demand. -/
def Chain.types (copies : Bool) : Chain → List Ty
  | ⟨operands, _, resolved⟩ =>
    Expr.typesList copies operands ++ (if copies then Expr.typesOpt copies resolved else [])

def Expr.typesList (copies : Bool) : List Expr → List Ty
  | [] => []
  | e :: es => e.types copies ++ Expr.typesList copies es

def Expr.typesOpt (copies : Bool) : Option Expr → List Ty
  | none => []
  | some e => e.types copies

def Expr.typesOptList (copies : Bool) : Option (List Expr) → List Ty
  | none => []
  | some es => Expr.typesList copies es

def MapEntry.typesList (copies : Bool) : List MapEntry → List Ty
  | [] => []
  | ⟨key, value⟩ :: entries =>
    key.types copies ++ (value.types copies ++ MapEntry.typesList copies entries)
end

section

variable {w : Bool}

/-- The types of a list are those of its members, in order. -/
theorem Expr.typesList_eq (es : List Expr) : typesList w es = es.flatMap (types w) := by
  induction es with
  | nil => rfl
  | cons e es ih => rw [typesList, ih, List.flatMap_cons]

/-- The types of a display's entries are those of its keys and values. -/
theorem MapEntry.typesList_eq (entries : List MapEntry) :
    typesList w entries =
      (entries.flatMap fun entry => [entry.key, entry.value]).flatMap (Expr.types w) := by
  induction entries with
  | nil => rfl
  | cons entry entries ih =>
    obtain ⟨key, value⟩ := entry
    simp [typesList, ih]

/-- The type that a shape names itself. -/
def ExprKind.named : ExprKind → List Ty
  | .arrayAlloc t _ _ => [t]
  | _ => []

/-- The conjunction of a chain. -/
def ExprKind.copy : ExprKind → Option Expr
  | .chain c => c.resolved
  | _ => none

/-- The types in an expression are its own, those in its parts, and those in the conjunction if it is
a chain. -/
theorem Expr.types_eq (e : Expr) : e.types w = e.ty :: (e.kind.named ++
    (e.kind.parts.flatMap (types w) ++ if w then e.kind.copy.toList.flatMap (types w) else [])) := by
  obtain ⟨kind, span, ty⟩ := e
  cases kind with
  | chain c =>
    obtain ⟨operands, ops, resolved⟩ := c
    cases resolved <;>
      simp [types, ExprKind.types, Chain.types, ExprKind.named, ExprKind.parts, ExprKind.copy,
        Expr.typesList_eq, Expr.typesOpt]
  | call r method args =>
    cases r <;>
      simp [types, ExprKind.types, ExprKind.named, ExprKind.parts, ExprKind.copy,
        Expr.typesList_eq, Expr.typesOpt]
  | arrayAlloc t dims init =>
    cases init <;>
      simp [types, ExprKind.types, ExprKind.named, ExprKind.parts, ExprKind.copy,
        Expr.typesList_eq, Expr.typesOptList]
  | _ =>
    simp [types, ExprKind.types, ExprKind.named, ExprKind.parts, ExprKind.copy, Expr.typesList_eq,
      MapEntry.typesList_eq]

variable (w)

/-- The types in an assignment, and those in its copy on demand. -/
def Update.types (u : Update) : List Ty :=
  u.targets.flatMap (Expr.types w) ++ (u.values.flatMap (Expr.types w) ++
    if w then u.resolved.flatMap fun a => a.target.types w ++ a.value.types w else [])

/-- The types in a declaration of locals. -/
def VarDecl.types (d : VarDecl) : List Ty :=
  d.locals.map (·.ty) ++ d.init.toList.flatMap (Update.types w)

mutual
/-- The types in a statement, those in the copies of chains and assignments on demand. -/
def Stmt.types (copies : Bool) : Stmt → List Ty
  | ⟨kind, _, _⟩ => kind.types copies

def StmtKind.types (copies : Bool) : StmtKind → List Ty
  | .varDecl d => d.types copies
  | .update u => u.types copies
  | .expr e | .assert e | .assume e => e.types copies
  | .ret es | .print es => es.flatMap (Expr.types copies)
  | .ifElse guard thenBranch elseBranch =>
    guard.toList.flatMap (Expr.types copies) ++
      (thenBranch.types copies ++ Stmt.typesOpt copies elseBranch)
  | .whileLoop guard invariants decreases body =>
    guard.toList.flatMap (Expr.types copies) ++
      ((invariants ++ decreases).flatMap (Expr.types copies) ++ body.types copies)
  | .forLoop index start stop _ invariants body =>
    index.ty :: (start.types copies ++ (stop.toList.flatMap (Expr.types copies) ++
      (invariants.flatMap (Expr.types copies) ++ body.types copies)))
  | .breakLoop | .continueLoop => []
  | .block b => b.types copies
  | .matchOn source cases => source.types copies ++ MatchCase.typesList copies cases

def Block.types (copies : Bool) : Block → List Ty
  | ⟨list, _⟩ => Stmt.typesList copies list

def Stmt.typesList (copies : Bool) : List Stmt → List Ty
  | [] => []
  | s :: list => s.types copies ++ Stmt.typesList copies list

def Stmt.typesOpt (copies : Bool) : Option Stmt → List Ty
  | none => []
  | some s => s.types copies

def MatchCase.typesList (copies : Bool) : List MatchCase → List Ty
  | [] => []
  | ⟨pattern, body, _⟩ :: cases =>
    pattern.bindings.map (·.2) ++ (Stmt.typesList copies body ++ MatchCase.typesList copies cases)
end

/-- The types in a member. -/
def Member.types : Member → List Ty
  | .field f => [f.ty]
  | .method m =>
    (m.params ++ m.outs).map (·.ty) ++ (m.contract.clauses.flatten.flatMap (Expr.types w) ++
      m.body.toList.flatMap (Block.types w))
  | .function f =>
    f.params.map (·.ty) ++ f.result :: (f.contract.clauses.flatten.flatMap (Expr.types w) ++
      f.body.toList.flatMap (Expr.types w))

/-- The types in a declaration. -/
def Decl.types : Decl → List Ty
  | .class c => c.members.flatMap (Member.types w)
  | .datatype d =>
    (d.ctors.flatMap fun c => c.formals.map (·.ty)) ++ d.members.flatMap (Member.types w)

/-- The types in a module. -/
def Module.types (m : Module) : List Ty := m.decls.flatMap (Decl.types w)

/-- The types in a piece. -/
def Piece.types : Piece → List Ty
  | .expr e => e.types w
  | .stmt s => s.types w
  | .stmts list => Stmt.typesList w list
  | .member m => m.types w
  | .members list => list.flatMap (Member.types w)
  | .decl d => d.types w
  | .module m => m.types w

variable {w}

theorem Stmt.typesList_append (list list' : List Stmt) :
    typesList w (list ++ list') = typesList w list ++ typesList w list' := by
  induction list with
  | nil => rfl
  | cons s list ih => rw [List.cons_append, typesList, typesList, ih, List.append_assoc]

theorem MatchCase.typesList_append (cases cases' : List MatchCase) :
    typesList w (cases ++ cases') = typesList w cases ++ typesList w cases' := by
  induction cases with
  | nil => rfl
  | cons c cases ih =>
    obtain ⟨pattern, body, span⟩ := c
    simp only [List.cons_append, typesList, ih, List.append_assoc]

end

/-! ### What an edit does to the types -/

/-- A relation between types before and after that does not look at what stands around. Copies are
several places that change alike, and so the relation has to hold of them at once. -/
structure Retyping (copies : Bool) (R : List Ty → List Ty → Prop) : Prop where
  left {l l'} (front : List Ty) : R l l' → R (front ++ l) (front ++ l')
  right {l l'} (back : List Ty) : R l l' → R (l ++ back) (l' ++ back)
  append {l l' k k'} : copies = true → R l l' → R k k' → R (l ++ k) (l' ++ k')
  refl : copies = true → ∀ l, R l l

namespace Retyping

variable {w : Bool} {R : List Ty → List Ty → Prop}

/-- A member of a list that is retyped retypes the list. -/
theorem exchanged (hR : Retyping w R) {α : Type} (f : α → List Ty) {a a' : α}
    (h : R (f a) (f a')) (pre post : List α) :
    R ((pre ++ a :: post).flatMap f) ((pre ++ a' :: post).flatMap f) := by
  simp only [List.flatMap_append, List.flatMap_cons]
  exact hR.left _ (hR.right _ h)

/-- Lists retyped member by member are retyped as wholes. -/
theorem flatMap (hR : Retyping true R) {α : Type} {f : α → List Ty} {l l' : List α}
    (h : List.Forall₂ (fun a b => R (f a) (f b)) l l') : R (l.flatMap f) (l'.flatMap f) := by
  induction h with
  | nil => exact hR.refl rfl _
  | cons first _ ih =>
    rw [List.flatMap_cons, List.flatMap_cons]
    exact hR.append rfl first ih

/-- The types are related. -/
def Of (w : Bool) (R : List Ty → List Ty → Prop) (e e' : Expr) : Prop := R (e.types w) (e'.types w)

/-- A list is retyped as itself when none of its members changed. -/
theorem same (hR : Retyping true R) (es : List Expr) : List.Forall₂ (Of true R) es es :=
  List.forall₂_same.2 fun _ _ => hR.refl rfl _

/-- A list with one member retyped is retyped member by member. -/
theorem one (hR : Retyping true R) {e e' : Expr} (h : Of true R e e') (pre post : List Expr) :
    List.Forall₂ (Of true R) (pre ++ e :: post) (pre ++ e' :: post) :=
  List.rel_append (hR.same pre) (.cons h (hR.same post))

/-! #### Copies -/

/-- A comparison of retyped operands is retyped: its own type is the same. -/
theorem binary (hR : Retyping true R) {op : BinaryOp} {a a' b b' : Expr} {span span' : Span}
    {ty : Ty} (ha : Of true R a a') (hb : Of true R b b') :
    Of true R ⟨.binary op a b, span, ty⟩ ⟨.binary op a' b', span', ty⟩ := by
  simpa only [Of, Expr.types, ExprKind.types, List.singleton_append] using
    hR.left [ty] (hR.append rfl ha hb)

/-- The links of a chain are comparisons of neighbours, so each is retyped. -/
theorem links (hR : Retyping true R) {es es' : List Expr} (h : List.Forall₂ (Of true R) es es')
    (ops : List BinaryOp) : List.Forall₂ (Of true R) (Chain.links es ops) (Chain.links es' ops) := by
  induction h generalizing ops with
  | nil => exact .nil
  | cons first rest ih =>
    cases rest with
    | nil => exact .nil
    | cons second rest =>
      cases ops with
      | nil => exact .nil
      | cons op ops => exact .cons (hR.binary first second) (ih ops)

/-- The conjunction of retyped links is retyped. -/
theorem conjunction (hR : Retyping true R) {es es' : List Expr}
    (h : List.Forall₂ (Of true R) es es') :
    R ((Chain.conjunction es).toList.flatMap (Expr.types true))
      ((Chain.conjunction es').toList.flatMap (Expr.types true)) := by
  have fold {es es' : List Expr} (h : List.Forall₂ (Of true R) es es') :
      ∀ a a', Of true R a a' → Of true R (es.foldl Chain.conjoin a) (es'.foldl Chain.conjoin a') := by
    induction h with
    | nil => exact fun _ _ ha => ha
    | cons first _ ih => exact fun a a' ha => ih _ _ (hR.binary ha first)
  cases h with
  | nil => exact hR.refl rfl _
  | cons first rest => simpa [Chain.conjunction, Of] using fold rest _ _ first

/-- Targets and values retyped member by member are retyped as the pairs made of them. -/
theorem pairs (hR : Retyping true R) {targets targets' values values' : List Expr}
    (ht : List.Forall₂ (Of true R) targets targets') (hv : List.Forall₂ (Of true R) values values') :
    R ((List.zipWith Assigned.mk targets values).flatMap fun a =>
        a.target.types true ++ a.value.types true)
      ((List.zipWith Assigned.mk targets' values').flatMap fun a =>
        a.target.types true ++ a.value.types true) := by
  refine hR.flatMap ?_
  induction ht generalizing values values' with
  | nil => exact .nil
  | cons first _ ih =>
    cases hv with
    | nil => exact .nil
    | cons value rest => exact .cons (hR.append rfl first value) (ih rest)

/-- An assignment that was in step is retyped with its copy. -/
theorem update (hR : Retyping w R) {u : Update} {targets values : List Expr}
    (step : w = true → u.sync = u)
    (surface : R (u.targets.flatMap (Expr.types w) ++ u.values.flatMap (Expr.types w))
      (targets.flatMap (Expr.types w) ++ values.flatMap (Expr.types w)))
    (ht : w = true → List.Forall₂ (Of true R) u.targets targets)
    (hv : w = true → List.Forall₂ (Of true R) u.values values) :
    R (u.types w) ((Update.make targets values).types w) := by
  cases w with
  | false => simpa [Update.types, Update.make, Update.sync] using surface
  | true =>
    have parallel : u.isParallel = (Update.mk targets values []).isParallel := by
      rw [Update.isParallel, Update.isParallel, (ht rfl).length_eq, (hv rfl).length_eq]
    have copy : u.resolved =
        if u.isParallel then List.zipWith Assigned.mk u.targets u.values else [] :=
      congrArg Update.resolved (step rfl).symm
    have copies : R (u.resolved.flatMap fun a => a.target.types true ++ a.value.types true)
        ((Update.make targets values).resolved.flatMap fun a =>
          a.target.types true ++ a.value.types true) := by
      rw [copy, Update.make, Update.sync, ← parallel]
      split
      · exact hR.pairs (ht rfl) (hv rfl)
      · exact hR.refl rfl _
    have whole := hR.append rfl surface copies
    rwa [List.append_assoc, List.append_assoc] at whole

/-- A part of an expression is retyped in the expression, and in the conjunction if that is a chain
in step. -/
theorem part (hR : Retyping w R) {kind : ExprKind} {span : Span} {ty : Ty} {pre post : List Expr}
    {e e' : Expr} (parts : kind.parts = pre ++ e :: post)
    (step : w = true → Expr.Coherent ⟨kind, span, ty⟩) (h : Of w R e e') :
    Of w R ⟨kind, span, ty⟩ ⟨(kind.withParts (pre ++ e' :: post)).resync, span, ty⟩ := by
  have len : (pre ++ e' :: post).length = kind.parts.length := by simp [parts]
  have named : (kind.withParts (pre ++ e' :: post)).resync.named = kind.named := by
    cases kind <;> rfl
  have surface : R (kind.parts.flatMap (Expr.types w)) ((pre ++ e' :: post).flatMap (Expr.types w)) := by
    rw [parts]
    exact hR.exchanged _ h pre post
  rw [Of, Expr.types_eq, Expr.types_eq, ExprKind.parts_resync, ExprKind.parts_withParts len, named]
  refine hR.left [ty] (hR.left _ ?_)
  by_cases chain : ∃ c, kind = .chain c
  · obtain ⟨c, rfl⟩ := chain
    obtain ⟨operands, ops, resolved⟩ := c
    cases w with
    | false => exact hR.right [] surface
    | true =>
      have operands : operands = pre ++ e :: post := parts
      subst operands
      have inStep : resolved = Chain.conjunction (Chain.links (pre ++ e :: post) ops) := by
        cases step rfl with
        | mk _ step _ => exact congrArg Chain.resolved (step _ rfl).symm
      subst inStep
      exact hR.append rfl surface (hR.conjunction (hR.links (hR.one h _ _) ops))
  · have notChain := fun c hc => chain ⟨c, hc⟩
    have copy : kind.copy = none := by
      cases kind with
      | chain c => exact absurd rfl (notChain c)
      | _ => rfl
    have copy' : (kind.withParts (pre ++ e' :: post)).resync.copy = none := by
      cases kind with
      | chain c => exact absurd rfl (notChain c)
      | _ => rfl
    rw [copy, copy']
    exact hR.right _ surface

end Retyping

/-- A piece is retyped in the piece around it, and so in the copies there if those are in step. -/
theorem Carries.types {w : Bool} {R : List Ty → List Ty → Prop} (hR : Retyping w R)
    {spans : List Span} {c c' x x' : Piece} (hc : Carries spans c c' x x')
    (step : w = true → x.Meets .coherent) (h : R (c.types w) (c'.types w)) :
    R (x.types w) (x'.types w) := by
  cases hc with
  | part _ parts => exact hR.part parts step h
  | target _ =>
    exact hR.update (fun hw => (step hw).step) (hR.right _ (hR.exchanged (Expr.types w) h _ _))
      (fun hw => by subst hw; exact hR.one h _ _) fun hw => by subst hw; exact hR.same _
  | value =>
    exact hR.update (fun hw => (step hw).step) (hR.left _ (hR.exchanged (Expr.types w) h _ _))
      (fun hw => by subst hw; exact hR.same _) fun hw => by subst hw; exact hR.one h _ _
  | init =>
    refine hR.left _ (hR.right [] ?_)
    exact hR.update (fun hw => (step hw _ rfl).step) (hR.left _ (hR.exchanged (Expr.types w) h _ _))
      (fun hw => by subst hw; exact hR.same _) fun hw => by subst hw; exact hR.one h _ _
  | expr | assert | assume | block => exact h
  | ret | print => exact hR.exchanged (Expr.types w) h _ _
  | ifGuard | whileGuard => exact hR.right _ (hR.right [] h)
  | thenBranch => exact hR.left _ (hR.right _ h)
  | elseBranch => exact hR.left _ (hR.left _ h)
  | whileBody => exact hR.left _ (hR.left _ h)
  | forStart => exact hR.left [_] (hR.right _ h)
  | forStop => exact hR.left [_] (hR.left _ (hR.right _ (hR.right [] h)))
  | forBody => exact hR.left [_] (hR.left _ (hR.left _ (hR.left _ h)))
  | matchSource => exact hR.right _ h
  | caseBody =>
    simp only [Piece.types, Stmt.types, StmtKind.types, MatchCase.typesList_append]
    exact hR.left _ (hR.left _ (hR.left _ (hR.right _ h)))
  | element =>
    simp only [Piece.types, Stmt.typesList_append]
    exact hR.left _ (hR.right _ h)
  | methodBody body =>
    simp only [Piece.types, Member.types, body]
    exact hR.left _ (hR.left _ (hR.right [] h))
  | functionBody body =>
    simp only [Piece.types, Member.types, body]
    exact hR.left _ (hR.left [_] (hR.left _ (hR.right [] h)))
  | member => exact hR.exchanged (Member.types w) h _ _
  | «class» => exact h
  | datatype => exact hR.left _ h
  | decl => exact hR.exchanged (Decl.types w) h _ _

/-- An expression is retyped in the tree around it. -/
theorem Exchanged.types {w : Bool} {R : List Ty → List Ty → Prop} (hR : Retyping w R) {p : Place}
    {new : p.Content} {spans : List Span} {x x' : Piece} (h : Exchanged p new spans x x')
    {e e' : Expr} (place : p = .expr e) (content : HEq new e') (step : w = true → x.Meets .coherent)
    (here : R (e.types w) (e'.types w)) : R (x.types w) (x'.types w) := by
  induction h with
  | expr =>
    cases place
    cases content
    exact here
  | inside hc _ ih =>
    exact hc.types hR step
      (ih place content fun hw => Invariant.stable_coherent.inside hc (step hw))
  | _ => cases place

/-- Some runs of the types `old` have given way to the types `new`. -/
inductive Replaced (old new : List Ty) : List Ty → List Ty → Prop
  | nil : Replaced old new [] []
  | same (t : Ty) {l l' : List Ty} (h : Replaced old new l l') : Replaced old new (t :: l) (t :: l')
  | here {l l' : List Ty} (h : Replaced old new l l') : Replaced old new (old ++ l) (new ++ l')

namespace Replaced

variable {old new : List Ty}

theorem refl (l : List Ty) : Replaced old new l l := by
  induction l with
  | nil => exact .nil
  | cons t _ ih => exact .same t ih

theorem append {l l' k k' : List Ty} (h : Replaced old new l l') (hk : Replaced old new k k') :
    Replaced old new (l ++ k) (l' ++ k') := by
  induction h with
  | nil => exact hk
  | same t _ ih => exact .same t ih
  | here _ ih =>
    rw [List.append_assoc, List.append_assoc]
    exact .here ih

theorem once : Replaced old new old new := by
  have whole : Replaced old new (old ++ []) (new ++ []) := .here .nil
  rwa [List.append_nil, List.append_nil] at whole

/-- Putting one sequence of types for another, anywhere and any number of times, is a retyping. -/
theorem retyping : Retyping true (Replaced old new) where
  left front h := (refl front).append h
  right back h := h.append (refl back)
  append _ h hk := h.append hk
  refl _ l := refl l

end Replaced

/-- One run of the types `old` has given way to the types `new`. -/
def ReplacedOnce (old new l l' : List Ty) : Prop :=
  ∃ pre post, l = pre ++ (old ++ post) ∧ l' = pre ++ (new ++ post)

/-- So is putting it at one place, where copies are not counted. -/
theorem ReplacedOnce.retyping {old new : List Ty} : Retyping false (ReplacedOnce old new) where
  left := by
    rintro l l' front ⟨pre, post, rfl, rfl⟩
    exact ⟨front ++ pre, post, by simp, by simp⟩
  right := by
    rintro l l' back ⟨pre, post, rfl, rfl⟩
    exact ⟨pre, post ++ back, by simp, by simp⟩
  append := nofun
  refl := nofun

/-- An operator for expressions keeps the type at its place, up to `int` and `nat`; a literal that is
rewritten keeps its kind, and one that stands for a default is of the kind of the default. In a
module no other type changes: the types of the code as it is written are the same up to those in the
one expression, and in a module whose copies are in step the types in the copies are so too. -/
theorem Module.mutate_typed :
    (∀ kind argument op site e e', kind.level = .expr → Operator.make kind argument = .ok op →
      op.onExpr site e = .done e' →
        e'.ty.Near e.ty ∧
        (kind = .literalReplacement → ∃ old new, e.kind = .literal old ∧ e'.kind = .literal new ∧
          new.kind = old.kind) ∧
        (kind = .defaultValue → ∃ default value, e.ty.default? = some default ∧
          e'.kind = .literal value ∧ value.kind = default.kind)) ∧
    ∀ (m : Module) r limit x, r.kind.level = .expr → m.mutate r limit = .ok x →
      x.report.isApplied = true →
        ∃ op owner e e' spans, Operator.make r.kind r.argument = .ok op ∧
          op.onExpr ((m.site r limit).inside (some owner)) e = .done e' ∧
          Exchanged (.expr e) e' spans (.module m) (.module x.module) ∧
          ReplacedOnce (e.types false) (e'.types false) (m.types false) (x.module.types false) ∧
          (m.Coherent →
            Replaced (e.types true) (e'.types true) (m.types true) (x.module.types true)) := by
  refine ⟨?_, ?_⟩
  · intro kind argument op site e e' level made done
    have opKind := Operator.kind_of_make made
    exact ⟨Operator.onExpr_ty done, fun same => Operator.onExpr_literal (opKind.trans same) done,
      fun same => Operator.onExpr_default (opKind.trans same) done⟩
  · intro m r limit x level ok applied
    obtain ⟨op, owner, p, spans, made, -, new, span, done, exchanged⟩ := m.exists_edit ok applied
    have here : p.level = .expr := by
      rw [Operator.level_of_done done, Operator.kind_of_make made, level]
    cases p with
    | expr e =>
      obtain ⟨e', rewritten, same⟩ := Outcome.answer_eq_done_iff.1 done
      obtain ⟨rfl, -⟩ := Prod.mk.inj same
      refine ⟨op, owner, e, e', spans, made, rewritten, exchanged, ?_, fun coherent => ?_⟩
      · exact exchanged.types ReplacedOnce.retyping rfl .rfl nofun ⟨[], [], by simp, by simp⟩
      · exact exchanged.types Replaced.retyping rfl .rfl (fun _ => m.meets_coherent.2 coherent) .once
    | _ => cases here

/-- The sum of a natural number and an integer. -/
def Expr.mixed : Expr :=
  ⟨.binary .add ⟨.name "n", .token 1, .nat⟩ ⟨.name "i", .token 3, .int⟩, ⟨1, 3, 2⟩, .int⟩

/-- The natural number alone in the place of the sum, and another name in a chain, in the conjunction
and in the copies of both. -/
theorem Module.chained_mutate_typed :
    (∃ e', (Operator.keepOperand .left).onExpr ⟨.anchor 2, none, 64, {}⟩ .mixed = .done e' ∧
      e'.ty = .nat ∧ e'.ty.Near Expr.mixed.ty) ∧
    Module.chained.Coherent ∧
    ∃ x, Module.chained.mutate ⟨.anchor 8, .variableReplacement, some "d"⟩ 64 = .ok x ∧
      x.report.isApplied = true ∧
      ∃ e e' : Expr,
        ReplacedOnce (e.types false) (e'.types false) (Module.chained.types false)
          (x.module.types false) ∧
        Replaced (e.types true) (e'.types true) (Module.chained.types true)
          (x.module.types true) := by
  have dropped : (Operator.keepOperand .left).onExpr ⟨.anchor 2, none, 64, {}⟩ .mixed =
      .done ⟨.name "n", .token 1, .nat⟩ := by
    rfl
  have near := (Module.mutate_typed.1 .operandOnly (some "left") _ _ _ _ rfl (by rfl) dropped).1
  have given : (Module.chained.mutate ⟨.anchor 8, .variableReplacement, some "d"⟩ 64).map
      (fun x => x.report.isApplied) = .ok true := by
    rfl
  obtain ⟨x, ok, applied⟩ := exists_of_map_ok given
  obtain ⟨_, _, e, e', _, -, -, -, surface, copies⟩ := Module.mutate_typed.2 _ _ _ x rfl ok applied
  exact ⟨⟨_, dropped, rfl, near⟩, Module.coherent_chained, x, ok, applied, e, e', surface,
    copies Module.coherent_chained⟩

/-- A method with an assignment in whose copy the target has another type. -/
def Module.stale : Module :=
  ⟨"m", [.class
    { name := "C"
      span := .range 0 20
      members := [.method
        { name := "f"
          params := []
          span := .range 1 19
          body := some ⟨[⟨.update ⟨[⟨.name "x", .token 6, .int⟩], [⟨.name "a", .token 8, .int⟩],
            [⟨⟨.name "x", .token 6, .bool⟩, ⟨.name "a", .token 8, .int⟩⟩]⟩, .range 5 9, false⟩],
            .range 3 18⟩ }] }]⟩

/-- One name of type `int` gives way to another, and the type of the target in the copy changes from
`bool` to `int`, since the copy is made anew. -/
theorem Module.stale_mutate_retyped :
    (Operator.setVariable "b").onExpr ⟨.anchor 8, some "C", 64, Module.stale.declarations⟩
      ⟨.name "a", .token 8, .int⟩ = .done ⟨.name "b", .token 8, .int⟩ ∧
    ∃ x, Module.stale.mutate ⟨.anchor 8, .variableReplacement, some "b"⟩ 64 = .ok x ∧
      x.report.isApplied = true ∧
      Module.stale.types true = [.int, .int, .bool, .int] ∧
      x.module.types true = [.int, .int, .int, .int] := by
  have given : (Module.stale.mutate ⟨.anchor 8, .variableReplacement, some "b"⟩ 64).map
      (fun x => (x.report.isApplied, x.module.types true)) =
        .ok (true, [.int, .int, .int, .int]) := by
    rfl
  obtain ⟨x, ok, reported⟩ := exists_of_map_ok given
  obtain ⟨applied, after⟩ := Prod.mk.inj reported
  exact ⟨by rfl, x, ok, applied, by rfl, after⟩

end Mutation
