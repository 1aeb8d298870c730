import Mutation.Proofs.Agreement
import Mutation.Proofs.Apart
import Mutation.Proofs.Likeness

/-!
# What an operator leaves is not what was there

Each operator has its own reason why its edit cannot leave the node as it was. Most of them change
the shape of the node or what it is made of, or put a part in its place (`Expr.Altered`,
`Stmt.Altered`), and deletions leave fewer statements or locals. Those that move code about rely on
the ranges: what is exchanged stands at different places. New return values rely on the scan, which
proposes them only when one of them differs.
-/

namespace Mutation

/-- The expression is not like `e`: a part of `e`, or of another shape, with other data, or with
more or fewer parts. -/
def Expr.Altered (e e' : Expr) : Prop :=
  e' ∈ e.kind.parts ∨ ¬e.kind.Resembles e'.kind ∨ e.kind.parts.length ≠ e'.kind.parts.length

/-- The statement is not like `s`: with or without a condition, with more or fewer expressions, or
with more or fewer statements in it. -/
def Stmt.Altered (s t : Stmt) : Prop :=
  s.isIf ≠ t.isIf ∨ (s.kind.exprs .everything).length ≠ (t.kind.exprs .everything).length ∨
    s.weight ≠ t.weight

section

variable {R : Piece → Piece → Prop} (hR : Likeness R)

include hR

/-- No expression is like one of its parts, and one with another shape, other data or another number
of parts is not like it either. -/
theorem Expr.Altered.unlike {e e' : Expr} (h : e.Altered e') : ¬R (.expr e) (.expr e') := by
  intro same
  rcases h with part | data | count
  · exact Expr.not_alike_part hR e e' part same
  · exact data (hR.expr same).kind
  · exact count (hR.expr same).parts.length_eq

/-- Statements that are alike agree in all three counts. -/
theorem Stmt.Altered.unlike {s t : Stmt} (h : s.Altered t) : ¬R (.stmt s) (.stmt t) := by
  intro same
  rcases h with isIf | count | weight
  · exact isIf (hR.stmt same).isIf
  · exact count (hR.stmt same).exprs.length_eq
  · exact weight (Stmt.weight_alike hR same)

end

namespace Expr

variable {e e' : Expr}

/-- The new operator is one of the rivals of the old one, which is not among them. -/
theorem setOperator_altered {new : BinaryOp} (done : e.setOperator new = .done e') :
    e.Altered e' := by
  obtain ⟨kind, span, ty⟩ := e
  cases kind with
  | binary old l r =>
    obtain ⟨rival, rfl⟩ := Outcome.if_done_iff.1 done
    have other : new ≠ old := of_decide_eq_true (List.mem_filter.1 rival).2
    exact .inr (.inl fun same => other same.symm)
  | _ => cases done

theorem setBool_altered {value : Bool} (done : e.setBool value = .done e') : e.Altered e' := by
  obtain ⟨kind, span, ty⟩ := e
  cases kind with
  | binary old l r =>
    obtain ⟨-, rfl⟩ := Outcome.if_done_iff.1 done
    exact .inr (.inl nofun)
  | _ => cases done

/-- What is kept is a part. -/
theorem keepOperand_altered {side : Side} (done : e.keepOperand side = .done e') :
    e.Altered e' := by
  obtain ⟨kind, span, ty⟩ := e
  cases kind with
  | binary old l r =>
    obtain ⟨-, rfl⟩ := Outcome.if_done_iff.1 done
    refine .inl ?_
    cases side <;> simp [ExprKind.parts]
  | _ => cases done

/-- What was there is a part of the negation. -/
theorem insertNegation_altered {op : UnaryOp} (done : e.insertNegation op = .done e') :
    e.Altered e' := by
  obtain ⟨kind, span, ty⟩ := e
  cases kind with
  | name n =>
    obtain ⟨-, rfl⟩ := Outcome.if_done_iff.1 done
    exact .inr (.inl nofun)
  | _ => cases done

/-- What is kept stood under the negation. -/
theorem deleteNegation_altered (done : e.deleteNegation = .done e') : e.Altered e' := by
  obtain ⟨kind, span, ty⟩ := e
  cases kind with
  | unary op x =>
    obtain ⟨-, rfl⟩ := Outcome.if_done_iff.1 done
    exact .inl List.mem_cons_self
  | _ => cases done

/-- A new literal differs in its data; real literals apart, which are compared by value. -/
theorem setLiteral_altered {text : String} (real : ∀ x, e.kind ≠ .literal (.real x))
    (done : e.setLiteral text = .done e') : e.Altered e' := by
  obtain ⟨kind, span, ty⟩ := e
  cases kind with
  | literal old =>
    simp only [setLiteral] at done
    split at done
    · cases done
    · rename_i new read
      obtain ⟨other, done⟩ := Outcome.if_refused_iff.1 done
      cases done
      have plain : ∀ x, old ≠ .real x := fun x hx => real x (congrArg ExprKind.literal hx)
      have differ : old ≠ new := by
        rintro rfl
        exact other ((Literal.same_iff plain).2 rfl)
      exact .inr (.inl fun same => differ (same.elim (Literal.same_iff plain).1 id))
  | _ => cases done

/-- A default value is a literal, and it is refused where a literal stands. -/
theorem setDefault_altered {text : String} (done : e.setDefault text = .done e') :
    e.Altered e' := by
  simp only [setDefault] at done
  split at done
  · rename_i read
    split at done
    · cases done
    · split at done
      · cases done
      · cases done
        refine .inr (.inl fun same => ?_)
        obtain ⟨kind, span, ty⟩ := e
        cases kind with
        | literal l => cases read
        | _ => cases same
  · cases done

/-- The new name is another one. -/
theorem setVariable_altered {name : String} (done : e.setVariable name = .done e') :
    e.Altered e' := by
  obtain ⟨kind, span, ty⟩ := e
  cases kind with
  | name n =>
    obtain ⟨other, done⟩ := Outcome.if_refused_iff.1 done
    cases done
    exact .inr (.inl other)
  | _ => cases done

/-- Where there are samples of a type, there is at least one. -/
theorem ne_nil_of_samples {elemTy : Ty} {span : Span} {samples : List Expr}
    (given : sampleExprs? elemTy span = some samples) : samples ≠ [] := by
  obtain ⟨values, found, rfl⟩ := Option.map_eq_some_iff.1 given
  cases elemTy <;> cases found <;> simp

/-- A display becomes an empty one or an empty one gets elements; an array loses or gets its initial
elements. -/
theorem setInit_altered {form : InitForm} (done : e.setInit form = .done e') : e.Altered e' := by
  simp only [setInit] at done
  split at done
  · rename_i k first rest kind
    cases done
    exact .inr (.inr (by simp [kind, ExprKind.parts]))
  · rename_i k kind
    split at done
    case h_2 => cases done
    case h_1 samples found =>
      cases done
      obtain ⟨t, -, given⟩ := Option.bind_eq_some_iff.1 found
      have filled := List.length_pos_iff.2 (ne_nil_of_samples given)
      refine .inr (.inr ?_)
      rw [kind]
      exact Nat.ne_of_lt filled
  · rename_i t dims init kind
    split at done
    case h_2 => cases done
    case h_1 values =>
      obtain ⟨-, rfl⟩ := Outcome.if_done_iff.1 done
      exact .inr (.inl (by simp [kind, ExprKind.Resembles]))
  · rename_i t dim kind
    split at done
    case h_2 => cases done
    case h_1 =>
      cases done
      exact .inr (.inl (by simp [kind, ExprKind.Resembles]))
  all_goals cases done

/-- A name becomes a field. -/
theorem insertThis_altered {enclosing : Option String} {field : String}
    (done : e.insertThis enclosing field = .done e') : e.Altered e' := by
  obtain ⟨kind, span, ty⟩ := e
  cases kind with
  | name n =>
    obtain ⟨-, done⟩ := Outcome.if_refused_iff.1 done
    cases enclosing with
    | none => cases done
    | some c =>
      cases done
      exact .inr (.inl nofun)
  | _ => cases done

/-- A field becomes a name. -/
theorem deleteThis_altered {field : String} (done : e.deleteThis field = .done e') :
    e.Altered e' := by
  obtain ⟨kind, span, ty⟩ := e
  cases kind with
  | member r f =>
    simp only [deleteThis] at done
    split at done
    · obtain ⟨-, rfl⟩ := Outcome.if_done_iff.1 done
      exact .inr (.inl (by rintro ⟨⟩))
    · cases done
  | _ => cases done

/-- The new field is another one. -/
theorem setField_altered {declarations : Declarations} {field : String}
    (done : e.setField declarations field = .done e') : e.Altered e' := by
  obtain ⟨kind, span, ty⟩ := e
  cases kind with
  | member r old =>
    obtain ⟨other, done⟩ := Outcome.if_refused_iff.1 done
    split at done
    · obtain ⟨-, rfl⟩ := Outcome.if_done_iff.1 done
      exact .inr (.inl other)
    · cases done
  | _ => cases done

/-- The new component is another one. -/
theorem setComponent_altered {index : UInt64} (done : e.setComponent index = .done e') :
    e.Altered e' := by
  obtain ⟨kind, span, ty⟩ := e
  cases kind with
  | tupleIndex t old =>
    simp only [setComponent] at done
    split at done
    · split at done
      · obtain ⟨⟨other, -⟩, rfl⟩ := Outcome.if_done_iff.1 done
        exact .inr (.inl other)
      · cases done
    · cases done
  | _ => cases done

/-- The new constructor is another one. -/
theorem setCtor_altered {declarations : Declarations} {ctor : String}
    (done : e.setCtor declarations ctor = .done e') : e.Altered e' := by
  obtain ⟨kind, span, ty⟩ := e
  cases kind with
  | ctor datatype old args =>
    obtain ⟨other, done⟩ := Outcome.if_refused_iff.1 done
    obtain ⟨-, rfl⟩ := Outcome.if_done_iff.1 done
    exact .inr (.inl other)
  | _ => cases done

/-- What is kept is a part. -/
theorem keepArgument_altered {index : Nat} (done : e.keepArgument index = .done e') :
    e.Altered e' := by
  obtain ⟨kind, span, ty⟩ := e
  cases kind with
  | call r method args =>
    simp only [keepArgument] at done
    split at done
    case h_1 => cases done
    case h_2 arg found =>
      obtain ⟨-, rfl⟩ := Outcome.if_done_iff.1 done
      exact .inl (List.mem_append_right _ (List.mem_of_getElem? found))
  | _ => cases done

/-- What is kept is a part. -/
theorem keepReceiver_altered (done : e.keepReceiver = .done e') : e.Altered e' := by
  obtain ⟨kind, span, ty⟩ := e
  cases kind with
  | call r method args =>
    cases r with
    | none => cases done
    | some r =>
      obtain ⟨-, rfl⟩ := Outcome.if_done_iff.1 done
      exact .inl List.mem_cons_self
  | _ => cases done

/-- The new method is another one. -/
theorem setCallee_altered {site : Site} {method : String}
    (done : e.setCallee site method = .done e') : e.Altered e' := by
  obtain ⟨kind, span, ty⟩ := e
  cases kind with
  | call r old args =>
    obtain ⟨other, done⟩ := Outcome.if_refused_iff.1 done
    split at done
    · obtain ⟨-, rfl⟩ := Outcome.if_done_iff.1 done
      exact .inr (.inl fun same => other same.2)
    · cases done
  | _ => cases done

end Expr

/-- An operator on expressions alters the expression, except that a new real literal may be the old
one, and that two arguments may be alike. -/
theorem Operator.onExpr_altered {op : Operator} {site : Site} {e e' : Expr}
    (done : op.onExpr site e = .done e')
    (real : op.kind = .literalReplacement → ∀ x, e.kind ≠ .literal (.real x))
    (swap : op.kind ≠ .argumentSwap) : e.Altered e' := by
  unfold Operator.onExpr at done
  split at done
  · cases op with
    | setOperator _ => exact Expr.setOperator_altered done
    | setBool _ => exact Expr.setBool_altered done
    | keepOperand _ => exact Expr.keepOperand_altered done
    | insertNegation _ => exact Expr.insertNegation_altered done
    | deleteNegation => exact Expr.deleteNegation_altered done
    | setLiteral _ => exact Expr.setLiteral_altered (real rfl) done
    | setDefault _ => exact Expr.setDefault_altered done
    | setVariable _ => exact Expr.setVariable_altered done
    | setInit _ => exact Expr.setInit_altered done
    | insertThis _ => exact Expr.insertThis_altered done
    | deleteThis _ => exact Expr.deleteThis_altered done
    | setField _ => exact Expr.setField_altered done
    | setComponent _ => exact Expr.setComponent_altered done
    | setCtor _ => exact Expr.setCtor_altered done
    | keepArgument _ => exact Expr.keepArgument_altered done
    | keepReceiver => exact Expr.keepReceiver_altered done
    | setCallee _ => exact Expr.setCallee_altered done
    | swapArguments _ _ => exact absurd rfl swap
    | _ => cases done
  · cases done

theorem ExprKind.Resembles.shape_eq {kind kind' : ExprKind} (h : kind.Resembles kind') :
    kind.shape = kind'.shape := by
  unfold Resembles at h
  split at h <;> first | rfl | cases h

/-- Elements that stand at different indices are related in one direction or the other. -/
theorem pairwise_at {α : Type} {r : α → α → Prop} {l : List α} (h : l.Pairwise r) {i j : Nat}
    {a b : α} (ha : l[i]? = some a) (hb : l[j]? = some b) (other : i ≠ j) : r a b ∨ r b a := by
  obtain ⟨hi, rfl⟩ := List.getElem?_eq_some_iff.1 ha
  obtain ⟨hj, rfl⟩ := List.getElem?_eq_some_iff.1 hb
  rcases Nat.lt_or_gt_of_ne other with order | order
  · exact .inl (List.pairwise_iff_getElem.1 h i j hi hj order)
  · exact .inr (List.pairwise_iff_getElem.1 h j i hj hi order)

section

variable {R : Piece → Piece → Prop} (hR : Likeness R)

include hR

/-- Expressions that are alike are in conflict. -/
theorem Expr.Distinct.unlike {e f : Expr} (h : e.Distinct f ∨ f.Distinct e) :
    ¬R (.expr e) (.expr f) := by
  intro same
  have apart : e.Distinct f := h.elim id Expr.Distinct.symm
  have ranges := apart.range (hR.expr same).kind.shape_eq
  rw [(hR.expr same).span] at ranges
  cases ranges

/-- Two arguments of a call stand at different places. -/
theorem Expr.swapArguments_unlike {e e' : Expr} {i j : Nat}
    (apart : e.kind.parts.Pairwise Expr.Distinct) (other : i ≠ j)
    (done : e.swapArguments i j = .done e') : ¬R (.expr e) (.expr e') := by
  intro same
  obtain ⟨kind, span, ty⟩ := e
  cases kind with
  | call r method args =>
    simp only [swapArguments] at done
    split at done
    · rename_i a b ha hb
      obtain ⟨-, rfl⟩ := Outcome.if_done_iff.1 done
      have behind {es : List Expr} (k : Nat) :
          (r.toList ++ es)[r.toList.length + k]? = es[k]? := by
        rw [List.getElem?_append_right (Nat.le_add_right _ _), Nat.add_sub_cancel_left]
      have swapped : (swapAt args i j)[i]? = some b := by
        rw [swapAt, ha, hb]
        exact getElem?_exchange other ha
      have alike : R (.expr a) (.expr b) :=
        forall₂_at (r := fun a b => R (.expr a) (.expr b)) (hR.expr same).parts
          ((behind i).trans ha) ((behind i).trans swapped)
      refine Expr.Distinct.unlike hR ?_ alike
      exact pairwise_at apart ((behind i).trans ha) ((behind j).trans hb) (by omega)
    · cases done
  | _ => cases done

end

/-- A block in place of the statement that holds it leaves one element only when it is less than the
statement, or a block where none was. -/
theorem Block.inPlace_altered {b : Block} {s : Stmt}
    (held : (b.span, b.stmts) ∈ s.kind.lists ∨
      ∃ t ∈ s.elseBranch?, (b.span, b.stmts) ∈ t.kind.lists)
    (notBlock : ∀ span, s.Altered ⟨.block b, span, false⟩) {span : Span} {t : Stmt}
    (left : (b.inPlace span).edit.result s = [t]) : s.Altered t := by
  unfold Block.inPlace at left
  split at left
  · cases left
    exact notBlock span
  · have inside : t ∈ b.stmts := by
      change b.stmts = [t] at left
      rw [left]
      exact List.mem_singleton_self t
    refine .inr (.inr (Nat.ne_of_gt ?_))
    rcases held with held | ⟨u, hu, held⟩
    · exact Stmt.weight_lt_of_held held inside
    · exact Nat.lt_trans (Stmt.weight_lt_of_held held inside) (Stmt.weight_lt_of_branch hu)

namespace Stmt

variable {s : Stmt} {change : Change}

/-- A branch of an `if` in its place: no `if`, or fewer statements. -/
theorem asElement_altered {branch t : Stmt} (next : s.elseBranch? = some branch)
    (left : branch.asElement.edit.result s = [t]) : s.Altered t := by
  have isIf : s.isIf = true := by
    obtain ⟨kind, span, ghost⟩ := s
    cases kind <;> first | rfl | cases next
  obtain ⟨kind, span, ghost⟩ := branch
  unfold asElement at left
  split at left
  · rename_i b kindEq
    cases kindEq
    refine Block.inPlace_altered (.inr ⟨_, next, List.mem_cons_self⟩) (fun span => ?_) left
    exact .inl (by rw [isIf]; exact nofun)
  · cases left
    exact .inr (.inr (Nat.ne_of_gt (Stmt.weight_lt_of_branch next)))

/-- A branch in place of its `if` is a block, or one element that weighs less. -/
theorem keepBranch_altered {branch : Branch} (done : s.keepBranch branch = .done change) {t : Stmt}
    (left : change.edit.result s = [t]) : s.Altered t := by
  unfold keepBranch at done
  split at done
  · rename_i guard b next kind
    cases done
    refine Block.inPlace_altered (.inl ?_) (fun span => .inl ?_) left
    · rw [kind]
      exact List.mem_cons_self
    · rw [isIf, kind]
      exact nofun
  · rename_i guard b branch kind
    cases branch with
    | none => cases done
    | some branch =>
      cases done
      refine asElement_altered ?_ left
      rw [elseBranch?, kind]
  · cases done

/-- A deleted statement leaves no element to compare. -/
theorem delete_altered (done : s.delete = .done change) {t : Stmt}
    (left : change.edit.result s = [t]) : s.Altered t := by
  obtain ⟨-, done⟩ := Outcome.if_refused_iff.1 done
  cases done
  cases left

/-- A loop with a `break` in it weighs more. -/
theorem insertBreak_altered (done : s.insertBreak = .done change) {t : Stmt}
    (left : change.edit.result s = [t]) : s.Altered t := by
  have longer (b : Block) : b.weight ≠ (breaking b).weight := by
    obtain ⟨list, span⟩ := b
    simp [breaking, Block.weight, Stmt.weightList, Stmt.weight, StmtKind.weight]
  obtain ⟨kind, span, ghost⟩ := s
  cases kind with
  | whileLoop guard invariants decreases body =>
    cases done
    cases left
    exact .inr (.inr fun same => longer body (Nat.succ.inj same))
  | forLoop index start stop ascending invariants body =>
    cases done
    cases left
    exact .inr (.inr fun same => longer body (Nat.succ.inj same))
  | _ => cases done

mutual
/-- Without one of its links a chain has fewer statements. -/
theorem weight_unlink {target : Location} : (s s' : Stmt) → s.unlink? target = some s' →
    s'.weight < s.weight
  | ⟨.ifElse guard thenBranch next, span, ghost⟩, s', h => by
    rw [unlink?] at h
    obtain ⟨next', below, rfl⟩ := Option.map_eq_some_iff.1 h
    have fewer := weight_unlinkBelow next next' below
    simp only [Stmt.weight, StmtKind.weight]
    omega

/-- A chain that lost a link weighs less. -/
theorem weight_unlinkBelow {target : Location} : (s s' : Option Stmt) →
    unlinkBelow? target s = some s' → Stmt.weightOpt s' < Stmt.weightOpt s
  | none, _, h => by simp [unlinkBelow?] at h
  | some branch, s', h => by
    rw [unlinkBelow?] at h
    split at h
    · cases h
    · split at h
      · cases h
        rw [Stmt.weightOpt]
        cases next : branch.elseBranch? with
        | none =>
          obtain ⟨kind, span, ghost⟩ := branch
          exact Nat.succ_pos _
        | some t => exact Stmt.weight_lt_of_branch next
      · obtain ⟨t, below, rfl⟩ := Option.map_eq_some_iff.1 h
        exact weight_unlink branch t below
end

/-- A chain loses its head, and with it a condition or weight, or it loses a link. -/
theorem deleteBranch_altered {target : Location} (done : s.deleteBranch target = .done change)
    {t : Stmt} (left : change.edit.result s = [t]) : s.Altered t := by
  unfold deleteBranch at done
  split at done
  · split at done
    · split at done
      · rename_i branch next
        cases done
        exact asElement_altered next left
      · cases done
        cases left
    · split at done
      · rename_i s' unlinked
        cases done
        cases left
        exact .inr (.inr (Nat.ne_of_gt (weight_unlink s t unlinked)))
      · cases done
  · cases done

/-- A case in place of its match is less than the match, or no match. -/
theorem keepCase_altered {index : Nat} (done : s.keepCase index = .done change) {t : Stmt}
    (left : change.edit.result s = [t]) : s.Altered t := by
  obtain ⟨kind, span, ghost⟩ := s
  cases kind with
  | matchOn source cases =>
    simp only [keepCase] at done
    split at done
    · cases done
    · rename_i c found
      obtain ⟨-, rfl⟩ := Outcome.if_done_iff.1 done
      refine Block.inPlace_altered (.inl ?_) (fun span => .inr (.inl ?_)) left
      · exact List.mem_map_of_mem (List.mem_of_getElem? found)
      · exact Nat.one_ne_zero
  | _ => cases done

end Stmt

theorem Pattern.isCatchAll_of_ctor {p : Pattern} {name : String} (h : p.ctor? = some name) :
    p.isCatchAll = false := by
  cases p <;> first | rfl | cases h

/-- The default case is none of the named cases. -/
theorem MatchCase.defaultIdx?_ne_ctorIdx? {cases : List MatchCase} {ctor : String} {i : Nat}
    (named : ctorIdx? cases ctor = some i) : defaultIdx? cases ≠ some i := by
  intro found
  obtain ⟨_, isNamed, _⟩ := List.findIdx?_eq_some_iff_getElem.1 named
  obtain ⟨_, catchAll, _⟩ := List.findIdx?_eq_some_iff_getElem.1 found
  rw [Pattern.isCatchAll_of_ctor (beq_iff_eq.1 isNamed)] at catchAll
  cases catchAll

/-- No default is a number that differs from itself. -/
theorem Ty.same_default {t : Ty} {l : Literal} (h : t.default? = some l) : l.same l = true := by
  cases t <;> cases h <;> rfl

section

variable {R : Piece → Piece → Prop} (hR : Likeness R)

include hR

/-- Returned values that are like their defaults are the defaults already. -/
theorem Stmt.already_of_alike {values : List Expr} {defaults : List Literal}
    (given : values.mapM (fun e => e.ty.default?) = some defaults) {es : List Expr}
    (new : (values.zip (defaults.map Literal.text)).mapM
      (fun (value, text) => returnValue? value text) = some es)
    (same : List.Forall₂ (fun a b => R (.expr a) (.expr b)) values es) :
    ((values.zip defaults).all fun (e, d) => e.literal?.any fun l => l.same d) = true := by
  induction values generalizing defaults es with
  | nil => rfl
  | cons value values ih =>
    simp only [List.mapM_cons, Option.bind_eq_bind, Option.bind_eq_some_iff, Option.pure_def,
      Option.some.injEq] at given
    obtain ⟨d, first, ds, rest, rfl⟩ := given
    simp only [List.map_cons, List.zip_cons_cons, List.mapM_cons, Option.bind_eq_bind,
      Option.bind_eq_some_iff, Option.pure_def, Option.some.injEq] at new
    obtain ⟨e, made, es, others, rfl⟩ := new
    obtain ⟨here, behind⟩ := List.forall₂_cons.1 same
    rw [List.zip_cons_cons, List.all_cons, ih rest others behind, Bool.and_true]
    have put : e = { value with kind := .literal d } := by
      simp only [returnValue?, first, Option.bind_eq_bind, Option.bind_some,
        (Literal.sayable_default first).read, Option.pure_def, Option.some.injEq] at made
      exact made.symm
    have kind := (hR.expr here).kind
    rw [put] at kind
    obtain ⟨kind', span, ty⟩ := value
    cases kind' with
    | literal l =>
      rcases kind with same | rfl
      · exact same
      · exact Ty.same_default first
    | _ => cases kind

/-- New return values differ from the old ones, as the scan that proposed them saw. -/
theorem Stmt.setReturn_unlike {s t : Stmt} {values : List Expr} {defaults : List Literal}
    (hs : s.kind = .ret values) (given : values.mapM (fun e => e.ty.default?) = some defaults)
    (changes : ((values.zip defaults).all fun (e, d) => e.literal?.any fun l => l.same d) = false)
    {change : Change} (done : s.setReturn (defaults.map Literal.text) = .done change)
    (left : change.edit.result s = [t]) : ¬R (.stmt s) (.stmt t) := by
  intro same
  obtain ⟨kind, span, ghost⟩ := s
  cases hs
  obtain ⟨-, done⟩ := Outcome.if_refused_iff.1 done
  split at done
  · rename_i es new
    cases done
    cases left
    rw [Stmt.already_of_alike hR given new (hR.stmt same).exprs] at changes
    cases changes
  · cases done

/-- Lists that stand at different places are like each other only if both are empty. -/
theorem Stmt.nil_of_alike {list list' : List Stmt}
    (apart : ∀ s ∈ list, ∀ t ∈ list', s.span.coincides t.span = false)
    (same : R (.stmts list) (.stmts list')) : list = [] ∧ list' = [] := by
  have all := hR.stmts same
  cases list with
  | nil => exact ⟨rfl, List.forall₂_nil_left_iff.1 all⟩
  | cons s list =>
    cases list' with
    | nil => cases all
    | cons t list' =>
      have ranges := (hR.stmt (List.forall₂_cons.1 all).1).span
      rw [apart s List.mem_cons_self t List.mem_cons_self] at ranges
      cases ranges

/-- The bodies that change places in a `match` stand at different places, so they are like each
other only if all bodies are empty. -/
theorem Stmt.exchangeDefault_unlike {source : Expr} {cases : List MatchCase} {span : Span}
    {ghost : Bool} {t : Stmt} {ctor : String}
    (apart : cases.Pairwise fun c d => ∀ s ∈ c.body, ∀ t ∈ d.body, s.span.coincides t.span = false)
    (filled : ∃ c ∈ cases, c.body ≠ []) {change : Change}
    (done : Stmt.exchangeDefault ctor ⟨.matchOn source cases, span, ghost⟩ = .done change)
    (left : change.edit.result ⟨.matchOn source cases, span, ghost⟩ = [t]) :
    ¬R (.stmt ⟨.matchOn source cases, span, ghost⟩) (.stmt t) := by
  intro same
  obtain ⟨_, _, i, d, named, default, shape, foundNamed, foundDefault, hi, hd, -, -, rfl⟩ :=
    exchangeDefault_done done
  cases shape
  cases left
  have other : d ≠ i := by
    rintro rfl
    exact absurd foundDefault (MatchCase.defaultIdx?_ne_ctorIdx? foundNamed)
  have bodies {k : Nat} {c : MatchCase} (hk : cases[k]? = some c) :
      R (.stmts c.body) (.stmts (if k = d then named.body else default.body)) :=
    forall₂_at (r := fun b c => R (.stmts b.2) (.stmts c.2)) (hR.stmt same).lists
      (a := (c.span, c.body)) (b := (c.span, if k = d then named.body else default.body)) (i := k)
      (by simp [StmtKind.lists, hk]) (by simp [StmtKind.lists, hk])
  have defaults := bodies hd
  rw [if_pos rfl] at defaults
  obtain ⟨noDefault, noNamed⟩ : default.body = [] ∧ named.body = [] := by
    refine Stmt.nil_of_alike hR ?_ defaults
    rcases pairwise_at apart hd hi other with before | after
    · exact before
    · intro s hs t ht
      rw [Span.coincides_comm]
      exact after t ht s hs
  obtain ⟨c, hc, body⟩ := filled
  obtain ⟨k, hk⟩ := List.getElem?_of_mem hc
  have none := bodies hk
  rw [noDefault, noNamed, ite_self] at none
  exact body (List.forall₂_nil_right_iff.1 (hR.stmts none))

end

/-- A plain declaration has one expression, its value. -/
theorem Stmt.exprs_of_simpleDecl? {s : Stmt} {v : Variable} {a b : Expr}
    (h : s.simpleDecl? = some (v, a)) :
    s.kind.exprs .everything = [a] ∧ (s.withValue b).kind.exprs .everything = [b] := by
  obtain ⟨_, _, _, _, rfl⟩ := Stmt.eq_of_simpleDecl? h
  exact ⟨rfl, rfl⟩

section

variable {R : Piece → Piece → Prop} (hR : Likeness R)

include hR

/-- The values of two declarations stand at different places. -/
theorem Stmt.swapInits_unlike {target other : Location} {list list' : List Stmt} {span : Span}
    (apart : list.Pairwise fun s t => ∀ e ∈ s.kind.exprs .everything,
      ∀ f ∈ t.kind.exprs .everything, e.Distinct f)
    (done : Stmt.swapInits target other list = .done (list', span)) :
    ¬R (.stmts list) (.stmts list') := by
  intro same
  obtain ⟨i, j, s, t, v, w, a, b, indices, hs, ht, first, second, rfl⟩ := Stmt.swapInits_done done
  obtain ⟨exprs, exprs'⟩ := Stmt.exprs_of_simpleDecl? first (b := b)
  have alike := (hR.stmt (forall₂_at (r := fun s t => R (.stmt s) (.stmt t)) (hR.stmts same)
    hs (getElem?_exchange indices hs))).exprs
  rw [exprs, exprs'] at alike
  refine Expr.Distinct.unlike hR ?_ (List.forall₂_cons.1 alike).1
  have ofT := (Stmt.exprs_of_simpleDecl? second (b := a)).1
  rcases pairwise_at apart hs ht indices with before | after
  · exact .inl (before a (by simp [exprs]) b (by simp [ofT]))
  · exact .inr (after b (by simp [ofT]) a (by simp [exprs]))

/-- A deletion leaves fewer locals. -/
theorem Stmt.deleteVariable_unlike {site : Site} {name : String} {list list' : List Stmt}
    {span : Span} (done : (Stmt.deleteVariable site name list).1 = .done (list', span)) :
    ¬R (.stmts list) (.stmts list') := by
  intro same
  simp only [deleteVariable] at done
  split at done
  · cases done
  · rename_i before s after found
    obtain ⟨rfl, here⟩ := splitAtFirst_eq_some found
    have declares : name ∈ s.declares := by
      simpa using (Bool.and_eq_true_iff.1 here).2
    split at done
    · cases done
    · cases done
      have fewer : Stmt.localCountList (Purge.deleteLocal site.cascadeLimit name s after).1 <
          Stmt.localCountList (s :: after) := (Purge.localCount_deleteLocal declares).1
      have count := Stmt.localCountList_alike hR same
      rw [Stmt.localCountList_append, Stmt.localCountList_append] at count
      omega

/-- The bodies of two methods stand at different places, so they are like each other only if both
are empty. -/
theorem Member.swapBodies_unlike {target : Location} {name : String} {list list' : List Member}
    {span : Span}
    (apart : list.Pairwise fun x y => ∀ a b, x = .method a → y = .method b → ∀ c ∈ a.body,
      ∀ d ∈ b.body, ∀ s ∈ c.stmts, ∀ t ∈ d.stmts, s.span.coincides t.span = false)
    (done : Member.swapBodies target name list = .done (list', span))
    (same : R (.members list) (.members list')) :
    ∃ a b x y, .method a ∈ list ∧ .method b ∈ list ∧ target.matchesB a.span = true ∧
      b.name = name ∧ a.body = some x ∧ b.body = some y ∧ x.stmts = [] ∧ y.stmts = [] ∧
      x.span.coincides y.span = true := by
  obtain ⟨i, j, a, b, x, y, indices, ha, hb, target, named, -, hx, hy, rfl⟩ :=
    Member.swapBodies_done done
  have bodies := hR.method (forall₂_at (r := fun x y => R (.member x) (.member y))
    (hR.members same) ha (getElem?_exchange indices ha))
  rw [hx] at bodies
  obtain ⟨alike, ranges⟩ := (List.forall₂_cons.1 bodies).1
  obtain ⟨noX, noY⟩ : x.stmts = [] ∧ y.stmts = [] := by
    refine Stmt.nil_of_alike hR (fun s hs t ht => ?_) alike
    rcases pairwise_at apart ha hb indices with before | after
    · exact before a b rfl rfl x hx y hy s hs t ht
    · rw [Span.coincides_comm]
      exact after b a rfl rfl y hy x hx t ht s hs
  exact ⟨a, b, x, y, List.mem_of_getElem? ha, List.mem_of_getElem? hb, target, named, hx, hy, noX,
    noY, ranges⟩

end

section

variable {R : Piece → Piece → Prop} (hR : Likeness R) {op : Operator} {site : Site}

include hR

/-- An operator on statements changes the statement, except that the bodies exchanged in a `match`
may all be empty, and that the values returned may be there already. -/
theorem Operator.onStmt_unlike {s t : Stmt} {change : Change}
    (done : op.onStmt site s = .done change) (left : change.edit.result s = [t])
    (exchange : ∀ ctor, op = .exchangeDefault ctor → site.isTarget s.span = true →
      s.exchangeDefault ctor = .done change → ¬R (.stmt s) (.stmt t))
    (returned : ∀ texts, op = .setReturn texts → site.isTarget s.span = true →
      s.setReturn texts = .done change → ¬R (.stmt s) (.stmt t)) : ¬R (.stmt s) (.stmt t) := by
  unfold Operator.onStmt at done
  split at done
  · exact (Stmt.deleteBranch_altered done left).unlike hR
  · split at done
    · rename_i here
      cases op with
      | deleteStmt => exact (Stmt.delete_altered done left).unlike hR
      | insertBreak => exact (Stmt.insertBreak_altered done left).unlike hR
      | setReturn texts => exact returned texts rfl here done
      | keepBranch _ => exact (Stmt.keepBranch_altered done left).unlike hR
      | exchangeDefault ctor => exact exchange ctor rfl here done
      | keepCase _ => exact (Stmt.keepCase_altered done left).unlike hR
      | _ => cases done
    · cases done

end

end Mutation
