import Mutation.Proofs.Edited

/-!
# What operators put in place

The operators on expressions build little: what they put in the place of an expression is one of
its parts, or the same parts under another head, or leaves. `Expr.MadeFrom` says so for all of
them at once, so that a property of expressions which holds of parts and leaves and does not
look at the head, unless the head is a chain, passes to what an operator leaves behind.

The operators that exchange something between two elements of a list are taken apart here once
(`Stmt.exchangeDefault_done`, `Stmt.swapInits_done_iff`, `Member.swapBodies_done_iff`): which two
elements, and what stands there now.
-/

namespace Mutation

namespace Outcome

variable {ν α : Type} {c : Prop} [Decidable c] {a b : α} {x : Outcome ν α} {reason : Refusal}
  {left : ν}

theorem if_done_iff : (if c then done a else refused reason left) = .done b ↔ c ∧ a = b := by
  by_cases h : c <;> simp [h]

theorem if_refused_iff : (if c then refused reason left else x) = .done b ↔ ¬c ∧ x = .done b := by
  by_cases h : c <;> simp [h]

end Outcome

section

variable {α : Type} {list : List α} {i j : Nat} {a b c x : α}

theorem mem_of_mem_exchange (h : x ∈ (list.set i a).set j b) : x ∈ list ∨ x = a ∨ x = b := by
  rcases List.mem_or_eq_of_mem_set h with h | h
  · exact (List.mem_or_eq_of_mem_set h).imp_right .inl
  · exact .inr (.inr h)

theorem getElem?_exchange (other : i ≠ j) (here : list[i]? = some c) :
    ((list.set i a).set j b)[i]? = some a := by
  rw [List.getElem?_set_ne other.symm,
    List.getElem?_set_self (List.getElem?_eq_some_iff.1 here).1]

end

namespace Expr

/-- The expression has no parts and is no chain. -/
def IsLeaf (e : Expr) : Prop := (∀ c, e.kind ≠ .chain c) ∧ e.kind.parts = []

/-- `e.MadeFrom e'`: what `e'` is made of. It is a part of `e`, or no chain and made of parts of
`e`, of `e` itself and of leaves. -/
def MadeFrom (e e' : Expr) : Prop :=
  e' ∈ e.kind.parts ∨
    (∀ c, e'.kind ≠ .chain c) ∧ ∀ c ∈ e'.kind.parts, c = e ∨ c ∈ e.kind.parts ∨ c.IsLeaf

theorem isLeaf_samples {t : Ty} {span : Span} {samples : List Expr}
    (h : sampleExprs? t span = some samples) : ∀ e ∈ samples, e.IsLeaf := by
  simp only [sampleExprs?, Option.map_eq_some_iff] at h
  obtain ⟨values, -, rfl⟩ := h
  simp [IsLeaf, ExprKind.parts]

theorem mem_of_mem_swapAt {α : Type} {list : List α} {i j : Nat} {x : α}
    (h : x ∈ swapAt list i j) : x ∈ list := by
  unfold swapAt at h
  split at h
  case h_2 => exact h
  case h_1 a b ha hb =>
    rcases mem_of_mem_exchange h with h | rfl | rfl
    · exact h
    · exact List.mem_of_getElem? hb
    · exact List.mem_of_getElem? ha

theorem exists_of_mem_mapM {α β : Type} {f : α → Option β} {l : List α} {l' : List β}
    (h : l.mapM f = some l') {b : β} (hb : b ∈ l') : ∃ a ∈ l, f a = some b := by
  induction l generalizing l' with
  | nil =>
    cases h
    cases hb
  | cons a l ih =>
    simp only [List.mapM_cons, Option.bind_eq_bind, Option.bind_eq_some_iff] at h
    obtain ⟨c, hc, cs, hcs, rest⟩ := h
    cases rest
    rcases List.mem_cons.1 hb with rfl | hb
    · exact ⟨a, by simp, hc⟩
    · obtain ⟨x, hx, hf⟩ := ih hcs hb
      exact ⟨x, by simp [hx], hf⟩

variable {e e' : Expr}

theorem setOperator_madeFrom {new : BinaryOp} (h : e.setOperator new = .done e') :
    e.MadeFrom e' := by
  obtain ⟨kind, span, ty⟩ := e
  cases kind with
  | binary old l r =>
    obtain ⟨-, rfl⟩ := Outcome.if_done_iff.1 h
    simp [MadeFrom, ExprKind.parts]
  | _ => cases h

theorem setBool_madeFrom {value : Bool} (h : e.setBool value = .done e') : e.MadeFrom e' := by
  obtain ⟨kind, span, ty⟩ := e
  cases kind with
  | binary old l r =>
    obtain ⟨-, rfl⟩ := Outcome.if_done_iff.1 h
    simp [MadeFrom, ExprKind.parts]
  | _ => cases h

theorem keepOperand_madeFrom {side : Side} (h : e.keepOperand side = .done e') :
    e.MadeFrom e' := by
  obtain ⟨kind, span, ty⟩ := e
  cases kind with
  | binary old l r =>
    obtain ⟨-, rfl⟩ := Outcome.if_done_iff.1 h
    cases side <;> simp [MadeFrom, ExprKind.parts]
  | _ => cases h

theorem insertNegation_madeFrom {op : UnaryOp} (h : e.insertNegation op = .done e') :
    e.MadeFrom e' := by
  obtain ⟨kind, span, ty⟩ := e
  cases kind with
  | name n =>
    obtain ⟨-, rfl⟩ := Outcome.if_done_iff.1 h
    simp [MadeFrom, ExprKind.parts]
  | _ => cases h

theorem deleteNegation_madeFrom (h : e.deleteNegation = .done e') : e.MadeFrom e' := by
  obtain ⟨kind, span, ty⟩ := e
  cases kind with
  | unary op x =>
    obtain ⟨-, rfl⟩ := Outcome.if_done_iff.1 h
    simp [MadeFrom, ExprKind.parts]
  | _ => cases h

theorem setLiteral_madeFrom {text : String} (h : e.setLiteral text = .done e') :
    e.MadeFrom e' := by
  obtain ⟨kind, span, ty⟩ := e
  cases kind with
  | literal old =>
    simp only [setLiteral] at h
    split at h
    · cases h
    · obtain ⟨-, h⟩ := Outcome.if_refused_iff.1 h
      cases h
      simp [MadeFrom, ExprKind.parts]
  | _ => cases h

theorem setDefault_madeFrom {text : String} (h : e.setDefault text = .done e') :
    e.MadeFrom e' := by
  simp only [setDefault] at h
  split at h
  · split at h
    · cases h
    · split at h
      · cases h
      · cases h
        simp [MadeFrom, ExprKind.parts]
  · cases h

theorem setVariable_madeFrom {name : String} (h : e.setVariable name = .done e') :
    e.MadeFrom e' := by
  obtain ⟨kind, span, ty⟩ := e
  cases kind with
  | name n =>
    obtain ⟨-, h⟩ := Outcome.if_refused_iff.1 h
    cases h
    simp [MadeFrom, ExprKind.parts]
  | _ => cases h

theorem setInit_madeFrom {form : InitForm} (h : e.setInit form = .done e') : e.MadeFrom e' := by
  simp only [setInit] at h
  split at h
  · cases h
    simp [MadeFrom, ExprKind.parts]
  · split at h
    case h_2 => cases h
    case h_1 samples some =>
      cases h
      obtain ⟨t, -, ht⟩ := Option.bind_eq_some_iff.1 some
      exact .inr ⟨by simp, fun c hc => .inr (.inr (isLeaf_samples ht c hc))⟩
  · split at h
    case h_2 => cases h
    case h_1 values =>
      obtain ⟨-, rfl⟩ := Outcome.if_done_iff.1 h
      simp [MadeFrom, ExprKind.parts, lengthExpr, IsLeaf]
  · split at h
    case h_2 => cases h
    case h_1 samples some =>
      cases h
      have leaf := isLeaf_samples some
      refine .inr ⟨by simp, fun c hc => .inr (.inr ?_)⟩
      simp only [ExprKind.parts, Option.getD_some, List.cons_append, List.nil_append,
        List.mem_cons] at hc
      rcases hc with rfl | hc
      · simp [IsLeaf, lengthExpr, ExprKind.parts]
      · exact leaf c hc
  all_goals cases h

theorem insertThis_madeFrom {enclosing : Option String} {field : String}
    (h : e.insertThis enclosing field = .done e') : e.MadeFrom e' := by
  obtain ⟨kind, span, ty⟩ := e
  cases kind with
  | name n =>
    obtain ⟨-, h⟩ := Outcome.if_refused_iff.1 h
    cases enclosing with
    | none => cases h
    | some c =>
      cases h
      simp [MadeFrom, ExprKind.parts, IsLeaf]
  | _ => cases h

theorem deleteThis_madeFrom {field : String} (h : e.deleteThis field = .done e') :
    e.MadeFrom e' := by
  obtain ⟨kind, span, ty⟩ := e
  cases kind with
  | member r f =>
    simp only [deleteThis] at h
    split at h
    · obtain ⟨-, rfl⟩ := Outcome.if_done_iff.1 h
      simp [MadeFrom, ExprKind.parts]
    · cases h
  | _ => cases h

theorem setField_madeFrom {declarations : Declarations} {field : String}
    (h : e.setField declarations field = .done e') : e.MadeFrom e' := by
  obtain ⟨kind, span, ty⟩ := e
  cases kind with
  | member r old =>
    obtain ⟨-, h⟩ := Outcome.if_refused_iff.1 h
    split at h
    · obtain ⟨-, rfl⟩ := Outcome.if_done_iff.1 h
      simp [MadeFrom, ExprKind.parts]
    · cases h
  | _ => cases h

theorem setComponent_madeFrom {index : UInt64} (h : e.setComponent index = .done e') :
    e.MadeFrom e' := by
  obtain ⟨kind, span, ty⟩ := e
  cases kind with
  | tupleIndex t old =>
    simp only [setComponent] at h
    split at h
    · split at h
      · obtain ⟨-, rfl⟩ := Outcome.if_done_iff.1 h
        simp [MadeFrom, ExprKind.parts]
      · cases h
    · cases h
  | _ => cases h

theorem setCtor_madeFrom {declarations : Declarations} {ctor : String}
    (h : e.setCtor declarations ctor = .done e') : e.MadeFrom e' := by
  obtain ⟨kind, span, ty⟩ := e
  cases kind with
  | ctor datatype old args =>
    obtain ⟨-, h⟩ := Outcome.if_refused_iff.1 h
    obtain ⟨-, rfl⟩ := Outcome.if_done_iff.1 h
    exact .inr ⟨by simp, fun c hc => .inr (.inl hc)⟩
  | _ => cases h

theorem keepArgument_madeFrom {index : Nat} (h : e.keepArgument index = .done e') :
    e.MadeFrom e' := by
  obtain ⟨kind, span, ty⟩ := e
  cases kind with
  | call r method args =>
    simp only [keepArgument] at h
    split at h
    case h_1 => cases h
    case h_2 arg found =>
      obtain ⟨-, rfl⟩ := Outcome.if_done_iff.1 h
      exact .inl (List.mem_append_right _ (List.mem_of_getElem? found))
  | _ => cases h

theorem keepReceiver_madeFrom (h : e.keepReceiver = .done e') : e.MadeFrom e' := by
  obtain ⟨kind, span, ty⟩ := e
  cases kind with
  | call r method args =>
    cases r with
    | none => cases h
    | some r =>
      obtain ⟨-, rfl⟩ := Outcome.if_done_iff.1 h
      simp [MadeFrom, ExprKind.parts]
  | _ => cases h

theorem setCallee_madeFrom {site : Site} {method : String}
    (h : e.setCallee site method = .done e') : e.MadeFrom e' := by
  obtain ⟨kind, span, ty⟩ := e
  cases kind with
  | call r old args =>
    obtain ⟨-, h⟩ := Outcome.if_refused_iff.1 h
    split at h
    · obtain ⟨-, rfl⟩ := Outcome.if_done_iff.1 h
      exact .inr ⟨by simp, fun c hc => .inr (.inl hc)⟩
    · cases h
  | _ => cases h

theorem swapArguments_madeFrom {i j : Nat} (h : e.swapArguments i j = .done e') :
    e.MadeFrom e' := by
  obtain ⟨kind, span, ty⟩ := e
  cases kind with
  | call r method args =>
    simp only [swapArguments] at h
    split at h
    · obtain ⟨-, rfl⟩ := Outcome.if_done_iff.1 h
      refine .inr ⟨by simp, fun c hc => .inr (.inl ?_)⟩
      rcases List.mem_append.1 hc with hc | hc
      · exact List.mem_append_left _ hc
      · exact List.mem_append_right _ (mem_of_mem_swapAt hc)
    · cases h
  | _ => cases h

end Expr

/-- What an operator puts in the place of an expression is made from that expression. -/
theorem Operator.onExpr_madeFrom {op : Operator} {site : Site} {e e' : Expr}
    (h : op.onExpr site e = .done e') : e.MadeFrom e' := by
  unfold Operator.onExpr at h
  split at h
  · cases op with
    | setOperator _ => exact Expr.setOperator_madeFrom h
    | setBool _ => exact Expr.setBool_madeFrom h
    | keepOperand _ => exact Expr.keepOperand_madeFrom h
    | insertNegation _ => exact Expr.insertNegation_madeFrom h
    | deleteNegation => exact Expr.deleteNegation_madeFrom h
    | setLiteral _ => exact Expr.setLiteral_madeFrom h
    | setDefault _ => exact Expr.setDefault_madeFrom h
    | setVariable _ => exact Expr.setVariable_madeFrom h
    | setInit _ => exact Expr.setInit_madeFrom h
    | insertThis _ => exact Expr.insertThis_madeFrom h
    | deleteThis _ => exact Expr.deleteThis_madeFrom h
    | setField _ => exact Expr.setField_madeFrom h
    | setComponent _ => exact Expr.setComponent_madeFrom h
    | setCtor _ => exact Expr.setCtor_madeFrom h
    | keepArgument _ => exact Expr.keepArgument_madeFrom h
    | keepReceiver => exact Expr.keepReceiver_madeFrom h
    | setCallee _ => exact Expr.setCallee_madeFrom h
    | swapArguments _ _ => exact Expr.swapArguments_madeFrom h
    | _ => cases h
  · cases h

/-- What an exchange with the default case does, and when it is made. -/
theorem Stmt.exchangeDefault_done {ctor : String} {s : Stmt} {change : Change}
    (h : s.exchangeDefault ctor = .done change) :
    ∃ source cases i d named default, s.kind = .matchOn source cases ∧
      MatchCase.ctorIdx? cases ctor = some i ∧ MatchCase.defaultIdx? cases = some d ∧
      cases[i]? = some named ∧ cases[d]? = some default ∧ named.readsNoBinding = true ∧
      default.readsNoBinding = true ∧
      change = .amend { s with
        kind := .matchOn source (cases.mapIdx fun k c =>
          { c with body := if k = d then named.body else default.body }) } := by
  obtain ⟨kind, span, ghost⟩ := s
  cases kind with
  | matchOn source cases =>
    simp only [exchangeDefault] at h
    split at h
    case h_2 => cases h
    case h_1 i d foundI foundD =>
      split at h
      case h_2 => cases h
      case h_1 named default hi hd =>
        split at h <;> cases h
        rename_i reads
        obtain ⟨readsI, readsD⟩ := Bool.and_eq_true_iff.1 reads
        exact ⟨source, cases, i, d, named, default, rfl, foundI, foundD, hi, hd, readsI, readsD, rfl⟩
  | _ => cases h

/-- A declaration of one local with one value. -/
theorem Stmt.eq_of_simpleDecl? {s : Stmt} {v : Variable} {a : Expr}
    (h : s.simpleDecl? = some (v, a)) : ∃ targets resolved span ghost,
      s = ⟨.varDecl ⟨[v], some ⟨targets, [a], resolved⟩⟩, span, ghost⟩ := by
  obtain ⟨kind, span, ghost⟩ := s
  unfold simpleDecl? at h
  split at h
  · rename_i w targets e resolved same
    cases same
    cases h
    exact ⟨targets, resolved, span, ghost, rfl⟩
  · cases h

/-- When the values of two declarations are exchanged, and what stands in the list then. -/
theorem Stmt.swapInits_done_iff {target other : Location} {list list' : List Stmt} {span : Span} :
    swapInits target other list = .done (list', span) ↔
      ∃ i j s t v w a b, declIdx? target list = some i ∧ declIdx? other list = some j ∧ i ≠ j ∧
        list[i]? = some s ∧ list[j]? = some t ∧ s.simpleDecl? = some (v, a) ∧
        t.simpleDecl? = some (w, b) ∧ v.ty = w.ty ∧
        list' = (list.set i (s.withValue b)).set j (t.withValue a) ∧ span = s.span := by
  constructor
  · intro h
    unfold swapInits at h
    split at h
    case h_1 => cases h
    case h_2 i foundI =>
      split at h
      case h_1 => cases h
      case h_2 j foundJ =>
        obtain ⟨indices, h⟩ := Outcome.if_refused_iff.1 h
        split at h
        case h_2 => cases h
        case h_1 s t hs ht =>
          split at h
          case h_2 => cases h
          case h_1 v a w b first second =>
            obtain ⟨types, made⟩ := Outcome.if_done_iff.1 h
            cases made
            exact ⟨i, j, s, t, v, w, a, b, foundI, foundJ, indices, hs, ht, first, second, types,
              rfl, rfl⟩
  · rintro ⟨i, j, s, t, v, w, a, b, foundI, foundJ, indices, hs, ht, first, second, types, rfl,
      rfl⟩
    simp [swapInits, foundI, foundJ, indices, hs, ht, first, second, types]

/-- Two declarations at the two locations have exchanged their values. -/
theorem Stmt.swapInits_done {target other : Location} {list list' : List Stmt} {span : Span}
    (h : swapInits target other list = .done (list', span)) :
    ∃ i j s t v w a b, i ≠ j ∧ list[i]? = some s ∧ list[j]? = some t ∧
      s.simpleDecl? = some (v, a) ∧ t.simpleDecl? = some (w, b) ∧
      list' = (list.set i (s.withValue b)).set j (t.withValue a) := by
  obtain ⟨i, j, s, t, v, w, a, b, -, -, indices, hs, ht, first, second, -, made, -⟩ :=
    swapInits_done_iff.1 h
  exact ⟨i, j, s, t, v, w, a, b, indices, hs, ht, first, second, made⟩

/-- When the bodies of two methods are exchanged, and what stands in the list then. -/
theorem Member.swapBodies_done_iff {target : Location} {name : String} {list list' : List Member}
    {span : Span} :
    swapBodies target name list = .done (list', span) ↔
      ∃ i j a b, (list.findIdx? fun m => m.method?.isSome && target.matchesB m.span) = some i ∧
        (list.findIdx? fun m => m.method?.isSome && m.name == name) = some j ∧ i ≠ j ∧
        list[i]? = some (.method a) ∧ list[j]? = some (.method b) ∧
        (a.sameFormalsAs b && a.body.isSome && b.body.isSome) = true ∧
        list' = (list.set i (.method { a with body := b.body })).set j
          (.method { b with body := a.body }) ∧ span = a.span := by
  have placed {k : Nat} {d : Method} :
      list[k]?.bind Member.method? = some d ↔ list[k]? = some (.method d) := by
    constructor
    · intro h
      obtain ⟨m, hm, isMethod⟩ := Option.bind_eq_some_iff.1 h
      cases m <;> cases isMethod
      exact hm
    · intro h
      rw [h]
      rfl
  constructor
  · intro h
    unfold swapBodies at h
    split at h
    case h_1 => cases h
    case h_2 i foundI =>
      split at h
      case h_1 => cases h
      case h_2 j foundJ =>
        obtain ⟨indices, h⟩ := Outcome.if_refused_iff.1 h
        split at h
        case h_2 => cases h
        case h_1 a b ha hb =>
          obtain ⟨shape, made⟩ := Outcome.if_done_iff.1 h
          cases made
          exact ⟨i, j, a, b, foundI, foundJ, indices, placed.1 ha, placed.1 hb, shape, rfl, rfl⟩
  · rintro ⟨i, j, a, b, foundI, foundJ, indices, ha, hb, shape, rfl, rfl⟩
    simp [swapBodies, foundI, foundJ, indices, placed.2 ha, placed.2 hb, shape]

/-- The method at the target and the one of the given name have exchanged their bodies. -/
theorem Member.swapBodies_done {target : Location} {name : String} {list list' : List Member}
    {span : Span} (h : swapBodies target name list = .done (list', span)) :
    ∃ i j a b x y, i ≠ j ∧ list[i]? = some (.method a) ∧ list[j]? = some (.method b) ∧
      target.matchesB a.span = true ∧ b.name = name ∧ a.sameFormalsAs b = true ∧
      a.body = some x ∧ b.body = some y ∧
      list' = (list.set i (.method { a with body := some y })).set j
        (.method { b with body := some x }) := by
  obtain ⟨i, j, a, b, foundI, foundJ, indices, ha, hb, shape, made, -⟩ := swapBodies_done_iff.1 h
  simp only [Bool.and_eq_true, Option.isSome_iff_exists] at shape
  obtain ⟨⟨formals, x, hx⟩, y, hy⟩ := shape
  obtain ⟨hi, hereA, -⟩ := List.findIdx?_eq_some_iff_getElem.1 foundI
  obtain ⟨hj, hereB, -⟩ := List.findIdx?_eq_some_iff_getElem.1 foundJ
  rw [(List.getElem?_eq_some_iff.1 ha).2] at hereA
  rw [(List.getElem?_eq_some_iff.1 hb).2] at hereB
  rw [hx, hy] at made
  exact ⟨i, j, a, b, x, y, indices, ha, hb, (Bool.and_eq_true_iff.1 hereA).2,
    beq_iff_eq.1 (Bool.and_eq_true_iff.1 hereB).2, formals, hx, hy, made⟩

end Mutation
