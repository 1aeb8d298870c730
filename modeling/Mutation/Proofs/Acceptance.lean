import Mutation.Proofs.FirstSlot
import Mutation.Proofs.Reached
import Mutation.Proofs.Replacement

/-!
# What a scan does not propose is refused

For the kinds in `Kind.mirrored` an operator accepts nothing that a scan would not propose. Each
operator writes its argument in one way (`Operator.argument`), and a candidate written so is
suggested at every place at which its operator makes its change (`Operator.suggested`). A scan
comes to all places of the executable code, the nodes of assignment targets apart, so a request
that is written so and was not proposed is not carried out (`Module.mutate_unproposed`).

There is an exception. A scan knows `else` branches by their ranges, so it proposes nothing for an
element of a list that has the range of a branch, although the operators accept it
(`Module.overlaid_mutate_break`).
-/

namespace Mutation

/-- The kinds whose operators decide as a scan does. -/
def Kind.mirrored : List Kind :=
  [.binaryReplacement, .binaryToBool, .operandOnly, .negationInsertion, .negationDeletion,
    .fieldReplacement, .componentReplacement, .ctorReplacement, .calleeReplacement,
    .argumentSwap, .initReplacement, .breakInsertion, .branchExtraction, .caseReplacement,
    .caseExtraction]

/-- The location has the form that a scan uses for the kind. -/
def Kind.addresses (kind : Kind) : Location → Bool
  | .anchor _ => kind.atAnchor
  | .range .. => !kind.atAnchor

/-- A location of the form that a kind takes is the one its candidates carry. -/
theorem Kind.locate_of_addresses {kind : Kind} {location : Location} {span : Span}
    (form : kind.addresses location = true) (here : location.matchesB span = true) :
    location = kind.locate span := by
  cases location with
  | anchor p =>
    have anchored : kind.atAnchor = true := form
    simp only [Location.matchesB, beq_iff_eq] at here
    simp [locate, anchored, Span.anchorLocation, here]
  | range a b =>
    have ranged : kind.atAnchor = false := by simpa [addresses] using form
    simp only [Location.matchesB, Bool.and_eq_true, beq_iff_eq] at here
    simp [locate, ranged, Span.rangeLocation, here.1, here.2]

/-- List elements are addressed by their range. -/
theorem Kind.matchesB_of_coincides {kind : Kind} {location : Location} {s t : Span}
    (level : kind.level = .element) (form : kind.addresses location = true)
    (here : location.matchesB s = true) (same : t.coincides s = true) :
    location.matchesB t = true := by
  cases location with
  | anchor p => cases kind <;> simp [Kind.level, addresses, atAnchor] at level form
  | range a b =>
    obtain ⟨start, stop⟩ := Span.coincides_iff.1 same
    simpa [Location.matchesB, start, stop] using here

/-- The argument of an operator as a scan writes it; of two indices the smaller one comes first. -/
def Operator.argument : Operator → String
  | .setOperator op => op.name
  | .setBool value => if value then "true" else "false"
  | .keepOperand side => if side = .left then "left" else "right"
  | .insertNegation op => op.name
  | .setLiteral text | .setDefault text => text
  | .setVariable name | .insertThis name | .deleteThis name | .setField name | .setCtor name
  | .setCallee name | .exchangeDefault name | .swapBodies name | .deleteVariable name => name
  | .setInit form => form.name
  | .setComponent index => Text.natText index.toNat
  | .keepArgument index | .keepCase index => Text.natText index
  | .swapArguments i j => Text.natText (min i j) ++ ";" ++ Text.natText (max i j)
  | .setReturn texts => Text.joinWith ";" texts
  | .keepBranch branch => if branch = .thenBranch then "then" else "else"
  | .swapInits start stop => (Location.range start stop).text
  | .deleteNegation | .keepReceiver | .deleteStmt | .insertBreak | .deleteBranch => ""

/-- A candidate whose kind is mirrored, with a location in the form for that kind and an argument
written as its operator writes it. -/
structure Candidate.Canonical (c : Candidate) : Prop where
  mirrored : c.kind ∈ Kind.mirrored
  form : c.kind.addresses c.location = true
  argument : ∀ op, Operator.make c.kind c.argument? = .ok op → c.argument = op.argument

section

variable {e e' : Expr} {v : View}

theorem View.mem_of_shape {c : Candidate} (h : c ∈ v.shape e) : c ∈ v.expr e :=
  List.mem_append_left _ h

/-- An operator that is answered is one of the rivals, and those are proposed. -/
theorem Expr.setOperator_suggested {new : BinaryOp} (done : e.setOperator new = .done e') :
    ⟨e.span.anchorLocation, .binaryReplacement, new.name⟩ ∈ v.expr e := by
  obtain ⟨kind, span, ty⟩ := e
  cases kind with
  | binary old l r =>
    obtain ⟨same, -⟩ := Outcome.if_done_iff.1 done
    refine View.mem_of_shape ?_
    simp only [View.shape, View.binary, View.atAnchor, List.mem_append, List.mem_map]
    exact .inl (.inl ⟨_, ⟨new, same, rfl⟩, rfl⟩)
  | _ => cases done

/-- Both truth values are proposed for a binary expression that can take them. -/
theorem Expr.setBool_suggested {value : Bool} (done : e.setBool value = .done e') :
    ⟨e.span.anchorLocation, .binaryToBool, if value then "true" else "false"⟩ ∈ v.expr e := by
  obtain ⟨kind, span, ty⟩ := e
  cases kind with
  | binary old l r =>
    obtain ⟨bool, -⟩ := Outcome.if_done_iff.1 done
    refine View.mem_of_shape ?_
    simp only [View.shape, View.binary, View.atAnchor, List.mem_append, List.mem_map]
    refine .inl (.inr ⟨_, ?_, rfl⟩)
    rw [if_pos bool]
    cases value <;> simp
  | _ => cases done

/-- An operand is proposed under the condition it is kept under. -/
theorem Expr.keepOperand_suggested {side : Side} (done : e.keepOperand side = .done e') :
    ⟨e.span.anchorLocation, .operandOnly, if side = .left then "left" else "right"⟩ ∈
      v.expr e := by
  obtain ⟨kind, span, ty⟩ := e
  cases kind with
  | binary old l r =>
    obtain ⟨fits, -⟩ := Outcome.if_done_iff.1 done
    refine View.mem_of_shape ?_
    simp only [View.shape, View.binary, View.atAnchor, List.mem_append, List.mem_map,
      View.mem_argumentIf]
    cases side with
    | left => exact .inr ⟨_, .inl ⟨fits, rfl⟩, rfl⟩
    | right => exact .inr ⟨_, .inr ⟨fits, rfl⟩, rfl⟩
  | _ => cases done

/-- A negation is proposed wherever one can be put. -/
theorem Expr.insertNegation_suggested {op : UnaryOp} (done : e.insertNegation op = .done e') :
    ⟨e.span.anchorLocation, .negationInsertion, op.name⟩ ∈ v.expr e := by
  obtain ⟨kind, span, ty⟩ := e
  cases kind with
  | name n =>
    obtain ⟨fits, -⟩ := Outcome.if_done_iff.1 done
    refine View.mem_of_shape ?_
    simp [View.shape, View.name, View.atAnchor, fits]
  | _ => cases done

/-- A negation is proposed for deletion under the condition it is deleted under. -/
theorem Expr.deleteNegation_suggested (done : e.deleteNegation = .done e') :
    ⟨e.span.anchorLocation, .negationDeletion, ""⟩ ∈ v.expr e := by
  obtain ⟨kind, span, ty⟩ := e
  cases kind with
  | unary op x =>
    obtain ⟨fits, -⟩ := Outcome.if_done_iff.1 done
    refine View.mem_of_shape ?_
    simp [View.shape, View.atAnchor, View.argumentIf, fits]
  | _ => cases done

/-- The form that an initializer is put into is the one that is proposed for it. -/
theorem Expr.initForm_of_setInit {form : InitForm} (done : e.setInit form = .done e') :
    View.initForm? e = some form := by
  unfold setInit at done
  split at done
  · rename_i he
    rw [View.initForm?, he]
  · rename_i he
    split at done
    · rename_i found
      obtain ⟨t, element, given⟩ := Option.bind_eq_some_iff.1 found
      obtain ⟨values, known, -⟩ := Option.map_eq_some_iff.1 given
      simp [View.initForm?, he, element, known]
    · cases done
  · rename_i he
    split at done
    · obtain ⟨one, -⟩ := Outcome.if_done_iff.1 done
      simp [View.initForm?, he, one]
    · cases done
  · rename_i he
    split at done
    · rename_i found
      obtain ⟨values, known, -⟩ := Option.map_eq_some_iff.1 found
      simp [View.initForm?, he, known]
    · cases done
  · cases done
  · cases done
  · cases done

/-- The initializer form is proposed that can be put. -/
theorem Expr.setInit_suggested {form : InitForm} (done : e.setInit form = .done e') :
    ⟨e.span.rangeLocation, .initReplacement, form.name⟩ ∈ v.expr e := by
  have proposed := initForm_of_setInit done
  have suggested : ⟨e.span.rangeLocation, .initReplacement, form.name⟩ ∈
      View.atRange e.span .initReplacement ((View.initForm? e).toList.map InitForm.name) := by
    simp [View.atRange, proposed]
  refine View.mem_of_shape ?_
  obtain ⟨kind, span, ty⟩ := e
  cases kind with
  | display | arrayAlloc => exact suggested
  | _ => cases proposed

/-- A sibling field is proposed. -/
theorem Expr.setField_suggested {field : String} (done : e.setField v.declarations field = .done e') :
    ⟨e.span.anchorLocation, .fieldReplacement, field⟩ ∈ v.expr e := by
  obtain ⟨kind, span, ty⟩ := e
  cases kind with
  | member r old =>
    obtain ⟨-, done⟩ := Outcome.if_refused_iff.1 done
    split at done
    · rename_i owner declared
      obtain ⟨sibling, -⟩ := Outcome.if_done_iff.1 done
      refine View.mem_of_shape ?_
      simp [View.shape, View.member, View.atAnchor, declared, sibling]
    · cases done
  | _ => cases done

/-- Another component of the type is proposed. -/
theorem Expr.setComponent_suggested {index : UInt64} (done : e.setComponent index = .done e') :
    ⟨e.span.anchorLocation, .componentReplacement, Text.natText index.toNat⟩ ∈ v.expr e := by
  unfold setComponent at done
  split at done
  · rename_i t old he
    split at done
    · rename_i items tuple
      split at done
      · rename_i a b here there
        obtain ⟨other, -⟩ := Outcome.if_done_iff.1 done
        have differ : index.toNat ≠ old.toNat := fun same =>
          other.1 (UInt64.toNat_inj.1 same.symm)
        refine View.mem_of_shape ?_
        simp only [View.shape, he, View.atAnchor, tuple, View.otherComponents, here]
        refine List.mem_map_of_mem (List.mem_map.2 ⟨(b, index.toNat), ?_, rfl⟩)
        refine List.mem_filter.2 ⟨List.mem_zipIdx_iff_getElem?.2 there, ?_⟩
        simp [differ, other.2]
      · cases done
    · cases done
  · cases done

/-- A sibling constructor is proposed. -/
theorem Expr.setCtor_suggested {ctor : String} (done : e.setCtor v.declarations ctor = .done e') :
    ⟨e.span.anchorLocation, .ctorReplacement, ctor⟩ ∈ v.expr e := by
  obtain ⟨kind, span, ty⟩ := e
  cases kind with
  | ctor datatype old args =>
    obtain ⟨-, done⟩ := Outcome.if_refused_iff.1 done
    obtain ⟨sibling, -⟩ := Outcome.if_done_iff.1 done
    refine View.mem_of_shape ?_
    simp [View.shape, View.atAnchor, sibling]
  | _ => cases done

/-- A compatible callee is proposed when the search and the scan stand in the same declaration. -/
theorem Expr.setCallee_suggested {site : Site} {method : String}
    (enclosing : site.enclosing = v.enclosingType) (known : site.declarations = v.declarations)
    (done : e.setCallee site method = .done e') :
    ⟨e.span.rangeLocation, .calleeReplacement, method⟩ ∈ v.expr e := by
  obtain ⟨kind, span, ty⟩ := e
  cases kind with
  | call r old args =>
    obtain ⟨-, done⟩ := Outcome.if_refused_iff.1 done
    split at done
    · rename_i owner found
      obtain ⟨sibling, -⟩ := Outcome.if_done_iff.1 done
      rw [enclosing] at found
      rw [known] at sibling
      refine View.mem_of_shape ?_
      simp [View.shape, View.call, View.atRange, found, sibling]
    · cases done
  | _ => cases done

theorem View.mem_equalPairs_of {args : List Expr} {i j : Nat} {x y : Expr} (hx : args[i]? = some x)
    (hy : args[j]? = some y) (order : i < j) (alike : x.ty = y.ty) :
    Text.natText i ++ ";" ++ Text.natText j ∈ View.equalPairs args := by
  refine List.mem_flatMap.2 ⟨(x, i), List.mem_zipIdx_iff_getElem?.2 hx, ?_⟩
  refine List.mem_map.2 ⟨(y, j), List.mem_filter.2 ⟨List.mem_zipIdx_iff_getElem?.2 hy, ?_⟩, rfl⟩
  simp [order, alike]

/-- An exchange of two arguments of one type is proposed, with the smaller index first. -/
theorem Expr.swapArguments_suggested {i j : Nat} (other : i ≠ j)
    (done : e.swapArguments i j = .done e') :
    ⟨e.span.rangeLocation, .argumentSwap, Text.natText (min i j) ++ ";" ++ Text.natText (max i j)⟩ ∈
      v.expr e := by
  unfold swapArguments at done
  split at done
  · rename_i args he
    split at done
    · rename_i a b ha hb
      obtain ⟨alike, -⟩ := Outcome.if_done_iff.1 done
      have pair : Text.natText (min i j) ++ ";" ++ Text.natText (max i j) ∈
          View.equalPairs args := by
        rcases Nat.lt_or_gt_of_ne other with order | order
        · rw [Nat.min_eq_left (Nat.le_of_lt order), Nat.max_eq_right (Nat.le_of_lt order)]
          exact View.mem_equalPairs_of ha hb order alike
        · rw [Nat.min_eq_right (Nat.le_of_lt order), Nat.max_eq_left (Nat.le_of_lt order)]
          exact View.mem_equalPairs_of hb ha order alike.symm
      refine View.mem_of_shape ?_
      simp only [View.shape, he, View.call, View.atRange]
      exact List.mem_append_right _ (List.mem_map_of_mem pair)
    · cases done
  · cases done

/-- The two indices of an argument differ. -/
theorem Operator.ne_of_make {kind : Kind} {argument : Option String} {i j : Nat}
    (made : make kind argument = .ok (.swapArguments i j)) : i ≠ j := by
  have swap : kind = .argumentSwap := (kind_of_make made).symm
  subst swap
  obtain ⟨a, read⟩ := exists_ofArgument made
  simp only [ofArgument, readPair] at read
  split at read
  · cases read
  · split at read
    · rename_i x y _ _
      by_cases same : x = y
      · rw [if_pos same] at read
        cases read
      · rw [if_neg same] at read
        cases read
        exact fun equal => same (UInt64.toNat_inj.1 equal)
    · cases read

/-- What a mirrored operator does to an expression is suggested for it. -/
theorem Operator.onExpr_suggested {op : Operator} {site : Site}
    (mirrored : op.kind ∈ Kind.mirrored) (apart : ∀ i j, op = .swapArguments i j → i ≠ j)
    (enclosing : site.enclosing = v.enclosingType) (known : site.declarations = v.declarations)
    (done : op.onExpr site e = .done e') :
    ⟨op.kind.locate e.span, op.kind, op.argument⟩ ∈ v.expr e := by
  unfold onExpr at done
  split at done
  · cases op with
    | setOperator => exact Expr.setOperator_suggested done
    | setBool => exact Expr.setBool_suggested done
    | keepOperand => exact Expr.keepOperand_suggested done
    | insertNegation => exact Expr.insertNegation_suggested done
    | deleteNegation => exact Expr.deleteNegation_suggested done
    | setInit => exact Expr.setInit_suggested done
    | setField => exact Expr.setField_suggested (known ▸ done)
    | setComponent => exact Expr.setComponent_suggested done
    | setCtor => exact Expr.setCtor_suggested (known ▸ done)
    | setCallee => exact Expr.setCallee_suggested enclosing known done
    | swapArguments i j => exact Expr.swapArguments_suggested (apart i j rfl) done
    | _ => first | cases done | simp [kind, Kind.mirrored] at mirrored
  · cases done

end

section

variable {s : Stmt} {change : Change}

/-- A `break` is proposed for every loop. -/
theorem Stmt.insertBreak_suggested (done : s.insertBreak = .done change) :
    ⟨s.span.rangeLocation, .breakInsertion, ""⟩ ∈ s.proposals := by
  obtain ⟨kind, span, ghost⟩ := s
  cases kind with
  | whileLoop | forLoop => exact List.mem_append_right _ (List.mem_singleton_self _)
  | _ => cases done

/-- Both branches of an `if` are proposed. -/
theorem Stmt.keepBranch_suggested {branch : Branch} (done : s.keepBranch branch = .done change) :
    ⟨s.span.rangeLocation, .branchExtraction, if branch = .thenBranch then "then" else "else"⟩ ∈
      s.proposals := by
  refine List.mem_append_right _ ?_
  obtain ⟨kind, span, ghost⟩ := s
  cases kind with
  | ifElse guard thenBranch next =>
    cases branch with
    | thenBranch => simp [shapeProposals, View.atRange]
    | elseBranch =>
      cases next with
      | none => cases done
      | some next => simp [shapeProposals, View.atRange]
  | _ => cases done

/-- A case is proposed for exchange with the default under the condition it is exchanged under. -/
theorem Stmt.exchangeDefault_suggested {ctor : String}
    (done : s.exchangeDefault ctor = .done change) :
    ⟨s.span.rangeLocation, .caseReplacement, ctor⟩ ∈ s.proposals := by
  refine List.mem_append_right _ ?_
  obtain ⟨source, cases, i, d, named, default, hs, first, last, here, there, reads, movable, -⟩ :=
    exchangeDefault_done done
  have isCtor : named.pattern.ctor? = some ctor := by
    obtain ⟨hi, found, -⟩ := List.findIdx?_eq_some_iff_getElem.1 first
    rw [List.getElem?_eq_getElem hi] at here
    cases here
    exact beq_iff_eq.1 found
  rw [shapeProposals, hs]
  refine List.mem_append_left _ (List.mem_map.2 ⟨ctor, ?_, rfl⟩)
  rw [last, Option.bind_some, there, Option.any_some, if_pos movable]
  refine List.mem_filterMap.2 ⟨(named, i), List.mem_zipIdx_iff_getElem?.2 here, ?_⟩
  simp [isCtor, first, reads]

/-- A case is proposed under the condition it is kept under. -/
theorem Stmt.keepCase_suggested {index : Nat} (done : s.keepCase index = .done change) :
    ⟨s.span.rangeLocation, .caseExtraction, Text.natText index⟩ ∈ s.proposals := by
  refine List.mem_append_right _ ?_
  unfold keepCase at done
  split at done
  · rename_i source cases hs
    split at done
    · cases done
    · rename_i kept here
      obtain ⟨reads, -⟩ := Outcome.if_done_iff.1 done
      rw [shapeProposals, hs]
      refine List.mem_append_right _ (List.mem_map_of_mem (List.mem_map.2 ⟨(kept, index), ?_, rfl⟩))
      exact List.mem_filter.2 ⟨List.mem_zipIdx_iff_getElem?.2 here, reads⟩
  · cases done

/-- What a mirrored operator does to a list element is suggested for it. -/
theorem Operator.onStmt_suggested {op : Operator} {site : Site}
    (mirrored : op.kind ∈ Kind.mirrored) (done : op.onStmt site s = .done change) :
    site.isTarget s.span = true ∧ ⟨op.kind.locate s.span, op.kind, op.argument⟩ ∈ s.proposals := by
  cases target : site.isTarget s.span with
  | false => cases op <;> simp [onStmt, target, kind, Kind.mirrored] at done mirrored
  | true =>
    refine ⟨rfl, ?_⟩
    cases op with
    | insertBreak =>
      simp only [onStmt, target, if_true] at done
      exact Stmt.insertBreak_suggested done
    | keepBranch =>
      simp only [onStmt, target, if_true] at done
      exact Stmt.keepBranch_suggested done
    | exchangeDefault =>
      simp only [onStmt, target, if_true] at done
      exact Stmt.exchangeDefault_suggested done
    | keepCase =>
      simp only [onStmt, target, if_true] at done
      exact Stmt.keepCase_suggested done
    | _ => simp [onStmt, target, kind, Kind.mirrored] at done mirrored

end

mutual
/-- An `if` among the `else` branches behind a statement is a link of its chain. -/
theorem Stmt.mem_links_of_branches {b : Stmt} (isIf : b.isIf = true) :
    (s : Stmt) → b ∈ s.branches → b.span ∈ Stmt.elseIfSpans s.elseBranch?
  | ⟨.ifElse _ _ next, _, _⟩, h => Stmt.mem_links_of_branchesOpt isIf next h

/-- The links of a chain are the branches below its head that are `if`s. -/
theorem Stmt.mem_links_of_branchesOpt {b : Stmt} (isIf : b.isIf = true) :
    (s : Option Stmt) → b ∈ Stmt.branchesOpt s → b.span ∈ Stmt.elseIfSpans s
  | some ⟨kind, span, ghost⟩, h => by
    rcases List.mem_cons.1 h with rfl | h
    · cases kind with
      | ifElse => exact List.mem_cons_self
      | _ => cases isIf
    · have link := Stmt.mem_links_of_branches isIf ⟨kind, span, ghost⟩ h
      cases kind with
      | ifElse => exact List.mem_cons_of_mem _ link
      | _ => cases h
end

mutual
/-- The branches of a statement are closed under going one link further. -/
theorem Stmt.branches_of_mem {t b : Stmt} (next : t.elseBranch? = some b) :
    (s : Stmt) → t ∈ s.branches → b ∈ s.branches
  | ⟨.ifElse _ _ below, _, _⟩, h => Stmt.branchesOpt_of_mem next below h

theorem Stmt.branchesOpt_of_mem {t b : Stmt} (next : t.elseBranch? = some b) :
    (s : Option Stmt) → t ∈ Stmt.branchesOpt s → b ∈ Stmt.branchesOpt s
  | some s, h => by
    rcases List.mem_cons.1 h with rfl | h
    · exact List.mem_cons_of_mem _ (Stmt.mem_branches next List.mem_cons_self)
    · exact List.mem_cons_of_mem _ (Stmt.branches_of_mem next s h)
end

/-- No element of a list shares its range with a link of a chain. -/
theorem Module.Unambiguous.link_apart {m : Module} (h : m.Unambiguous) {owner : String} {s b : Stmt}
    (hs : (owner, .element s) ∈ m.places .executable) (hb : b ∈ m.elseBranches)
    (isIf : b.isIf = true) : b.span.coincides s.span = false := by
  obtain ⟨t, ht, next⟩ := List.mem_filterMap.1 hb
  obtain ⟨i, hi, ht⟩ := List.mem_flatMap.1 ht
  obtain ⟨owner', p⟩ := i
  cases p with
  | element u =>
    have link : b.span ∈ Stmt.elseIfSpans u.elseBranch? := by
      refine Stmt.mem_links_of_branches isIf u ?_
      rcases List.mem_cons.1 ht with rfl | ht
      · exact Stmt.mem_branches next List.mem_cons_self
      · exact Stmt.branches_of_mem next u ht
    obtain ⟨list, hl, listed⟩ := Module.exists_list hs
    obtain ⟨list', hl', listed'⟩ := Module.exists_list hi
    have everywhere := (Module.places_sublist Coverage.executable_le m).subset
    by_contra shared
    have same : b.span.coincides s.span = true := by simpa using shared
    obtain ⟨rfl, rfl, rfl⟩ := h.stmt_eq (everywhere hl') (everywhere hl) listed' listed
      (List.mem_cons_of_mem _ link) List.mem_cons_self same
    -- the chain of one element does not share ranges either
    have chain := (List.pairwise_flatMap.1 ((List.pairwise_flatMap.1 h.stmts).1 _
      (everywhere hl))).1 u listed
    have differ := (List.pairwise_cons.1 chain).1 _ link
    rw [Span.coincides_comm, same] at differ
    cases differ
  | _ => cases ht

/-- Every place at which a mirrored operator makes its change is one for which the operator is
suggested. -/
theorem Operator.suggested {op : Operator} {site : Site} {p : Place} {v : View} {at' : Span}
    (mirrored : op.kind ∈ Kind.mirrored) (apart : ∀ i j, op = .swapArguments i j → i ≠ j)
    (enclosing : site.enclosing = v.enclosingType) (known : site.declarations = v.declarations)
    (done : op.onPlace site p = .done at') :
    ∃ span, site.isTarget span = true ∧ ⟨op.kind.locate span, op.kind, op.argument⟩ ∈ p.proposals v ∧
      ((∃ s, p = .element s ∧ s.span = span) ∨ ∃ e, p = .expr e ∧ e.span = span) := by
  have answers : (op.onPlace site p).answers = true := by
    rw [done, Answer.answers_done]
  have level := Operator.level_of_answers answers
  cases p with
  | members => cases op <;> simp [Operator.level, Place.level, kind, Kind.mirrored] at level mirrored
  | stmts => cases op <;> simp [Operator.level, Place.level, kind, Kind.mirrored] at level mirrored
  | element s =>
    obtain ⟨change, done, -⟩ := Outcome.answer_eq_done_iff.1 done
    obtain ⟨here, mem⟩ := Operator.onStmt_suggested mirrored done
    exact ⟨s.span, here, mem, .inl ⟨s, rfl, rfl⟩⟩
  | expr e =>
    rw [Operator.onPlace, Outcome.answers_answer] at answers
    obtain ⟨e', done, -⟩ := Outcome.answer_eq_done_iff.1 done
    exact ⟨e.span, (Operator.shape_of_answers answers).1,
      Operator.onExpr_suggested mirrored apart enclosing known done, .inr ⟨e, rfl, rfl⟩⟩

/-- A place at which a canonical candidate is suggested is left out by no scan, unless the candidate
addresses a branch or a node of an assignment target. -/
theorem Candidate.Canonical.not_leftOut {m : Module} (unambiguous : m.Unambiguous) {c : Candidate}
    (canonical : c.Canonical) (outside : ∀ e ∈ m.targetNodes, c.location.matchesB e.span = false)
    (clear : c.kind.level = .element →
      ∀ b ∈ m.elseBranches, b.isIf = false → c.location.matchesB b.span = false)
    {owner : String} {p : Place} (placed : (owner, p) ∈ m.places .executable)
    (level : p.level = c.kind.level) {span : Span} (here : c.location.matchesB span = true)
    (node : (∃ s, p = .element s ∧ s.span = span) ∨ ∃ e, p = .expr e ∧ e.span = span) :
    ¬m.LeftOut p := by
  intro leftOut
  rcases node with ⟨s, rfl, rfl⟩ | ⟨e, rfl, rfl⟩
  · obtain ⟨b, hb, same⟩ := leftOut
    have there := Kind.matchesB_of_coincides level.symm canonical.form here same
    cases isIf : b.isIf with
    | true =>
      rw [unambiguous.link_apart placed hb isIf] at same
      cases same
    | false =>
      rw [clear level.symm b hb isIf] at there
      cases there
  · rw [outside e leftOut] at here
    cases here

/-- What a scan does not propose is refused: a request of a mirrored kind, with the location and
the argument written as a scan writes them, is not carried out when it is none of the candidates
and addresses no node of an assignment target outside of an index. An operator on list elements
must not address the range of an `else` branch, links of a chain apart. -/
theorem Module.mutate_unproposed {m : Module} (unambiguous : m.Unambiguous)
    {c : Candidate} (canonical : c.Canonical) (absent : c ∉ m.scan {})
    (outside : ∀ e ∈ m.targetNodes, c.location.matchesB e.span = false)
    (clear : c.kind.level = .element →
      ∀ b ∈ m.elseBranches, b.isIf = false → c.location.matchesB b.span = false)
    {limit : Nat} {x : Mutant} (ok : m.mutate c.request limit = .ok x) :
    x.report.isApplied = false := by
  by_contra applied
  obtain ⟨op, owner, p, spans, made, placed, new, at', done, -⟩ :=
    Module.exists_edit ok (by simpa using applied)
  have kind : op.kind = c.kind := Operator.kind_of_make made
  have level : p.level = c.kind.level := kind ▸ Operator.level_of_done done
  have mirrored : op.kind ∈ Kind.mirrored := kind ▸ canonical.mirrored
  have apart : ∀ i j, op = .swapArguments i j → i ≠ j := by
    rintro i j rfl
    exact Operator.ne_of_make made
  replace done : op.onPlace ((m.site c.request limit).inside (some owner)) p = .done at' := by
    rw [Operator.onPlace_eq, done, Answer.map_done]
  rcases (m.scan_offers {}).complete _ placed with leftOut | ⟨v, fits, all⟩
  · let v : View := { declarations := m.declarations, enclosingType := some owner }
    obtain ⟨span, here, -, node⟩ := Operator.suggested (v := v) mirrored apart rfl rfl done
    exact canonical.not_leftOut unambiguous outside clear placed level here node leftOut
  · obtain ⟨span, here, mem, -⟩ :=
      Operator.suggested mirrored apart fits.enclosing.symm fits.declarations.symm done
    -- the suggestion is the candidate, since both are written in the one way there is
    have addressed : c = ⟨op.kind.locate span, op.kind, op.argument⟩ := by
      rw [kind, ← canonical.argument op made, ← Kind.locate_of_addresses canonical.form here]
    rw [← addressed] at mem
    exact absurd (all c mem rfl) absent

/-- An `if` whose `else` block is a loop with the range of the block. -/
def Module.overlaid : Module :=
  let guard : Expr := ⟨.binary .lt ⟨.name "c", .token 6, .int⟩ ⟨.name "d", .token 8, .int⟩,
    ⟨6, 8, 7⟩, .bool⟩
  let loop : Stmt := ⟨.whileLoop none [] [] ⟨[], .range 17 20⟩, .range 15 25, false⟩
  let branch : Stmt := ⟨.block ⟨[loop], .range 15 25⟩, .range 15 25, false⟩
  ⟨"m", [.class
    { name := "C"
      span := .range 0 40
      members := [.method
        { name := "f"
          params := []
          span := .range 1 39
          body := some ⟨[⟨.ifElse (some guard) ⟨[], .range 9 12⟩ (some branch), .range 4 30, false⟩],
            .range 2 38⟩ }] }]⟩

theorem Module.overlaid_wellSpanned : overlaid.WellSpanned where
  anchored := by decide
  members := by
    intro d hd x hx
    obtain rfl := List.mem_singleton.1 hd
    obtain rfl := List.mem_singleton.1 hx
    refine ⟨by decide, by decide, ?_, by rintro _ ⟨⟩⟩
    rintro _ ⟨⟩ _ ⟨⟩
    refine ⟨by decide, by decide, fun s hs => ?_⟩
    obtain rfl := List.mem_singleton.1 hs
    have leaf : ∀ {n : String} {p : Pos} {ty : Ty} {outer : Span},
        outer.encloses (.token p) = true → Expr.Nested outer ⟨.name n, .token p, ty⟩ :=
      fun inside => .intro inside (by simp [Span.anchoredB, Span.token]) (by rintro _ ⟨⟩)
    refine .intro (by decide) (by decide) (fun e he => ?_) (fun b hb => ?_) (fun b hb => ?_)
      fun t ht => ?_
    · obtain rfl := List.mem_singleton.1 he
      refine .intro (by decide) (by decide) fun c hc => ?_
      rcases List.mem_cons.1 hc with rfl | hc
      · exact leaf (by decide)
      · obtain rfl := List.mem_singleton.1 hc
        exact leaf (by decide)
    · obtain rfl := List.mem_singleton.1 hb
      decide
    · obtain rfl := List.mem_singleton.1 hb
      rintro _ ⟨⟩
    · cases ht
      refine .intro (by decide) (by decide) (by rintro _ ⟨⟩) (fun b hb => ?_)
        (fun b hb t ht => ?_) (by rintro _ ⟨⟩)
      · obtain rfl := List.mem_singleton.1 hb
        decide
      · obtain rfl := List.mem_singleton.1 hb
        obtain rfl := List.mem_singleton.1 ht
        refine .intro (by decide) (by decide) (by rintro _ ⟨⟩) (fun b hb => ?_)
          (fun b hb => ?_) (by rintro _ ⟨⟩)
        · obtain rfl := List.mem_singleton.1 hb
          decide
        · obtain rfl := List.mem_singleton.1 hb
          rintro _ ⟨⟩

theorem Module.overlaid_unambiguous : overlaid.Unambiguous := by decide +kernel

theorem Module.overlaid_legible : overlaid.Legible where
  members := by
    intro d hd x hx
    obtain rfl := List.mem_singleton.1 hd
    obtain rfl := List.mem_singleton.1 hx
    refine ⟨⟨by decide +kernel, by decide +kernel⟩, nofun, ?_⟩
    rintro _ ⟨⟩ _ ⟨⟩ s hs
    obtain rfl := List.mem_singleton.1 hs
    refine .intro nofun (fun b hb => ?_) fun t ht => ?_
    · obtain rfl := List.mem_singleton.1 hb
      nofun
    · cases ht
      refine .intro nofun (fun b hb t ht => ?_) nofun
      obtain rfl := List.mem_singleton.1 hb
      obtain rfl := List.mem_singleton.1 ht
      refine .intro nofun (fun b hb => ?_) nofun
      obtain rfl := List.mem_singleton.1 hb
      nofun
  ctors := nofun

/-- Another class of operator in the guard. -/
def Candidate.connective : Candidate := ⟨.anchor 7, .binaryReplacement, "And"⟩

/-- A `break` in the loop that has the range of a branch. -/
def Candidate.overlaidBreak : Candidate := ⟨.range 15 25, .breakInsertion, ""⟩

/-- An operator of another class was not proposed, and it is refused. -/
theorem Module.overlaid_mutate_connective :
    overlaid.Unambiguous ∧ Candidate.connective.Canonical ∧
    Candidate.connective ∉ overlaid.scan {} ∧
    (∀ e ∈ overlaid.targetNodes, Candidate.connective.location.matchesB e.span = false) ∧
    ∃ x, overlaid.mutate Candidate.connective.request 64 = .ok x ∧
      x.report.refusal = some .operatorClass ∧ x.report.isApplied = false := by
  have canonical : Candidate.connective.Canonical := by
    refine ⟨by decide, rfl, fun op made => ?_⟩
    have read : Operator.make Candidate.connective.kind Candidate.connective.argument? =
        .ok (.setOperator .and) := by rfl
    rw [read] at made
    cases made
    rfl
  have absent : Candidate.connective ∉ overlaid.scan {} := by decide +kernel
  have outside : ∀ e ∈ overlaid.targetNodes,
      Candidate.connective.location.matchesB e.span = false := by
    decide +kernel
  have given : (overlaid.mutate Candidate.connective.request 64).map (fun x => x.report.refusal) =
      .ok (some .operatorClass) := by
    decide +kernel
  obtain ⟨x, ok, refusal⟩ := exists_of_map_ok given
  exact ⟨overlaid_unambiguous, canonical, absent, outside, x, ok, refusal,
    Module.mutate_unproposed overlaid_unambiguous canonical absent outside nofun ok⟩

/-- The loop gets no proposals, since it has the range of a branch, but a `break` is inserted. -/
theorem Module.overlaid_mutate_break :
    overlaid.WellSpanned ∧ overlaid.Unambiguous ∧ overlaid.Legible ∧
    Candidate.overlaidBreak.Canonical ∧ Candidate.overlaidBreak ∉ overlaid.scan {} ∧
    (∀ e ∈ overlaid.targetNodes, Candidate.overlaidBreak.location.matchesB e.span = false) ∧
    (overlaid.mutate Candidate.overlaidBreak.request 64).map (fun x => x.report.isApplied) =
      .ok true := by
  refine ⟨overlaid_wellSpanned, overlaid_unambiguous, overlaid_legible,
    ⟨by decide, rfl, fun op made => ?_⟩, by decide +kernel, by decide +kernel, by decide +kernel⟩
  cases made
  rfl

end Mutation
