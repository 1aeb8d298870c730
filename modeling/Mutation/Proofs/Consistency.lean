import Mutation.Proofs.FirstSlot

/-!
# Reports fit their requests

A report repeats the kind and the location of its request, and says of nothing that was not
changed where it is: found, applied and the reported span go together, and a refusal excludes them
(`Module.mutate_consistent`). The reported span is one that the location addresses. Operators on
expressions and on lists report the span of what they were asked about; an operator on list
elements may change a link of the element's `else if` chain instead, and then the range of the
request stands for the link.

An anchor has no range to stand for the link. A request that deletes a link by its anchor is
reported with the span of the head of the chain, which has another anchor
(`Module.linked_mutate_anchor`); that is the only exception.
-/

namespace Mutation

/-- A link of the statement's `else if` chain has this anchor, and the statement itself has
another one. -/
structure Stmt.LinksAt (s : Stmt) (pos : Pos) : Prop where
  head : s.span.anchor ≠ pos
  link : ∃ span ∈ Stmt.elseIfSpans s.elseBranch?, span.anchor = pos

section

variable {op : Operator} {site : Site} {span : Span}

/-- An exchange of initializers reports the declaration that was addressed. -/
theorem Stmt.matchesB_of_swapInits {target other : Location} {list list' : List Stmt}
    (done : swapInits target other list = .done (list', span)) : target.matchesB span = true := by
  unfold swapInits at done
  split at done
  case h_1 => cases done
  case h_2 i found =>
    split at done
    case h_1 => cases done
    case h_2 j _ =>
      obtain ⟨-, done⟩ := Outcome.if_refused_iff.1 done
      split at done
      case h_2 => cases done
      case h_1 s t hs ht =>
        split at done
        case h_2 => cases done
        case h_1 =>
          obtain ⟨-, made⟩ := Outcome.if_done_iff.1 done
          cases made
          obtain ⟨hi, here, -⟩ := List.findIdx?_eq_some_iff_getElem.1 found
          rw [(List.getElem?_eq_some_iff.1 hs).2] at here
          exact (Bool.and_eq_true_iff.1 here).1

/-- A deletion reports the declaration that was addressed. -/
theorem Stmt.isTarget_of_deleteVariable {name : String} {list list' : List Stmt}
    (done : (deleteVariable site name list).1 = .done (list', span)) :
    site.isTarget span = true := by
  unfold deleteVariable at done
  split at done
  case h_1 => cases done
  case h_2 before s after found =>
    obtain ⟨-, here⟩ := splitAtFirst_eq_some found
    dsimp only at done
    split at done
    · cases done
    · cases done
      exact (Bool.and_eq_true_iff.1 here).1

/-- An exchange of bodies reports the method that was addressed. -/
theorem Member.matchesB_of_swapBodies {target : Location} {name : String}
    {list list' : List Member} (done : swapBodies target name list = .done (list', span)) :
    target.matchesB span = true := by
  unfold swapBodies at done
  split at done
  case h_1 => cases done
  case h_2 i found =>
    split at done
    case h_1 => cases done
    case h_2 j _ =>
      obtain ⟨-, done⟩ := Outcome.if_refused_iff.1 done
      split at done
      case h_2 => cases done
      case h_1 a b ha hb =>
        obtain ⟨-, made⟩ := Outcome.if_done_iff.1 done
        cases made
        obtain ⟨d, hd, isMethod⟩ := Option.bind_eq_some_iff.1 ha
        obtain ⟨hi, here, -⟩ := List.findIdx?_eq_some_iff_getElem.1 found
        rw [(List.getElem?_eq_some_iff.1 hd).2] at here
        cases d <;> cases isMethod
        exact (Bool.and_eq_true_iff.1 here).2

/-- The span that is reported for an element is one that the target addresses, or that of the head
of a chain in which the target addresses a link by its anchor. -/
theorem Operator.landing_of_onStmt {s : Stmt} {change : Change}
    (done : op.onStmt site s = .done change) :
    site.isTarget (Search.landing site.target s.span) = true ∨
      op.kind = .branchDeletion ∧ ∃ pos, site.target = .anchor pos ∧
        Search.landing site.target s.span = s.span ∧ s.LinksAt pos := by
  have answers : (op.onStmt site s).answers = true := by rw [done, Outcome.answers_done]
  unfold Search.landing
  cases target : site.target with
  | range start stop =>
    left
    dsimp only
    split
    · rename_i here
      rwa [Site.isTarget, target]
    · simp [Site.isTarget, target, Location.matchesB, Span.range]
  | anchor pos =>
    cases here : site.isTarget s.span with
    | true => exact .inl rfl
    | false =>
      right
      have kind : op.kind = .branchDeletion := by
        cases op with
        | deleteBranch => rfl
        | _ => simp [onStmt, here] at answers
      obtain ⟨link, mem, addressed⟩ := Operator.chain_of_answers answers
      rw [Site.isTarget, target, Location.matchesB, beq_eq_false_iff_ne] at here
      simp only [Site.isTarget, target, Location.matchesB, beq_iff_eq] at addressed
      rcases List.mem_cons.1 mem with rfl | mem
      · exact absurd addressed here
      · exact ⟨kind, pos, rfl, rfl, here, link, mem, addressed⟩

/-- What an operator reports is addressed by the target, but for the heads of chains. -/
theorem Operator.isTarget_of_onPlace {p : Place} (done : op.onPlace site p = .done span) :
    site.isTarget span = true ∨ op.kind = .branchDeletion ∧
      ∃ s pos, p = .element s ∧ site.target = .anchor pos ∧ s.span = span ∧ s.LinksAt pos := by
  cases p with
  | members list =>
    left
    obtain ⟨changed, answer, rfl⟩ := Outcome.answer_eq_done_iff.1 done
    cases op with
    | swapBodies name => exact Member.matchesB_of_swapBodies answer
    | _ => cases answer
  | stmts list =>
    left
    obtain ⟨changed, answer, rfl⟩ := Outcome.answer_eq_done_iff.1 done
    cases op with
    | swapInits start stop => exact Stmt.matchesB_of_swapInits answer
    | deleteVariable name => exact Stmt.isTarget_of_deleteVariable answer
    | _ => cases answer
  | element s =>
    obtain ⟨change, answer, rfl⟩ := Outcome.answer_eq_done_iff.1 done
    rcases Operator.landing_of_onStmt answer with here | ⟨kind, pos, target, head, links⟩
    · exact .inl here
    · exact .inr ⟨kind, s, pos, rfl, target, head.symm, links⟩
  | expr e =>
    left
    obtain ⟨e', answer, rfl⟩ := Outcome.answer_eq_done_iff.1 done
    have answers : (op.onExpr site e).answers = true := by rw [answer, Outcome.answers_done]
    exact (Operator.shape_of_answers answers).1

end

/-- The report of a request has its kind and location. It is applied exactly when a place was
found, and then the span is known; a refusal is reported only when nothing was found. The span is
addressed by the location, unless the request deletes a link of an `else if` chain by the anchor of
the link: then it is the span of the list element at the head of the chain. -/
theorem Module.mutate_consistent {m : Module} {r : Request} {limit : Nat} {x : Mutant}
    (ok : m.mutate r limit = .ok x) :
    x.report.kind = r.kind ∧ x.report.location = r.location ∧
      (x.report.isApplied = true ↔ x.report.found.isSome = true) ∧
      (x.report.found.isSome = true ↔ x.report.span.isSome = true) ∧
      (x.report.refusal.isSome = true → x.report.isApplied = false) ∧
      ∀ span ∈ x.report.span, r.location.matchesB span = false ↔
        r.kind = .branchDeletion ∧ ∃ owner s pos, (owner, .element s) ∈ m.places .executable ∧
          r.location = .anchor pos ∧ s.span = span ∧ s.LinksAt pos := by
  cases made : Operator.make r.kind r.argument with
  | error fault =>
    rw [Module.mutate_error made] at ok
    cases ok
  | ok op =>
    obtain ⟨kind, location⟩ : x.report.kind = r.kind ∧ x.report.location = r.location := by
      simp only [Module.mutate, Module.apply, made] at ok
      cases ok
      exact ⟨rfl, rfl⟩
    refine ⟨kind, location, Iff.rfl, ?_⟩
    obtain ⟨y, given, ends⟩ := Module.mutate_ends made limit (m := m)
    cases given.symm.trans ok
    cases ends with
    | missed _ _ found span refusal => simp [found, span, refusal]
    | refused _ _ _ found span refusal => simp [Report.isApplied, found, span]
    | @changed i at' found' first answer _ found span refusal =>
      refine ⟨by simp [found, span], by simp [refusal], fun reported same => ?_⟩
      obtain rfl : at' = reported := by simpa [span] using same
      constructor
      · intro astray
        rcases Operator.isTarget_of_onPlace answer with here | ⟨deletes, s, pos, place, rest⟩
        · exact absurd (here.symm.trans astray) Bool.noConfusion
        · have placed : i ∈ m.places .executable :=
            (Module.places_sublist (Coverage.toward_le _) m).subset
              (List.mem_of_find?_eq_some first)
          refine ⟨(Operator.kind_of_make made).symm.trans deletes, i.1, s, pos, ?_, rest⟩
          rwa [← place]
      · rintro ⟨-, owner, s, pos, -, target, rfl, links⟩
        rw [target, Location.matchesB, beq_eq_false_iff_ne]
        exact links.head

/-- A method with an `if` and an `else if`, both without statements. -/
def Module.linked : Module :=
  ⟨"m", [.class
    { name := "C"
      span := .range 0 20
      members := [.method
        { name := "f"
          params := []
          span := .range 1 19
          body := some ⟨[⟨.ifElse none ⟨[], .range 6 7⟩
            (some ⟨.ifElse none ⟨[], .range 11 12⟩ none, .range 10 13, false⟩), .range 4 14, false⟩],
            .range 3 18⟩ }] }]⟩

/-- The link deleted by its range is reported with this range. -/
theorem Module.linked_mutate_range :
    ∃ x, linked.mutate ⟨.range 10 13, .branchDeletion, none⟩ 64 = .ok x ∧
      x.report.isApplied = true ∧
      ∃ span ∈ x.report.span, (Location.range 10 13).matchesB span = true := by
  have given : ((linked.mutate ⟨.range 10 13, .branchDeletion, none⟩ 64).map fun x =>
      x.report.isApplied) = .ok true := by rfl
  obtain ⟨x, ok, applied⟩ := exists_of_map_ok given
  obtain ⟨-, -, found, reported, -, addressed⟩ := Module.mutate_consistent ok
  obtain ⟨span, same⟩ := Option.isSome_iff_exists.1 (reported.1 (found.1 applied))
  refine ⟨x, ok, applied, span, same, ?_⟩
  by_contra astray
  obtain ⟨-, owner, s, pos, -, target, -⟩ := (addressed span same).1 (by simpa using astray)
  cases target

/-- The link deleted by its anchor is reported with the range and the anchor of the `if` before
it. -/
theorem Module.linked_mutate_anchor :
    ((linked.mutate ⟨.anchor 10, .branchDeletion, none⟩ 64).map fun x =>
      (x.report.isApplied, x.report.span)) = .ok (true, some (.range 4 14)) ∧
    (Location.anchor 10).matchesB (.range 4 14) = false := by
  exact ⟨by rfl, by decide⟩

end Mutation
