import Mathlib.Data.List.Nodup
import Mutation.Proofs.Cascade
import Mutation.Proofs.Reached

/-!
# What a scan proposes can be carried out

A scan and an operator decide on their own what is possible at a place. They agree: the argument
of a candidate is read back as an operator, and at the place where the candidate was proposed the
operator makes its change (`Candidate.Hits`). In a module with nested spans and unambiguous
targets the search comes to that place and to no other, so the request of every candidate is
carried out (`Module.mutate_candidate`). The one exception is meant: the deletion of a variable
gives up when more declarations depend on one another than its limit allows, which takes a list
with more locals than that.
-/

namespace Mutation

/-- The list around the statement at the location declares more locals than the deletion of one of
them may take in. -/
def Candidate.Crowded (m : Module) (limit : Nat) (c : Candidate) : Prop :=
  ∃ owner list, (owner, .stmts list) ∈ m.places .executable ∧
    (∃ s ∈ list, c.location.matchesB s.span = true) ∧ limit + 1 < Stmt.localCountList list

/-- The operator of the candidate makes its change at the place; a deletion may run out of
depth there. -/
structure Candidate.Hits (m : Module) (limit : Nat) (c : Candidate) (i : String × Place)
    (op : Operator) : Prop where
  made : Operator.make c.kind c.argument? = .ok op
  mem : i ∈ m.places .executable
  holds : i.2.Holds c.location
  single : op.level = .expr → op.shapes.length ≤ 1 ∨ ∃ a b, c.location = .range a b
  range : op.level ≠ .expr → ∃ a b, c.location = .range a b
  answer : (∃ at', Search.answerAt op (m.site c.request limit) i = .done at') ∨
    c.kind = .variableDeletion ∧ c.Crowded m limit ∧
      Search.answerAt op (m.site c.request limit) i = .refused .cascadeExhausted

/-- The request of a candidate that hits a place is carried out there. -/
theorem Candidate.Hits.applied {m : Module} {limit : Nat} {c : Candidate} {i : String × Place}
    {op : Operator} (h : c.Hits m limit i op) (spanned : m.WellSpanned)
    (unambiguous : m.Unambiguous) :
    ∃ x, m.mutate c.request limit = .ok x ∧ (x.report.isApplied = true ∨
      c.kind = .variableDeletion ∧ c.Crowded m limit ∧ x.report.isApplied = false ∧
        x.report.refusal = some .cascadeExhausted) := by
  obtain ⟨x, ok, ends⟩ := Module.mutate_ends (m := m) (r := c.request) h.made limit
  refine ⟨x, ok, ?_⟩
  have answers : (Search.answerAt op (m.site c.request limit) i).answers = true := by
    rcases h.answer with ⟨at', done⟩ | ⟨-, -, refused⟩
    · rw [done, Answer.answers_done]
    · rw [refused, Answer.answers_refused]
  have everywhere : ∀ j ∈ m.places (.toward c.location), j ∈ m.places .everything := fun j hj =>
    ((Module.places_sublist (Coverage.toward_le _) m).trans
      (Module.places_sublist Coverage.executable_le m)).subset hj
  have found := Module.mem_places_toward spanned h.mem h.holds
  -- the search cannot stop before it has come to the place, nor at another one
  have only : ∀ j, m.firstAnswer? c.request limit op = some j → j = i := by
    intro j first
    have mem := List.mem_of_find?_eq_some first
    have there : (Search.answerAt op (m.site c.request limit) j).answers = true :=
      List.find?_some (p := fun i => (Search.answerAt op (m.site c.request limit) i).answers) first
    exact unambiguous.eq (by rfl) h.single h.range (everywhere j mem) (everywhere i found) there answers
  cases ends with
  | missed first =>
    have none := List.find?_eq_none.1 first i found
    exact absurd answers none
  | refused first answer _ found' _ refusal =>
    rw [only _ first] at answer
    rcases h.answer with ⟨at', done⟩ | ⟨deletion, crowded, refused⟩
    · rw [done] at answer
      cases answer
    · rw [refused] at answer
      cases answer
      exact .inr ⟨deletion, crowded, by simp [Report.isApplied, found'], refusal⟩
  | changed _ _ _ found' => exact .inl (by simp [Report.isApplied, found'])

/-- A location may lie in a span that it matches. -/
theorem Location.mayLieIn_of_matchesB {target : Location} {s : Span}
    (anchored : s.anchoredB = true) (here : target.matchesB s = true) :
    target.mayLieIn s = true := by
  obtain ⟨first, last⟩ := Span.anchoredB_iff.1 anchored
  cases target with
  | anchor p =>
    rw [matchesB, beq_iff_eq] at here
    simp [mayLieIn, Span.contains, ← here, first, last]
  | range a b =>
    simp only [matchesB, Bool.and_eq_true, beq_iff_eq] at here
    simp [mayLieIn, here.1, here.2]

/-- The range of a span may lie in every span around it. -/
theorem Location.range_mayLieIn {outer s : Span} (h : outer.encloses s = true) :
    s.rangeLocation.mayLieIn outer = true := by
  simpa [Span.rangeLocation, mayLieIn, Span.encloses_iff] using h

/-- A candidate that reaches an expression of the executable code hits it. -/
theorem Candidate.Reaches.hits {m : Module} {o : ScanOptions} {owner : String} {v : View}
    {c : Candidate} {e : Expr} {op : Operator} (h : c.Reaches v e op)
    (fits : v.Fits m o (some owner)) (mem : (owner, .expr e) ∈ m.places .executable)
    (anchored : e.span.anchoredB = true) (limit : Nat) : c.Hits m limit (owner, .expr e) op where
  made := h.made
  mem := mem
  holds := Location.mayLieIn_of_matchesB anchored h.here
  single := fun _ => h.single
  range := fun other => absurd h.level other
  answer := by
    obtain ⟨e', done⟩ := h.change ((m.site c.request limit).inside (some owner)) h.here
      fits.enclosing.symm fits.declarations.symm
    exact .inl ⟨e.span, by simp [Search.answerAt, Operator.onPlace, done]⟩

/-- The operator of the candidate makes its change at the list element. -/
structure Candidate.Lands (c : Candidate) (s : Stmt) (op : Operator) : Prop where
  made : Operator.make c.kind c.argument? = .ok op
  level : op.level = .element
  range : ∃ a b, c.location = .range a b
  holds : c.location.mayLieIn s.span = true
  change : ∀ site : Site, site.target = c.location → ∃ x, op.onStmt site s = .done x

/-- A candidate that lands on a statement hits the place of that statement. -/
theorem Candidate.Lands.hits {m : Module} {owner : String} {c : Candidate} {s : Stmt}
    {op : Operator} (h : c.Lands s op) (mem : (owner, .element s) ∈ m.places .executable)
    (limit : Nat) : c.Hits m limit (owner, .element s) op where
  made := h.made
  mem := mem
  holds := h.holds
  single := fun level => by simp [h.level] at level
  range := fun _ => h.range
  answer := by
    obtain ⟨x, done⟩ := h.change ((m.site c.request limit).inside (some owner)) rfl
    exact .inl ⟨_, by rw [Search.answerAt, Operator.onPlace, done, Outcome.answer_done]⟩

section

variable {s : Stmt} {kind : Kind} {a : String} {op : Operator} {c : Candidate}

/-- Most operators on list elements look at the range of the element. -/
theorem Candidate.Lands.here (made : Operator.make kind
      (Candidate.argument? ⟨s.span.rangeLocation, kind, a⟩) = .ok op)
    (level : op.level = .element)
    (change : ∀ site : Site, site.isTarget s.span = true →
      site.target = s.span.rangeLocation → ∃ x, op.onStmt site s = .done x) :
    Candidate.Lands ⟨s.span.rangeLocation, kind, a⟩ s op where
  made := made
  level := level
  range := ⟨_, _, rfl⟩
  holds := by simp [Span.rangeLocation, Location.mayLieIn]
  change := fun site target => change site (by
    change site.target.matchesB s.span = true
    rw [target]
    exact Location.range_matchesB _) target

/-- Every statement that declares nothing is answered by its removal. -/
theorem Stmt.delete_lands (hs : s.isVarDecl = false) :
    Candidate.Lands ⟨s.span.rangeLocation, .statementDeletion, a⟩ s .deleteStmt :=
  .here (Operator.make_plain rfl rfl _) rfl fun site target _ =>
    ⟨.remove, by simp [Operator.onStmt, target, Stmt.delete, hs]⟩

/-- Every loop is answered by a `break` in it. -/
theorem Stmt.break_lands (hs : s.isLoop = true) :
    Candidate.Lands ⟨s.span.rangeLocation, .breakInsertion, a⟩ s .insertBreak := by
  refine .here (Operator.make_plain rfl rfl _) rfl fun site target _ => ?_
  obtain ⟨kind, span, ghost⟩ := s
  cases kind <;> simp [Stmt.isLoop] at hs <;>
    simp [Operator.onStmt, target, Stmt.insertBreak]

/-- Every `if` is answered by its `then` branch. -/
theorem Stmt.then_lands (hs : s.isIf = true) :
    Candidate.Lands ⟨s.span.rangeLocation, .branchExtraction, "then"⟩ s
      (.keepBranch .thenBranch) := by
  refine .here (Operator.make_argument rfl (by decide) rfl) rfl fun site target _ => ?_
  obtain ⟨kind, span, ghost⟩ := s
  cases kind <;> simp [Stmt.isIf] at hs
  simp [Operator.onStmt, target, Stmt.keepBranch]

/-- Every `if` with an `else` is answered by it. -/
theorem Stmt.else_lands {branch : Stmt} (hs : s.elseBranch? = some branch) :
    Candidate.Lands ⟨s.span.rangeLocation, .branchExtraction, "else"⟩ s
      (.keepBranch .elseBranch) := by
  refine .here (Operator.make_argument rfl (by decide) rfl) rfl fun site target _ => ?_
  obtain ⟨kind, span, ghost⟩ := s
  cases kind <;> simp [Stmt.elseBranch?] at hs
  simp [Operator.onStmt, target, Stmt.keepBranch, hs]

theorem Span.encloses_trans {r s t : Span} (h : r.encloses s = true) (h' : s.encloses t = true) :
    r.encloses t = true := by
  rw [encloses_iff] at h h' ⊢
  exact ⟨UInt32.le_trans h.1 h'.1, UInt32.le_trans h'.2 h.2⟩

/-- A link below a branch is the branch itself or a link below its own branch. -/
theorem Stmt.mem_elseIfSpans {branch : Option Stmt} {link : Span}
    (h : link ∈ Stmt.elseIfSpans branch) : ∃ t, branch = some t ∧ t.isIf = true ∧
      (link = t.span ∨ link ∈ Stmt.elseIfSpans t.elseBranch?) := by
  cases branch with
  | none => cases h
  | some t =>
    obtain ⟨kind, span, ghost⟩ := t
    cases kind with
    | ifElse guard thenBranch next => exact ⟨_, rfl, rfl, List.mem_cons.1 h⟩
    | _ => cases h

/-- Every link of a chain lies in its statement and can be taken out. -/
theorem Stmt.Nested.unlinks {outer link : Span} (h : s.Nested outer)
    (hl : link ∈ Stmt.elseIfSpans s.elseBranch?) :
    s.span.encloses link = true ∧ ∃ left, s.unlink? link.rangeLocation = some left := by
  induction h with
  | @intro outer s inside _ _ _ _ branch _ ih =>
    obtain ⟨t, next, isIf, own⟩ := Stmt.mem_elseIfSpans hl
    have nested := branch t next
    have lies : t.span.encloses link = true := by
      rcases own with rfl | own
      · exact Span.encloses_iff.2 ⟨UInt32.le_refl _, UInt32.le_refl _⟩
      · exact (ih t next own).1
    refine ⟨Span.encloses_trans nested.encloses lies, ?_⟩
    have below : ∃ left, Stmt.unlinkBelow? link.rangeLocation (some t) = some left := by
      rw [Stmt.unlinkBelow?, Location.range_mayLieIn lies]
      by_cases here : link.rangeLocation.matchesB t.span = true
      · simp [isIf, here]
      · rcases own with rfl | own
        · exact absurd (Location.range_matchesB _) here
        · obtain ⟨left, unlinked⟩ := (ih t next own).2
          simp [here, unlinked]
    obtain ⟨left, unlinked⟩ := below
    obtain ⟨kind, span, ghost⟩ := s
    cases kind <;> simp [Stmt.elseBranch?] at next
    subst next
    simp [Stmt.unlink?, unlinked]

/-- Every `if` with an `else` is answered by the deletion of its head. -/
theorem Stmt.branch_lands {branch : Stmt} (hs : s.elseBranch? = some branch) :
    Candidate.Lands ⟨s.span.rangeLocation, .branchDeletion, a⟩ s .deleteBranch := by
  refine .here (Operator.make_plain rfl rfl _) rfl fun site _ target => ?_
  have isIf : s.isIf = true := by
    obtain ⟨kind, span, ghost⟩ := s
    cases kind <;> simp [Stmt.elseBranch?] at hs
    rfl
  have inside : s.span.rangeLocation.mayLieIn s.span = true := by
    simp [Span.rangeLocation, Location.mayLieIn]
  simp [Operator.onStmt, Stmt.deleteBranch, target, isIf, inside, Location.range_matchesB, hs]

/-- A link deeper in the chain is found from the head, since it lies inside the head. -/
theorem Stmt.link_lands {outer link : Span} (h : s.Nested outer)
    (hl : link ∈ Stmt.elseIfSpans s.elseBranch?) :
    Candidate.Lands ⟨link.rangeLocation, .branchDeletion, a⟩ s .deleteBranch := by
  obtain ⟨lies, left, unlinked⟩ := h.unlinks hl
  obtain ⟨t, next, -⟩ := Stmt.mem_elseIfSpans hl
  have isIf : s.isIf = true := by
    obtain ⟨kind, span, ghost⟩ := s
    cases kind <;> simp [Stmt.elseBranch?] at next
    rfl
  have inside := Location.range_mayLieIn lies
  refine ⟨Operator.make_plain rfl rfl _, rfl, ⟨_, _, rfl⟩, inside, fun site target => ?_⟩
  by_cases here : link.rangeLocation.matchesB s.span = true
  · simp [Operator.onStmt, Stmt.deleteBranch, target, isIf, inside, next, here]
  · simp [Operator.onStmt, Stmt.deleteBranch, target, isIf, inside, unlinked, here]

/-- The text of a default value is read back as a value. -/
theorem Stmt.returnValue?_text {value : Expr} {l : Literal} (h : value.ty.default? = some l) :
    ∃ e, Stmt.returnValue? value l.text = some e := by
  simp [returnValue?, h, (Literal.sayable_default h).read]

/-- The text of the defaults gives every returned value a new one. -/
theorem Stmt.setReturn_defaults {values : List Expr} {defaults : List Literal}
    (h : values.mapM (fun e => e.ty.default?) = some defaults) :
    defaults.length = values.length ∧ ∃ es,
      (values.zip (defaults.map Literal.text)).mapM
        (fun (value, text) => returnValue? value text) = some es := by
  induction values generalizing defaults with
  | nil =>
    cases h
    exact ⟨rfl, [], rfl⟩
  | cons value values ih =>
    simp only [List.mapM_cons, Option.bind_eq_bind, Option.bind_eq_some_iff, Option.pure_def,
      Option.some.injEq] at h
    obtain ⟨l, first, ls, rest, rfl⟩ := h
    obtain ⟨count, es, made⟩ := ih rest
    obtain ⟨e, new⟩ := Stmt.returnValue?_text first
    exact ⟨by simp [count], e :: es, by simp [new, made]⟩

/-- Default values have texts that can be said in one record. -/
theorem Stmt.sayable_defaults {values : List Expr} {defaults : List Literal}
    (h : values.mapM (fun e => e.ty.default?) = some defaults) : ∀ l ∈ defaults, l.Sayable := by
  induction values generalizing defaults with
  | nil =>
    cases h
    simp
  | cons value values ih =>
    simp only [List.mapM_cons, Option.bind_eq_bind, Option.bind_eq_some_iff, Option.pure_def,
      Option.some.injEq] at h
    obtain ⟨l, first, ls, rest, rfl⟩ := h
    exact List.forall_mem_cons.2 ⟨Literal.sayable_default first, ih rest⟩

/-- The text proposed for a `return` is read as the texts of the defaults, and not all of the values
are defaults already. -/
theorem Stmt.make_returnText {values : List Expr} {location : Location}
    (ha : Stmt.returnText? values = some a) :
    ∃ defaults, values.mapM (fun e => e.ty.default?) = some defaults ∧
      ((values.zip defaults).all fun (e, d) => e.literal?.any fun l => l.same d) = false ∧
      Operator.make .returnDefaults (Candidate.argument? ⟨location, .returnDefaults, a⟩) =
        .ok (.setReturn (defaults.map Literal.text)) := by
  simp only [Stmt.returnText?, Option.bind_eq_bind, Option.bind_eq_some_iff] at ha
  obtain ⟨defaults, given, text⟩ := ha
  split at text
  · cases text
  · rename_i changes
    cases text
    have sayable := Stmt.sayable_defaults given
    have nonempty : defaults ≠ [] := by
      rintro rfl
      simp at changes
    refine ⟨defaults, given, Bool.eq_false_iff.2 changes, Operator.make_argument rfl
      (Literal.isBlankText_join sayable nonempty) ?_⟩
    rw [Operator.ofArgument, Literal.readValues_join sayable nonempty]

/-- A `return` whose values all have defaults is answered by those. -/
theorem Stmt.return_lands {values : List Expr} (hs : s.kind = .ret values)
    (ha : Stmt.returnText? values = some a) :
    ∃ op, Candidate.Lands ⟨s.span.rangeLocation, .returnDefaults, a⟩ s op := by
  obtain ⟨defaults, given, -, made⟩ := Stmt.make_returnText ha
  obtain ⟨count, es, new⟩ := Stmt.setReturn_defaults given
  refine ⟨.setReturn (defaults.map Literal.text), .here made rfl fun site target _ => ?_⟩
  simp [Operator.onStmt, target, Stmt.setReturn, hs, count, new]

/-- There are no more cases than there are indices. -/
structure Stmt.Sized (s : Stmt) : Prop where
  cases : ∀ source cases, s.kind = .matchOn source cases → cases.length ≤ UInt64.size

/-- The body of a case is exchanged with the default body, for the first case of that name. -/
theorem Stmt.exchange_lands (legible : s.Legible) {source : Expr} {cases : List MatchCase}
    (hs : s.kind = .matchOn source cases) {i : Nat} {named : MatchCase}
    (here : cases[i]? = some named) (isCtor : named.pattern.ctor? = some a)
    (first : MatchCase.ctorIdx? cases a = some i) (reads : named.readsNoBinding = true)
    (free : ((MatchCase.defaultIdx? cases).bind (cases[·]?)).any MatchCase.readsNoBinding = true) :
    Candidate.Lands ⟨s.span.rangeLocation, .caseReplacement, a⟩ s (.exchangeDefault a) := by
  obtain ⟨default, found, movable⟩ := (Option.any_eq_true _ _).1 free
  obtain ⟨d, last, there⟩ := Option.bind_eq_some_iff.1 found
  have clean : Text.Clean a := by
    cases legible with
    | intro names _ _ =>
      refine names a ?_
      rw [hs, StmtKind.naming, List.mem_flatMap]
      exact ⟨named, List.mem_of_getElem? here, by simp [isCtor]⟩
  refine .here (clean.make rfl rfl) rfl fun site target _ => ?_
  simp [Operator.onStmt, target, Stmt.exchangeDefault, hs, first, last, here, there, reads, movable]

/-- A case whose body reads nothing of its pattern is answered by that body. -/
theorem Stmt.case_lands (sized : s.Sized) {source : Expr} {cases : List MatchCase}
    (hs : s.kind = .matchOn source cases) {i : Nat} {kept : MatchCase}
    (here : cases[i]? = some kept) (reads : kept.readsNoBinding = true) :
    Candidate.Lands ⟨s.span.rangeLocation, .caseExtraction, Text.natText i⟩ s (.keepCase i) := by
  have inside : i < UInt64.size :=
    Nat.lt_of_lt_of_le (List.getElem?_eq_some_iff.1 here).1 (sized.cases source cases hs)
  obtain ⟨read, value, solid⟩ := Operator.read_index inside
  refine .here (Operator.make_argument rfl solid ?_) rfl fun site target _ => ?_
  · simp only [Operator.ofArgument, read, Operator.orElse, value]
  · simp [Operator.onStmt, target, Stmt.keepCase, hs, here, reads]

/-- Both proposals for a match are answered. -/
theorem Stmt.match_lands (legible : s.Legible) (sized : s.Sized) {source : Expr}
    {cases : List MatchCase} (hs : s.kind = .matchOn source cases)
    (hc : c ∈ Stmt.matchProposals s.span cases) : ∃ op, c.Lands s op := by
  simp only [Stmt.matchProposals, View.atRange, List.mem_append, List.mem_map] at hc
  rcases hc with ⟨a, mem, rfl⟩ | ⟨_, ⟨⟨kept, i⟩, mem, rfl⟩, rfl⟩
  · split at mem
    · rename_i free
      obtain ⟨⟨named, i⟩, found, proposed⟩ := List.mem_filterMap.1 mem
      cases isCtor : named.pattern.ctor? with
      | none => simp [isCtor] at proposed
      | some ctor =>
        simp only [isCtor, Option.ite_none_right_eq_some, Option.some.injEq, Bool.and_eq_true,
          decide_eq_true_eq] at proposed
        obtain ⟨⟨first, reads⟩, rfl⟩ := proposed
        exact ⟨_, Stmt.exchange_lands legible hs (List.mem_zipIdx_iff_getElem?.1 found) isCtor
          first reads free⟩
    · cases mem
  · obtain ⟨found, reads⟩ := List.mem_filter.1 mem
    exact ⟨_, Stmt.case_lands sized hs (List.mem_zipIdx_iff_getElem?.1 found) reads⟩

/-- Every proposal for a list element lands on it or deletes one of its locals. -/
theorem Stmt.proposals_land {outer : Span} (nested : s.Nested outer) (legible : s.Legible)
    (sized : s.Sized) (hc : c ∈ s.proposals) : (∃ op, c.Lands s op) ∨
      ∃ n ∈ s.declares, c = ⟨s.span.rangeLocation, .variableDeletion, n⟩ := by
  rcases List.mem_append.1 hc with hc | hc
  · obtain ⟨a, mem, rfl⟩ := List.mem_map.1 hc
    split at mem
    · cases mem
    · rename_i notDecl
      exact .inl ⟨_, Stmt.delete_lands (Bool.eq_false_iff.2 notDecl)⟩
  · unfold Stmt.shapeProposals at hc
    split at hc
    · rename_i d hs
      obtain ⟨n, named, rfl⟩ := List.mem_map.1 hc
      obtain ⟨v, kept, rfl⟩ := List.mem_map.1 named
      refine .inr ⟨v.name, ?_, rfl⟩
      rw [Stmt.declares, hs]
      exact List.mem_map_of_mem (List.mem_filter.1 kept).1
    · rename_i values hs
      obtain ⟨a, text, rfl⟩ := List.mem_map.1 hc
      exact .inl (Stmt.return_lands hs (Option.mem_toList.1 text))
    · rename_i guard thenBranch elseBranch hs
      have isIf : s.isIf = true := by simp [Stmt.isIf, hs]
      have next : s.elseBranch? = elseBranch := by simp [Stmt.elseBranch?, hs]
      rcases List.mem_append.1 hc with hc | hc
      · rcases List.mem_append.1 hc with hc | hc
        · obtain ⟨a, mem, rfl⟩ := List.mem_map.1 hc
          rw [List.mem_singleton.1 mem]
          exact .inl ⟨_, Stmt.then_lands isIf⟩
        · cases elseBranch with
          | none => cases hc
          | some branch =>
            rcases List.mem_append.1 hc with hc | hc
            · obtain ⟨a, mem, rfl⟩ := List.mem_map.1 hc
              rw [List.mem_singleton.1 mem]
              exact .inl ⟨_, Stmt.else_lands next⟩
            · obtain ⟨a, -, rfl⟩ := List.mem_map.1 hc
              exact .inl ⟨_, Stmt.branch_lands next⟩
      · obtain ⟨link, hl, hc⟩ := List.mem_flatMap.1 hc
        obtain ⟨a, -, rfl⟩ := List.mem_map.1 hc
        exact .inl ⟨_, Stmt.link_lands nested (next ▸ hl)⟩
    · rename_i hs
      obtain ⟨a, -, rfl⟩ := List.mem_map.1 hc
      exact .inl ⟨_, Stmt.break_lands (by simp [Stmt.isLoop, hs])⟩
    · rename_i hs
      obtain ⟨a, -, rfl⟩ := List.mem_map.1 hc
      exact .inl ⟨_, Stmt.break_lands (by simp [Stmt.isLoop, hs])⟩
    · rename_i hs
      exact .inl (Stmt.match_lands legible sized hs hc)
    · cases hc

/-- A list with a member that passes a test splits at the first one that does. -/
theorem splitAtFirst_isSome {α : Type} {p : α → Bool} {list : List α} {x : α} (mem : x ∈ list)
    (hx : p x = true) : ∃ parts, splitAtFirst p list = some parts := by
  induction list with
  | nil => cases mem
  | cons y list ih =>
    rw [splitAtFirst]
    split
    · exact ⟨_, rfl⟩
    · rename_i other
      rcases List.mem_cons.1 mem with rfl | mem
      · exact absurd hx other
      · obtain ⟨parts, found⟩ := ih mem
        simp [found]

/-- A deletion at a declaration of the variable is made, or runs out of depth. -/
theorem Stmt.deleteVariable_ends {site : Site} {n : String} {list : List Stmt} (hs : s ∈ list)
    (target : site.isTarget s.span = true) (hn : n ∈ s.declares) :
    (∃ x, (Stmt.deleteVariable site n list).1 = .done x) ∨
      (Stmt.deleteVariable site n list).1 = .refused .cascadeExhausted list := by
  obtain ⟨⟨before, t, after⟩, found⟩ := splitAtFirst_isSome
    (p := fun s => site.isTarget s.span && s.declares.contains n) hs (by simp [target, hn])
  simp only [Stmt.deleteVariable, found]
  split
  · exact .inr rfl
  · exact .inl ⟨_, rfl⟩

variable {m : Module} {owner : String}

/-- A deletion of a variable is proposed at its declaration, and hits the list around it. -/
theorem Stmt.variable_hits {n : String} (legible : s.Legible) (hn : n ∈ s.declares)
    (mem : (owner, .element s) ∈ m.places .executable) (limit : Nat) : ∃ i op,
      Candidate.Hits m limit ⟨s.span.rangeLocation, .variableDeletion, n⟩ i op := by
  obtain ⟨list, home, hs⟩ := Module.exists_list mem
  have clean : Text.Clean n := by
    cases legible with
    | intro names _ _ =>
      refine names n ?_
      obtain ⟨kind, span, ghost⟩ := s
      cases kind <;> first | exact hn | cases hn
  refine ⟨(owner, .stmts list), .deleteVariable n, clean.make rfl rfl, home, ⟨s, hs, ?_⟩, nofun,
    fun _ => ⟨_, _, rfl⟩, ?_⟩
  · simp [Span.rangeLocation, Location.mayLieIn]
  · let site := (m.site ⟨s.span.rangeLocation, .variableDeletion, some n⟩ limit).inside (some owner)
    have target : site.isTarget s.span = true := Location.range_matchesB _
    rcases Stmt.deleteVariable_ends hs target hn with ⟨x, done⟩ | refused
    · exact .inl ⟨x.2, congrArg (Outcome.answer _) done⟩
    · refine .inr ⟨rfl, ⟨owner, list, home, ⟨s, hs, target⟩, ?_⟩, congrArg (Outcome.answer _) refused⟩
      exact Stmt.deleteVariable_exhausted refused

/-- A partner proposed for a local is a later declaration of the list. -/
theorem Stmt.exists_of_mem_exchangesWith {span : Span} {first : Variable × Expr}
    {between : List String} {list : List Stmt} (h : c ∈ Stmt.exchangesWith span first between list) :
    ∃ mid t post second, list = mid ++ t :: post ∧ t.exchangeable? = some second ∧
      Stmt.mayExchange first second (between ++ mid.flatMap Stmt.declares) = true ∧
      c = ⟨span.rangeLocation, .initializerSwap, t.span.rangeLocation.text⟩ := by
  induction list generalizing between with
  | nil => cases h
  | cons t list ih =>
    rcases List.mem_append.1 h with h | h
    · cases found : t.exchangeable? with
      | none => simp [found] at h
      | some second =>
        simp only [found, View.atRange, List.mem_map, View.mem_argumentIf] at h
        obtain ⟨_, ⟨allowed, rfl⟩, rfl⟩ := h
        exact ⟨[], t, list, second, rfl, found, by simpa using allowed, rfl⟩
    · obtain ⟨mid, u, post, second, rfl, found, allowed, rfl⟩ := ih h
      exact ⟨t :: mid, u, post, second, rfl, found, by simpa using allowed, rfl⟩

/-- An exchange of initializers is proposed for two declarations of one list, with regard to all
names that are declared from the first one up to the second. -/
theorem Stmt.exists_of_mem_exchanges {list : List Stmt} (h : c ∈ Stmt.exchanges list) :
    ∃ pre s mid t post first second, list = pre ++ s :: (mid ++ t :: post) ∧
      s.exchangeable? = some first ∧ t.exchangeable? = some second ∧
      Stmt.mayExchange first second ((s :: mid).flatMap Stmt.declares) = true ∧
      c = ⟨s.span.rangeLocation, .initializerSwap, t.span.rangeLocation.text⟩ := by
  induction list with
  | nil => cases h
  | cons s list ih =>
    rcases List.mem_append.1 h with h | h
    · cases found : s.exchangeable? with
      | none => simp [found] at h
      | some first =>
        simp only [found] at h
        obtain ⟨mid, t, post, second, rfl, later, allowed, rfl⟩ :=
          Stmt.exists_of_mem_exchangesWith h
        exact ⟨[], s, mid, t, post, first, second, rfl, found, later, allowed, rfl⟩
    · obtain ⟨pre, s', mid, t, post, first, second, rfl, rest⟩ := ih h
      exact ⟨s :: pre, s', mid, t, post, first, second, rfl, rest⟩

/-- The two declarations have one type. -/
theorem Stmt.mem_exchanges {list : List Stmt} (h : c ∈ Stmt.exchanges list) :
    ∃ s t first second, [s, t].Sublist list ∧ s.exchangeable? = some first ∧
      t.exchangeable? = some second ∧ first.1.ty = second.1.ty ∧
      c = ⟨s.span.rangeLocation, .initializerSwap, t.span.rangeLocation.text⟩ := by
  obtain ⟨pre, s, mid, t, post, first, second, rfl, found, later, allowed, rfl⟩ :=
    Stmt.exists_of_mem_exchanges h
  have order : [s, t].Sublist (s :: (mid ++ t :: post)) :=
    (List.singleton_sublist.2 (by simp)).cons_cons s
  have alike : first.1.ty = second.1.ty := by
    simp only [Stmt.mayExchange, Bool.and_eq_true, decide_eq_true_eq] at allowed
    exact allowed.1.1
  exact ⟨s, t, first, second, order.trans (List.sublist_append_right _ _), found, later, alike, rfl⟩

/-- A declaration that can be exchanged is a plain one. -/
theorem Stmt.simpleDecl?_of_exchangeable {first : Variable × Expr}
    (h : s.exchangeable? = some first) : s.simpleDecl? = some first := by
  unfold Stmt.exchangeable? at h
  split at h
  · cases h
  · exact (Option.filter_eq_some_iff.1 h).1

/-- A declaration is found by its range when no other element has that range. -/
theorem Stmt.declIdx?_of_mem {list : List Stmt} (hs : s ∈ list)
    (single : s.simpleDecl?.isSome = true)
    (only : ∀ t ∈ list, t.span.coincides s.span = true → t = s) :
    ∃ i, Stmt.declIdx? s.span.rangeLocation list = some i ∧ list[i]? = some s := by
  have some : (Stmt.declIdx? s.span.rangeLocation list).isSome = true := by
    rw [Stmt.declIdx?, List.findIdx?_isSome, List.any_eq_true]
    exact ⟨s, hs, by simp [Location.range_matchesB, single]⟩
  obtain ⟨i, found⟩ := Option.isSome_iff_exists.1 some
  obtain ⟨hi, here, -⟩ := List.findIdx?_eq_some_iff_getElem.1 found
  refine ⟨i, found, ?_⟩
  have same := Location.coincides_of_matchesB rfl (Bool.and_eq_true_iff.1 here).1
    (Location.range_matchesB s.span)
  rw [List.getElem?_eq_getElem hi, only _ (List.getElem_mem hi) same]

/-- An exchange of initializers hits its list. -/
theorem Stmt.exchange_hits {list : List Stmt} (unambiguous : m.Unambiguous)
    (nested : ∀ t ∈ list, ∃ outer, t.Nested outer) (hc : c ∈ Stmt.exchanges list)
    (mem : (owner, .stmts list) ∈ m.places .executable) (limit : Nat) :
    ∃ op, c.Hits m limit (owner, .stmts list) op := by
  obtain ⟨s, t, first, second, order, hs, ht, alike, rfl⟩ := Stmt.mem_exchanges hc
  have everywhere := (Module.places_sublist Coverage.executable_le m).subset mem
  have sMem : s ∈ list := order.subset (by simp)
  have tMem : t ∈ list := order.subset (by simp)
  have only (u : Stmt) (hu : u ∈ list) (x : Stmt) (hx : x ∈ list)
      (same : x.span.coincides u.span = true) : x = u :=
    (unambiguous.stmt_eq everywhere everywhere hx hu List.mem_cons_self List.mem_cons_self same).2.2
  have simpleS := Stmt.simpleDecl?_of_exchangeable hs
  have simpleT := Stmt.simpleDecl?_of_exchangeable ht
  obtain ⟨i, foundS, hereS⟩ := Stmt.declIdx?_of_mem sMem (by simp [simpleS]) (only s sMem)
  obtain ⟨j, foundT, hereT⟩ := Stmt.declIdx?_of_mem tMem (by simp [simpleT]) (only t tMem)
  have anchored : t.span.anchoredB = true := by
    obtain ⟨_, h⟩ := nested t tMem
    cases h with
    | intro _ anchored _ _ _ _ => exact anchored
  obtain ⟨low, high⟩ := Span.anchoredB_iff.1 anchored
  have differ : i ≠ j := by
    rintro rfl
    obtain rfl := Option.some.inj (hereS.symm.trans hereT)
    have apart : s.span.coincides s.span = false :=
      List.rel_of_pairwise_cons ((Module.StmtsApart.list unambiguous.stmts everywhere).sublist order)
        List.mem_cons_self
    simp [Span.coincides] at apart
  refine ⟨.swapInits t.span.start t.span.stop, ?_, mem, ⟨s, sMem, ?_⟩, by rintro ⟨⟩,
    fun _ => ⟨_, _, rfl⟩, .inl ⟨s.span, ?_⟩⟩
  · refine Operator.make_argument rfl ?_ ?_
    · refine Text.isBlankText_eq_false (c := '-') ?_ rfl
      simp [Location.text, Location.chars, Span.rangeLocation]
    · simp [Operator.ofArgument, Operator.readRange_text (UInt32.le_trans low high), Except.map]
  · simp [Span.rangeLocation, Location.mayLieIn]
  · change Stmt.declIdx? (.range t.span.start t.span.stop) list = some j at foundT
    have swapped : Stmt.swapInits s.span.rangeLocation (.range t.span.start t.span.stop) list =
        .done ((list.set i (s.withValue second.2)).set j (t.withValue first.2), s.span) := by
      simp [Stmt.swapInits, foundS, foundT, differ, hereS, hereT, simpleS, simpleT, alike]
    exact congrArg (Outcome.answer _) swapped

/-- A member that can be exchanged is a method with a body. -/
theorem Member.exchangeable?_eq_some {x : Member} {d : Method} (h : x.exchangeable? = some d) :
    x.method? = some d ∧ d.body.isSome = true := by
  obtain ⟨found, suits⟩ := Option.filter_eq_some_iff.1 h
  exact ⟨found, (Bool.and_eq_true_iff.1 suits).2⟩

/-- An exchange of bodies is proposed for two methods of one list. -/
theorem Member.mem_exchanges {list : List Member} (h : c ∈ Member.exchanges list) :
    ∃ a b, [a, b].Sublist (list.filterMap Member.method?) ∧ a.body.isSome = true ∧
      b.body.isSome = true ∧ a.sameFormalsAs b = true ∧
      c = ⟨a.span.rangeLocation, .bodySwap, b.name⟩ := by
  induction list with
  | nil => cases h
  | cons x list ih =>
    rcases List.mem_append.1 h with h | h
    · cases found : x.exchangeable? with
      | none => simp [found] at h
      | some a =>
        simp only [found] at h
        obtain ⟨_, named, rfl⟩ := List.mem_map.1 h
        obtain ⟨b, mem, rfl⟩ := List.mem_map.1 named
        obtain ⟨given, alike⟩ := List.mem_filter.1 mem
        obtain ⟨y, hy, later⟩ := List.mem_filterMap.1 given
        obtain ⟨isA, bodyA⟩ := Member.exchangeable?_eq_some found
        obtain ⟨isB, bodyB⟩ := Member.exchangeable?_eq_some later
        refine ⟨a, b, ?_, bodyA, bodyB, alike, rfl⟩
        rw [List.filterMap_cons_some isA]
        exact (List.singleton_sublist.2 (List.mem_filterMap.2 ⟨y, hy, isB⟩)).cons_cons a
    · obtain ⟨a, b, order, rest⟩ := ih h
      exact ⟨a, b, order.trans ((List.sublist_cons_self x list).filterMap _), rest⟩

/-- A method is found by a property that no other method of its list has. -/
theorem Member.findIdx?_of_mem {list : List Member} {p : Member → Bool} {a : Method}
    (ha : a ∈ list.filterMap Member.method?) (own : p (.method a) = true)
    (only : ∀ b ∈ list.filterMap Member.method?, p (.method b) = true → b = a) :
    ∃ i, list.findIdx? (fun x => x.method?.isSome && p x) = some i ∧
      list[i]? = some (.method a) := by
  have method (x : Member) (d : Method) (h : x.method? = some d) : x = .method d := by
    cases x <;> cases h
    rfl
  obtain ⟨x, hx, isA⟩ := List.mem_filterMap.1 ha
  obtain rfl := method x a isA
  have some : (list.findIdx? fun x => x.method?.isSome && p x).isSome = true := by
    rw [List.findIdx?_isSome, List.any_eq_true]
    exact ⟨_, hx, by simp [isA, own]⟩
  obtain ⟨i, found⟩ := Option.isSome_iff_exists.1 some
  obtain ⟨hi, here, -⟩ := List.findIdx?_eq_some_iff_getElem.1 found
  refine ⟨i, found, ?_⟩
  obtain ⟨isMethod, suits⟩ := Bool.and_eq_true_iff.1 here
  obtain ⟨b, isB⟩ := Option.isSome_iff_exists.1 isMethod
  have same := method _ b isB
  rw [same] at suits
  rw [List.getElem?_eq_getElem hi, same,
    only b (List.mem_filterMap.2 ⟨_, List.getElem_mem hi, isB⟩) suits]

/-- An exchange of bodies hits its list. -/
theorem Member.exchange_hits {list : List Member} (unambiguous : m.Unambiguous)
    (legible : ∀ x ∈ list, x.Legible) (hc : c ∈ Member.exchanges list)
    (mem : (owner, .members list) ∈ m.places .executable) (limit : Nat) :
    ∃ op, c.Hits m limit (owner, .members list) op := by
  obtain ⟨a, b, order, bodyA, bodyB, alike, rfl⟩ := Member.mem_exchanges hc
  have everywhere := (Module.places_sublist Coverage.executable_le m).subset mem
  have aMem : a ∈ list.filterMap Member.method? := order.subset (by simp)
  have bMem : b ∈ list.filterMap Member.method? := order.subset (by simp)
  have spans : (list.filterMap Member.method?).Pairwise fun a b =>
      a.span.coincides b.span = false :=
    (List.pairwise_flatMap.1 unambiguous.methods).1 _ everywhere
  have names : ((list.filterMap Member.method?).map (·.name)).Nodup :=
    unambiguous.names _ everywhere
  have symm : Std.Symm fun a b : Method => a.span.coincides b.span = false :=
    ⟨fun a b h => by rwa [Span.coincides_comm]⟩
  obtain ⟨i, foundA, hereA⟩ := Member.findIdx?_of_mem
    (p := fun x => a.span.rangeLocation.matchesB x.span) aMem (Location.range_matchesB _) (by
      intro d hd here
      by_contra other
      have same : d.span.coincides a.span = true :=
        Location.coincides_of_matchesB rfl here (Location.range_matchesB a.span)
      rw [spans.forall hd aMem other] at same
      cases same)
  obtain ⟨j, foundB, hereB⟩ := Member.findIdx?_of_mem (p := fun x => x.name == b.name) bMem
    (beq_self_eq_true _) fun d hd same => List.inj_on_of_nodup_map names hd bMem (beq_iff_eq.1 same)
  have differ : i ≠ j := by
    rintro rfl
    cases hereA.symm.trans hereB
    have := List.rel_of_pairwise_cons (spans.sublist order) List.mem_cons_self
    simp [Span.coincides] at this
  have clean : Text.Clean b.name := (legible _ (List.mem_of_getElem? hereB)).name
  refine ⟨.swapBodies b.name, clean.make rfl rfl, mem,
    ⟨.method a, List.mem_of_getElem? hereA, ?_⟩, by rintro ⟨⟩, fun _ => ⟨_, _, rfl⟩,
    .inl ⟨a.span, ?_⟩⟩
  · simp [Span.rangeLocation, Location.mayLieIn, Member.span]
  · have swapped : Member.swapBodies a.span.rangeLocation b.name list =
        .done ((list.set i (.method { a with body := b.body })).set j
          (.method { b with body := a.body }), a.span) := by
      have isA : list[i]?.bind Member.method? = some a := by rw [hereA]; rfl
      have isB : list[j]?.bind Member.method? = some b := by rw [hereB]; rfl
      simp [Member.swapBodies, foundA, foundB, differ, isA, isB, alike, bodyA, bodyB]
    exact congrArg (Outcome.answer _) swapped

/-- The candidate gives a new value to a real literal. -/
def Candidate.OnReal (m : Module) (c : Candidate) : Prop :=
  c.kind = .literalReplacement ∧ ∃ owner e x, (owner, .expr e) ∈ m.places .executable ∧
    c.location.matchesB e.span = true ∧ e.kind = .literal (.real x)

/-- No list of the executable code that an argument may index is longer than there are indices. -/
structure Module.Sized (m : Module) : Prop where
  exprs : ∀ owner e, (owner, .expr e) ∈ m.places .executable → e.Sized
  stmts : ∀ owner s, (owner, .element s) ∈ m.places .executable → s.Sized

/-- Every candidate of a scan hits a place. -/
theorem Module.exists_hits {o : ScanOptions} (spanned : m.WellSpanned)
    (unambiguous : m.Unambiguous) (legible : m.Legible) (sized : m.Sized)
    (filled : o.sentinel ≠ "") (hc : c ∈ m.scan o) (real : ¬c.OnReal m) (limit : Nat) :
    ∃ i op, c.Hits m limit i op := by
  obtain ⟨⟨owner, p⟩, mem, v, fits, proposed⟩ := Module.exists_of_mem_scan hc
  have named := hereditary_legible.place legible.members mem
  have nested := hereditary_nested.place (fun d hd x hx => ⟨_, spanned.members d hd x hx⟩) mem
  cases p with
  | members list =>
    obtain ⟨op, hits⟩ := Member.exchange_hits unambiguous named proposed mem limit
    exact ⟨_, op, hits⟩
  | stmts list =>
    obtain ⟨op, hits⟩ := Stmt.exchange_hits unambiguous nested proposed mem limit
    exact ⟨_, op, hits⟩
  | element s =>
    obtain ⟨outer, inside⟩ := nested
    rcases Stmt.proposals_land inside named (sized.stmts owner s mem) proposed with
      ⟨op, lands⟩ | ⟨n, declares, rfl⟩
    · exact ⟨_, op, lands.hits mem limit⟩
    · exact Stmt.variable_hits named declares mem limit
  | expr e =>
    obtain ⟨outer, ⟨_, anchored, _⟩⟩ := nested
    obtain ⟨op, reaches⟩ := View.expr_reaches fits legible (sized.exprs owner e mem) filled
      (fun literal x he => real ⟨literal, owner, e, x, mem, (View.mem_expr proposed).1, he⟩) proposed
    exact ⟨_, op, reaches.hits fits mem anchored limit⟩

/-- Every candidate of a scan can be carried out, except that the deletion of a variable may be
given up in a list with more locals than it may take in. -/
theorem Module.mutate_candidate {o : ScanOptions} (spanned : m.WellSpanned)
    (unambiguous : m.Unambiguous) (legible : m.Legible) (sized : m.Sized)
    (filled : o.sentinel ≠ "") (hc : c ∈ m.scan o) (real : ¬c.OnReal m) (limit : Nat) :
    ∃ x, m.mutate c.request limit = .ok x ∧ (x.report.isApplied = true ∨
      c.kind = .variableDeletion ∧ c.Crowded m limit ∧ x.report.isApplied = false ∧
        x.report.refusal = some .cascadeExhausted) := by
  obtain ⟨i, op, hits⟩ := Module.exists_hits spanned unambiguous legible sized filled hc real limit
  exact hits.applied spanned unambiguous

end

/-- The name of the local with this number. -/
def Stmt.localName (k : Nat) : String := "v" ++ Text.natText k

/-- The declaration of the local with this number, which depends on the one before. -/
def Stmt.dependent (k : Nat) : Stmt :=
  .declaring (localName k) (if k = 0 then .this else .name (localName (k - 1)))
    (.ofNat (10 + 2 * k))

/-- A method with 66 locals, each of which but the first depends on the one before. -/
def Module.cascade : Module :=
  ⟨"m", [.class
    { name := "C"
      span := .range 0 1000
      members := [.method
        { name := "f"
          params := []
          span := .range 1 999
          body := some ⟨(List.range 66).map Stmt.dependent, .range 3 998⟩ }] }]⟩

theorem Stmt.dependent_nested {k : Nat} (h : k < 66) : (dependent k).Nested (.range 3 998) := by
  have spans : ∀ k < 66, (Span.range 3 998).encloses (dependent k).span = true ∧
      (dependent k).span.anchoredB = true ∧
      (dependent k).span.encloses (.token (.ofNat (10 + 2 * k) + 1)) = true := by
    decide
  obtain ⟨inside, anchored, value⟩ := spans k h
  refine .intro inside anchored (fun e he => ?_) nofun nofun nofun
  obtain rfl := List.mem_singleton.1 he
  refine .intro value (by simp [Span.anchoredB, Span.token]) fun c hc => ?_
  dsimp only at hc
  split at hc <;> cases hc

theorem Stmt.clean_localName (k : Nat) : Text.Clean (localName k) := by
  have solid : ∀ c ∈ (localName k).toList, Text.isBlank c = false := by
    intro c hc
    simp only [localName, Text.natText, String.toList_append, String.toList_ofList,
      List.mem_append] at hc
    rcases hc with letter | digit
    · obtain rfl := List.mem_singleton.1 letter
      decide
    · exact Text.isBlank_of_isDigit (Text.isDigit_of_mem_natChars digit)
  have letter : 'v' ∈ (localName k).toList := by simp [localName]
  refine ⟨Text.isBlankText_eq_false letter (by decide), ?_⟩
  rw [Text.trim, Text.trimChars_of_solid solid, String.ofList_toList]

theorem Stmt.dependent_legible (k : Nat) : (dependent k).Legible := by
  refine .intro (fun n hn => ?_) nofun nofun
  obtain rfl := List.mem_singleton.1 hn
  exact clean_localName k

/-- The long cascade has the spans of a parsed program. -/
theorem Module.cascade_wellSpanned : cascade.WellSpanned where
  anchored := by decide
  members := by
    intro d hd x hx
    obtain rfl := List.mem_singleton.1 hd
    obtain rfl := List.mem_singleton.1 hx
    refine ⟨by decide, by decide, ?_, nofun⟩
    rintro _ ⟨⟩ _ ⟨⟩
    refine ⟨by decide, by decide, fun s hs => ?_⟩
    obtain ⟨k, hk, rfl⟩ := List.mem_map.1 hs
    exact Stmt.dependent_nested (List.mem_range.1 hk)

/-- Its names and texts can be read back. -/
theorem Module.cascade_legible : cascade.Legible where
  members := by
    intro d hd x hx
    obtain rfl := List.mem_singleton.1 hd
    obtain rfl := List.mem_singleton.1 hx
    refine ⟨⟨by decide, by decide⟩, nofun, ?_⟩
    rintro _ ⟨⟩ _ ⟨⟩ s hs
    obtain ⟨k, -, rfl⟩ := List.mem_map.1 hs
    exact Stmt.dependent_legible k
  ctors := nofun

/-- Spans that start one behind the other do not coincide. -/
theorem Span.apart_of_rising {spans : List Span} (rising : (spans.map start).IsChain (· < ·)) :
    spans.Pairwise fun s t => s.coincides t = false := by
  refine (List.pairwise_map.1 (List.isChain_iff_pairwise.1 rising)).imp fun h => ?_
  simp [coincides, UInt32.ne_of_lt h]

/-- Expressions that start in different positions and are anchored there are distinct. -/
theorem Expr.Distinct.of_starts {e f : Expr} (he : e.span.anchor = e.span.start)
    (hf : f.span.anchor = f.span.start) (h : e.span.start ≠ f.span.start) : e.Distinct f := by
  have apart : e.span.coincides f.span = false := by simp [Span.coincides, h]
  exact ⟨fun _ => by rwa [he, hf], fun _ => apart, fun _ _ => apart, fun _ _ => apart⟩

/-- Its nodes start one behind the other, so that there is no need to compare them in pairs. -/
theorem Module.cascade_unambiguous : cascade.Unambiguous where
  exprs := by
    have rising : (((cascade.places .everything).filterMap fun i => i.2.expr?).map fun e =>
        e.span.start).IsChain (· < ·) := by
      decide +kernel
    have anchored : ∀ e ∈ (cascade.places .everything).filterMap fun i => i.2.expr?,
        e.span.anchor = e.span.start := by
      decide +kernel
    have ordered := List.pairwise_filterMap.1
      (List.pairwise_map.1 (List.isChain_iff_pairwise.1 rising))
    refine List.Pairwise.imp_of_mem (fun {i j} hi hj lt e f he hf => ?_) ordered
    have found : i.2.expr? = some e := by rw [he, Place.expr?]
    have found' : j.2.expr? = some f := by rw [hf, Place.expr?]
    exact .of_starts (anchored e (List.mem_filterMap.2 ⟨i, hi, found⟩))
      (anchored f (List.mem_filterMap.2 ⟨j, hj, found'⟩)) (UInt32.ne_of_lt (lt e found f found'))
  stmts := Span.apart_of_rising (by decide +kernel)
  methods := List.pairwise_singleton ..
  names := by decide +kernel

/-- No argument indexes a part of the place. -/
def Place.unindexed : Place → Bool
  | .expr e => e.kind.shape ≠ .call && e.kind.shape ≠ .tupleIndex
  | .element s => s.kind.lists.isEmpty
  | _ => true

/-- A module in which nothing is addressed by an index has no index that is too large. -/
theorem Module.sized_of_unindexed {m : Module}
    (h : ∀ i ∈ m.places .executable, i.2.unindexed = true) : m.Sized where
  exprs := by
    intro owner e mem
    have plain := h _ mem
    simp only [Place.unindexed, Bool.and_eq_true, decide_eq_true_eq] at plain
    exact ⟨fun _ _ _ he => absurd (by rw [he]; rfl) plain.1,
      fun _ _ _ he => absurd (by rw [he]; rfl) plain.2⟩
  stmts := by
    intro owner s mem
    have plain := h _ mem
    refine ⟨fun source cases hs => ?_⟩
    simp only [Place.unindexed, hs, StmtKind.lists, List.isEmpty_map, List.isEmpty_iff] at plain
    simp [plain]

/-- Nothing in the long cascade is addressed by an index. -/
theorem Module.cascade_sized : cascade.Sized :=
  sized_of_unindexed (List.all_eq_true.1 (by rfl))

/-- What a local of the cascade suggests is proposed. -/
theorem Module.cascade_offers {k : Nat} (h : k < 66) {c : Candidate}
    (hc : c ∈ (Stmt.dependent k).proposals) : c ∈ cascade.scan {} := by
  have held : .element (Stmt.dependent k) ∈ Block.placesOpt .executable
      (some ⟨(List.range 66).map Stmt.dependent, .range 3 998⟩) := by
    rw [Block.placesOpt, Block.places_eq]
    exact List.mem_cons_of_mem _ (Stmt.mem_placesList.2
      ⟨_, List.mem_map_of_mem (List.mem_range.2 h), ⟨rfl, rfl⟩, .inl rfl⟩)
  have placed : ("C", .element (Stmt.dependent k)) ∈ cascade.places .executable :=
    Decl.mem_placesList.2 ⟨_, List.mem_singleton_self _, rfl, List.mem_cons_of_mem _
      (Member.mem_placesList.2 ⟨_, List.mem_singleton_self _,
        Member.mem_places.2 ⟨⟨rfl, rfl⟩, List.mem_append_right _ held⟩⟩)⟩
  have unbranched : cascade.elseBranches = [] := by rfl
  rcases (cascade.scan_offers {}).complete _ placed with ⟨b, hb, -⟩ | ⟨v, -, all⟩
  · rw [unbranched] at hb
    cases hb
  · exact all c hc rfl

/-- The deletion of the last local of the cascade. -/
def Candidate.deleteLast : Candidate := ⟨.range 140 141, .variableDeletion, "v65"⟩

/-- The deletion of the first local of the cascade. -/
def Candidate.deleteFirst : Candidate := ⟨.range 10 11, .variableDeletion, "v0"⟩

/-- The deletion of a local on which nothing depends is proposed and carried out. -/
theorem Module.cascade_mutate_last : Candidate.deleteLast ∈ cascade.scan {} ∧
    ∃ x, cascade.mutate Candidate.deleteLast.request defaultCascadeLimit = .ok x ∧
      x.report.isApplied = true := by
  have proposed : Candidate.deleteLast ∈ cascade.scan {} :=
    cascade_offers (k := 65) (by decide) (by decide)
  have given : (cascade.mutate Candidate.deleteLast.request defaultCascadeLimit).map (fun x =>
      x.report.isApplied) = .ok true := by
    decide +kernel
  obtain ⟨x, ok, applied | ⟨-, -, missed, -⟩⟩ := Module.mutate_candidate cascade_wellSpanned
    cascade_unambiguous cascade_legible cascade_sized (by decide) proposed
    (fun real => by cases real.1) defaultCascadeLimit
  · exact ⟨proposed, x, ok, applied⟩
  · rw [ok] at given
    simp [Except.map, missed] at given

/-- The deletion of the first local is proposed, but takes in the 65 others one after the other and
is given up. -/
theorem Module.cascade_mutate_first : cascade.WellSpanned ∧ cascade.Unambiguous ∧
    cascade.Legible ∧ cascade.Sized ∧ Candidate.deleteFirst ∈ cascade.scan {} ∧
    ¬∃ x, cascade.mutate Candidate.deleteFirst.request defaultCascadeLimit = .ok x ∧
      x.report.isApplied = true := by
  have given : (cascade.mutate Candidate.deleteFirst.request defaultCascadeLimit).map (fun x =>
      x.report.isApplied) = .ok false := by
    decide +kernel
  refine ⟨cascade_wellSpanned, cascade_unambiguous, cascade_legible, cascade_sized,
    cascade_offers (k := 0) (by decide) (by decide), ?_⟩
  rintro ⟨x, ok, applied⟩
  rw [ok] at given
  simp [Except.map, applied] at given

end Mutation
