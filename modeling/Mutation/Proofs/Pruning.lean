import Mathlib.Data.List.Find
import Mutation.Proofs.Agreement
import Mutation.Proofs.FirstSlot

/-!
# Pruning

A search enters only spans in which its target may lie. In a module with nested spans that makes
no difference: an operator answers only at a place in which its target may lie
(`Operator.holds_of_answers`), and so that the target may lie in every node around that place
(`Exchanged.mayLieIn`). So the first slot at which the operator does not pass is the same with and
without pruning, and so is what comes of the request (`Module.mutate_unpruned`).
-/

namespace Mutation

/-- The spans of the piece and of what is inside are nested. -/
def Piece.Nested : Piece → Prop
  | .expr e => ∃ outer, e.Nested outer
  | .stmt s => ∃ outer, s.Nested outer
  | .stmts list => ∃ area, ∀ s ∈ list, s.Nested area
  | .member m => ∃ outer, m.Nested outer
  | .members list => ∃ outer, ∀ m ∈ list, m.Nested outer
  | .decl d => ∀ m ∈ d.members, m.Nested d.span
  | .module m => m.WellSpanned

/-- The target may lie in the piece; in a list, in one of its elements. -/
def Piece.MayHold (target : Location) : Piece → Prop
  | .expr e => target.mayLieIn e.span = true
  | .stmt s => target.mayLieIn s.span = true
  | .stmts list => ∃ s ∈ list, target.mayLieIn s.span = true
  | .member m => target.mayLieIn m.span = true
  | .members list => ∃ m ∈ list, target.mayLieIn m.span = true
  | .decl d => target.mayLieIn d.span = true
  | .module _ => True

section

variable {target : Location}

/-- What may lie in an expression of a statement may lie in the statement. -/
theorem Stmt.Nested.mayHold_expr {s : Stmt} {e : Expr} (nested : ∃ outer, s.Nested outer)
    (he : e ∈ s.kind.exprs .everything) (may : target.mayLieIn e.span = true) :
    target.mayLieIn s.span = true := by
  obtain ⟨outer, _, _, exprs, _, _, _⟩ := nested
  exact Location.mayLieIn_of_encloses (exprs e he).encloses may

/-- What may lie in a statement of a list may lie in what holds the list, and in the statement
around that. -/
theorem Stmt.Nested.mayHold_list {s : Stmt} {area : Span} {list : List Stmt}
    (nested : ∃ outer, s.Nested outer) (held : (area, list) ∈ s.kind.lists)
    (may : ∃ t ∈ list, target.mayLieIn t.span = true) :
    target.mayLieIn area = true ∧ target.mayLieIn s.span = true := by
  obtain ⟨outer, _, _, _, areas, lists, _⟩ := nested
  obtain ⟨t, ht, may⟩ := may
  have inner := Location.mayLieIn_of_encloses (lists _ held t ht).encloses may
  exact ⟨inner, Location.mayLieIn_of_encloses (areas _ held).1 inner⟩

theorem Stmt.Nested.list {s : Stmt} {area : Span} {list : List Stmt}
    (nested : ∃ outer, s.Nested outer) (held : (area, list) ∈ s.kind.lists) :
    ∃ area, ∀ t ∈ list, t.Nested area := by
  obtain ⟨outer, _, _, _, _, lists, _⟩ := nested
  exact ⟨area, lists _ held⟩

theorem Stmt.Nested.expr {s : Stmt} {e : Expr} (nested : ∃ outer, s.Nested outer)
    (he : e ∈ s.kind.exprs .everything) : ∃ outer, e.Nested outer := by
  obtain ⟨outer, _, _, exprs, _, _, _⟩ := nested
  exact ⟨s.span, exprs e he⟩

theorem StmtKind.mem_lists_case {source : Expr} {pre post : List MatchCase} {pattern : Pattern}
    {list : List Stmt} {area : Span} :
    (area, list) ∈ (matchOn source (pre ++ ⟨pattern, list, area⟩ :: post)).lists := by
  simp [lists]

/-- What a nested piece holds is nested. -/
theorem Carries.nested {spans : List Span} {c c' x x' : Piece} (hc : Carries spans c c' x x')
    (nested : x.Nested) : c.Nested := by
  cases hc with
  | part _ split =>
    obtain ⟨outer, _, _, parts⟩ := nested
    exact ⟨_, parts _ (by simp [split])⟩
  | target _ | value | init | expr | ret | ifGuard | whileGuard | forStart | forStop | matchSource
  | assert | assume | print =>
    exact Stmt.Nested.expr nested (by simp [StmtKind.exprs, Coverage.everything])
  | thenBranch | whileBody | forBody | block =>
    exact Stmt.Nested.list nested (List.mem_singleton.2 rfl)
  | caseBody => exact Stmt.Nested.list nested StmtKind.mem_lists_case
  | elseBranch =>
    obtain ⟨outer, _, _, _, _, _, branch⟩ := nested
    exact ⟨_, branch _ rfl⟩
  | element =>
    obtain ⟨area, nested⟩ := nested
    exact ⟨area, nested _ (by simp)⟩
  | methodBody body =>
    obtain ⟨outer, nested⟩ := nested
    exact ⟨_, (nested.block _ rfl _ body).stmts⟩
  | functionBody body =>
    obtain ⟨outer, nested⟩ := nested
    exact ⟨_, nested.value _ rfl _ body⟩
  | member =>
    obtain ⟨outer, nested⟩ := nested
    exact ⟨outer, nested _ (by simp)⟩
  | «class» | datatype => exact ⟨_, nested⟩
  | decl => exact nested.members _ (by simp)

/-- What may lie in a part may lie in the nodes around it. -/
theorem Carries.mayHold {spans : List Span} {c c' x x' : Piece} (hc : Carries spans c c' x x')
    (nested : x.Nested) (may : c.MayHold target) :
    x.MayHold target ∧ ∀ span ∈ spans, target.mayLieIn span = true := by
  cases hc with
  | part _ split =>
    obtain ⟨outer, _, _, parts⟩ := nested
    have lies := Location.mayLieIn_of_encloses (parts _ (by simp [split])).encloses may
    exact ⟨lies, List.forall_mem_singleton.2 lies⟩
  | target _ | value | init | expr | ret | ifGuard | whileGuard | forStart | forStop | matchSource
  | assert | assume | print =>
    have lies := Stmt.Nested.mayHold_expr nested
      (by simp [StmtKind.exprs, Coverage.everything]) may
    exact ⟨lies, List.forall_mem_singleton.2 lies⟩
  | thenBranch | whileBody | forBody | block =>
    obtain ⟨inner, lies⟩ := Stmt.Nested.mayHold_list nested (List.mem_singleton.2 rfl) may
    exact ⟨lies, List.forall_mem_cons.2 ⟨lies, List.forall_mem_singleton.2 inner⟩⟩
  | caseBody =>
    obtain ⟨inner, lies⟩ := Stmt.Nested.mayHold_list nested StmtKind.mem_lists_case may
    exact ⟨lies, List.forall_mem_cons.2 ⟨lies, List.forall_mem_singleton.2 inner⟩⟩
  | elseBranch =>
    obtain ⟨outer, _, _, _, _, _, branch⟩ := nested
    have lies := Location.mayLieIn_of_encloses (branch _ rfl).encloses may
    exact ⟨lies, List.forall_mem_singleton.2 lies⟩
  | element => exact ⟨⟨_, by simp, may⟩, by simp⟩
  | methodBody body =>
    obtain ⟨outer, nested⟩ := nested
    obtain ⟨t, ht, may⟩ := may
    have block := nested.block _ rfl _ body
    have inner := Location.mayLieIn_of_encloses (block.stmts t ht).encloses may
    have lies := Location.mayLieIn_of_encloses block.inside inner
    exact ⟨lies, List.forall_mem_cons.2 ⟨lies, List.forall_mem_singleton.2 inner⟩⟩
  | functionBody body =>
    obtain ⟨outer, nested⟩ := nested
    have lies := Location.mayLieIn_of_encloses (nested.value _ rfl _ body).encloses may
    exact ⟨lies, List.forall_mem_singleton.2 lies⟩
  | member => exact ⟨⟨_, by simp, may⟩, by simp⟩
  | «class» | datatype =>
    obtain ⟨t, ht, may⟩ := may
    have lies := Location.mayLieIn_of_encloses (nested t ht).inside may
    exact ⟨lies, List.forall_mem_singleton.2 lies⟩
  | decl => exact ⟨trivial, by simp⟩

/-- The target may lie in all nodes around a place that it may lie in. -/
theorem Exchanged.mayLieIn {p : Place} {new : p.Content} {spans : List Span} {x x' : Piece}
    (h : Exchanged p new spans x x') (nested : x.Nested) (holds : p.Holds target) :
    x.MayHold target ∧ ∀ span ∈ spans, target.mayLieIn span = true := by
  induction h with
  | members | stmts => exact ⟨holds, by simp⟩
  | element => exact ⟨⟨_, by simp, holds⟩, List.forall_mem_singleton.2 holds⟩
  | expr => exact ⟨holds, List.forall_mem_singleton.2 holds⟩
  | inside hc _ ih =>
    obtain ⟨may, inner⟩ := ih (hc.nested nested) holds
    obtain ⟨may, outer⟩ := hc.mayHold nested may
    exact ⟨may, List.forall_mem_append.2 ⟨outer, inner⟩⟩

end

theorem Expr.Nested.anchored {outer : Span} {e : Expr} (h : e.Nested outer) :
    e.span.anchoredB = true := by
  cases h with
  | intro _ anchored _ => exact anchored

theorem Stmt.Nested.anchored {outer : Span} {s : Stmt} (h : s.Nested outer) :
    s.span.anchoredB = true := by
  cases h with
  | intro _ anchored _ _ _ _ => exact anchored

/-- An operator answers only at places in which its target may lie. -/
theorem Operator.holds_of_answers {op : Operator} {site : Site} {p : Place}
    (nested : p.All (fun m => ∃ outer, m.Nested outer) (fun s => ∃ outer, s.Nested outer)
      fun e => ∃ outer, e.Nested outer) (answers : (op.onPlace site p).answers = true) :
    p.Holds site.target := by
  cases p with
  | members list =>
    rw [Operator.onPlace, Outcome.answers_answer] at answers
    obtain ⟨d, hd, here⟩ := Operator.method_of_answers answers
    obtain ⟨m, hm, method⟩ := List.mem_filterMap.1 hd
    obtain ⟨outer, nested⟩ := nested m hm
    have same : m.span = d.span := by
      cases m <;> cases method
      rfl
    rw [← same] at here
    exact ⟨m, hm, Location.mayLieIn_of_matchesB nested.anchored here⟩
  | stmts list =>
    rw [Operator.onPlace, Outcome.answers_answer] at answers
    obtain ⟨s, hs, here⟩ := Operator.element_of_answers answers
    obtain ⟨outer, nested⟩ := nested s hs
    exact ⟨s, hs, Location.mayLieIn_of_matchesB nested.anchored here⟩
  | element s =>
    rw [Operator.onPlace, Outcome.answers_answer] at answers
    obtain ⟨outer, nested⟩ := nested
    cases here : site.isTarget s.span with
    | true => exact Location.mayLieIn_of_matchesB nested.anchored here
    | false =>
      -- only the deletion of a branch looks further than the element itself
      cases op with
      | deleteBranch =>
        rw [onStmt, Stmt.deleteBranch] at answers
        split at answers
        · rename_i inside
          exact (Bool.and_eq_true_iff.1 inside).2
        · cases answers
      | _ => simp [onStmt, here] at answers
  | expr e =>
    rw [Operator.onPlace, Outcome.answers_answer] at answers
    obtain ⟨outer, nested⟩ := nested
    exact Location.mayLieIn_of_matchesB nested.anchored (Operator.shape_of_answers answers).1

/-- How a search ends at a slot does not depend on how it came there. -/
theorem Slot.Ended.eq {α : Type} {op : Operator} {site : Option String → Site} {a b c : α}
    {x : Slot α} {s t : Search} (h : x.Ended op site a b s) (h' : x.Ended op site a c t) :
    b = c ∧ s.found = t.found ∧ s.span = t.span ∧ s.refusal = t.refusal := by
  rcases h with ⟨new, span, done, rfl, found, reported, refusal⟩ |
    ⟨reason, refused, rfl, found, reported, refusal⟩
  · rcases h' with ⟨new', span', done', rfl, found', reported', refusal'⟩ | ⟨_, refused, _⟩
    · rw [done] at done'
      cases done'
      exact ⟨rfl, found.trans found'.symm, reported.trans reported'.symm,
        refusal.trans refusal'.symm⟩
    · rw [done] at refused
      cases refused
  · rcases h' with ⟨_, _, done, _⟩ | ⟨reason', refused', rfl, found', reported', refusal'⟩
    · rw [refused] at done
      cases done
    · rw [refused] at refused'
      cases refused'
      exact ⟨rfl, found.trans found'.symm, reported.trans reported'.symm,
        refusal.trans refusal'.symm⟩

/-- The first slot at which the operator does not pass is the same with and without pruning. -/
theorem Module.firstSlot?_unpruned {m : Module} (nested : m.WellSpanned) (r : Request)
    (limit : Nat) (op : Operator) :
    m.firstSlot? r.location.mayLieIn r limit op = m.firstSlot? (fun _ => true) r limit op := by
  refine List.find?_congr fun x hx => ?_
  rw [Bool.eq_iff_iff]
  simp only [Slot.stops, Bool.and_eq_true]
  constructor
  · exact fun h => ⟨Path.within_mono (Coverage.toward_le _) h.1, h.2⟩
  rintro ⟨within, answers⟩
  refine ⟨?_, answers⟩
  have executable : x.path.within .executable = true := within
  obtain ⟨i, hi, -, same⟩ := Module.exists_place hx executable
  have place : x.place.All (fun m => ∃ outer, m.Nested outer) (fun s => ∃ outer, s.Nested outer)
      fun e => ∃ outer, e.Nested outer := by
    rw [same]
    exact hereditary_nested.place (fun d hd y hy => ⟨d.span, nested.members d hd y hy⟩) hi
  have asked : (op.onPlace ((m.site r limit).inside x.path.owner) x.place).answers = true := by
    rwa [Operator.onPlace_eq, Answer.answers_map]
  have holds : x.place.Holds r.location := Operator.holds_of_answers place asked
  have around := (m.exchanged x hx executable x.place.content).mayLieIn nested holds
  simp only [Path.within, Bool.and_eq_true, List.all_eq_true] at within ⊢
  exact ⟨⟨within.1.1, around.2⟩, within.2⟩

/-- What comes of a request, the method that was entered last apart. -/
def Mutant.outcome (x : Mutant) : Module × Report :=
  (x.module, { x.report with containing := none })

/-- Pruning never loses the target: in a module with nested spans a request comes to the same
module and the same report, the method that was entered last apart, whether the search enters only
spans in which the target may lie or all of the executable code. -/
theorem Module.mutate_unpruned {m : Module} (nested : m.WellSpanned) (r : Request) (limit : Nat) :
    (m.mutate r limit).map Mutant.outcome =
      (m.mutateBy (fun _ => true) r limit).map Mutant.outcome := by
  cases made : Operator.make r.kind r.argument with
  | error fault => rw [Module.mutate_error made, Module.mutateBy_error made]
  | ok op =>
    obtain ⟨after, s, notes, pruned, ending⟩ :=
      Module.mutateBy_settles made r.location.mayLieIn limit (m := m)
    obtain ⟨after', s', notes', full, ending'⟩ :=
      Module.mutateBy_settles made (fun _ => true) limit (m := m)
    rw [Module.mutate_eq, pruned, full]
    rw [Module.firstSlot?_unpruned nested] at ending
    have same : after = after' ∧ s.found = s'.found ∧ s.span = s'.span ∧ s.refusal = s'.refusal := by
      rcases ending with ⟨nowhere, rfl, _, hs⟩ | ⟨x, first, ended⟩
      · rcases ending' with ⟨-, rfl, _, hs'⟩ | ⟨y, first', -⟩
        · exact ⟨rfl, hs.found.trans hs'.found.symm, hs.span.trans hs'.span.symm,
            hs.refusal.trans hs'.refusal.symm⟩
        · rw [nowhere] at first'
          cases first'
      · rcases ending' with ⟨nowhere, -, -⟩ | ⟨y, first', ended'⟩
        · rw [nowhere] at first
          cases first
        · rw [first] at first'
          cases first'
          exact ended.eq ended'
    obtain ⟨rfl, found, span, refusal⟩ := same
    simp [Except.map, Mutant.outcome, Search.report, found, span, refusal]

/-- The deletion of the last local of the cascade comes to the same with and without pruning. -/
theorem Module.cascade_mutate_unpruned :
    cascade.WellSpanned ∧
    (cascade.mutate Candidate.deleteLast.request 64).map Mutant.outcome =
      (cascade.mutateBy (fun _ => true) Candidate.deleteLast.request 64).map Mutant.outcome :=
  ⟨cascade_wellSpanned, Module.mutate_unpruned cascade_wellSpanned _ _⟩

end Mutation
