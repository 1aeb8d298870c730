import Mutation.Proofs.Acceptance
import Mutation.Proofs.Altered

/-!
# Candidates make a difference

A scan proposes only what changes the module, with two gaps: it has no guard against moving empty
bodies between the cases of a `match`, or between two methods whose bodies have one range.
`Candidate.isHollow` singles these out; every other candidate that is carried out leaves a different
module, also when anchors are left aside (`Module.mutate_unlike`). A module that were like what it
becomes would be unaltered at the place of the edit, and there each operator leaves something else
(`Candidate.place_unlike`).
-/

namespace Mutation

/-- Both methods have an empty body, with one range. -/
def Method.hollowWith (a b : Method) : Bool :=
  match a.body, b.body with
  | some x, some y => x.stmts.isEmpty && y.stmts.isEmpty && x.span.coincides y.span
  | _, _ => false

/-- All that the operator would move at the place are empty bodies. -/
def Operator.isHollow (op : Operator) (target : Location) (p : Place) : Bool :=
  match op, p with
  | .exchangeDefault _, .element ⟨.matchOn _ cases, span, _⟩ =>
    target.matchesB span && cases.all fun c => c.body.isEmpty
  | .swapBodies name, .members list =>
    (list.filterMap Member.method?).any fun a => target.matchesB a.span &&
      (list.filterMap Member.method?).any fun b => b.name == name && a.hollowWith b
  | _, _ => false

/-- The candidate moves empty bodies only: between the cases of a `match`, or between two methods
whose bodies have one range. -/
def Candidate.isHollow (m : Module) (c : Candidate) : Bool :=
  match Operator.make c.kind c.argument? with
  | .error _ => false
  | .ok op => (m.places .executable).any fun i => op.isHollow c.location i.2

/-- An exchange among empty bodies puts back the `match` as it was. -/
theorem Stmt.exchangeDefault_empty {source : Expr} {cases : List MatchCase} {span : Span}
    {ghost : Bool} {ctor : String} {change : Change} (empty : ∀ c ∈ cases, c.body = [])
    (done : Stmt.exchangeDefault ctor ⟨.matchOn source cases, span, ghost⟩ = .done change) :
    change.edit.result ⟨.matchOn source cases, span, ghost⟩ =
      [⟨.matchOn source cases, span, ghost⟩] := by
  simp only [exchangeDefault] at done
  split at done
  case h_2 => cases done
  rename_i i d _ _
  split at done
  case h_2 => cases done
  rename_i named default hi hd
  obtain ⟨-, rfl⟩ := Outcome.if_done_iff.1 done
  have same : (cases.mapIdx fun k c =>
      { c with body := if k = d then named.body else default.body }) = cases := by
    refine List.ext_getElem? fun k => ?_
    rw [List.getElem?_mapIdx]
    cases hk : cases[k]? with
    | none => rfl
    | some c =>
      obtain ⟨pattern, body, area⟩ := c
      have held : body = [] := empty _ (List.mem_of_getElem? hk)
      have moved : (if k = d then named.body else default.body) = body := by
        rw [empty named (List.mem_of_getElem? hi), empty default (List.mem_of_getElem? hd),
          ite_self, held]
      rw [Option.map_some, moved]
  change [Stmt.mk (.matchOn source _) span ghost] = _
  rw [same]

/-- A candidate that is not hollow is not hollow at any place of its module. -/
theorem Candidate.isHollow_at {m : Module} {c : Candidate} {op : Operator}
    (made : Operator.make c.kind c.argument? = .ok op) (solid : c.isHollow m = false)
    {owner : String} {p : Place} (placed : (owner, p) ∈ m.places .executable) :
    op.isHollow c.location p = false := by
  simp only [isHollow, made, List.any_eq_false, Bool.not_eq_true] at solid
  exact solid _ placed

/-- A scan proposes new values only for a `return`, and then the defaults. -/
theorem Stmt.mem_proposals_return {s : Stmt} {c : Candidate} (hc : c ∈ s.proposals)
    (kind : c.kind = .returnDefaults) : ∃ values a, s.kind = .ret values ∧
      Stmt.returnText? values = some a ∧ c = ⟨s.span.rangeLocation, .returnDefaults, a⟩ := by
  have other {span : Span} {k : Kind} {as : List String} (h : c ∈ View.atRange span k as)
      (differ : k ≠ .returnDefaults) : False :=
    differ ((View.mem_atRange h).2.symm.trans kind)
  rcases List.mem_append.1 hc with hc | hc
  · exact (other hc nofun).elim
  · obtain ⟨shape, span, ghost⟩ := s
    cases shape with
    | ret values =>
      obtain ⟨a, given, rfl⟩ := List.mem_map.1 hc
      exact ⟨values, a, rfl, Option.mem_toList.1 given, rfl⟩
    | varDecl d => exact (other hc nofun).elim
    | whileLoop _ _ _ _ | forLoop _ _ _ _ _ _ => exact (other hc nofun).elim
    | matchOn _ cases =>
      rcases List.mem_append.1 hc with hc | hc <;> exact (other hc nofun).elim
    | ifElse _ _ next =>
      simp only [shapeProposals, List.mem_append, List.mem_flatMap] at hc
      rcases hc with (hc | hc) | ⟨_, -, hc⟩
      · exact (other hc nofun).elim
      · split at hc
        · rcases List.mem_append.1 hc with hc | hc <;> exact (other hc nofun).elim
        · cases hc
      · exact (other hc nofun).elim
    | _ => cases hc

/-- New return values are proposed for a `return` whose values all have defaults, and carry those.
-/
theorem Module.exists_return {m : Module} {o : ScanOptions} {c : Candidate} (hc : c ∈ m.scan o)
    (kind : c.kind = .returnDefaults) : ∃ owner s values a,
      (owner, .element s) ∈ m.places .executable ∧ s.kind = .ret values ∧
      Stmt.returnText? values = some a ∧ c = ⟨s.span.rangeLocation, .returnDefaults, a⟩ := by
  obtain ⟨⟨owner, p⟩, placed, v, -, proposed⟩ := Module.exists_of_mem_scan hc
  cases p with
  | members list =>
    obtain ⟨_, _, -, -, -, -, rfl⟩ := Member.mem_exchanges proposed
    cases kind
  | stmts list =>
    obtain ⟨_, _, _, _, -, -, -, -, rfl⟩ := Stmt.mem_exchanges proposed
    cases kind
  | expr e =>
    have level := (View.mem_expr proposed).2
    rw [kind] at level
    cases level
  | element s =>
    obtain ⟨values, a, hs, text, same⟩ := Stmt.mem_proposals_return proposed kind
    exact ⟨owner, s, values, a, placed, hs, text, same⟩

section

variable {R : Piece → Piece → Prop} (hR : Likeness R) {m : Module} (unambiguous : m.Unambiguous)
  {op : Operator} {site : Site} {owner : String}

include hR unambiguous

/-- A list answered by an operator is another one: fewer locals are declared in it, or initializers
stand in other places. -/
theorem Operator.onStmts_unlike {list list' : List Stmt} {span : Span}
    (placed : (owner, .stmts list) ∈ m.places .executable)
    (done : (op.onStmts site list).1 = .done (list', span)) : ¬R (.stmts list) (.stmts list') := by
  have everywhere := (Module.places_sublist Coverage.executable_le m).subset placed
  cases op with
  | swapInits start stop =>
    exact Stmt.swapInits_unlike hR (unambiguous.elements_apart everywhere) done
  | deleteVariable name => exact Stmt.deleteVariable_unlike hR done
  | _ => cases done

variable {c : Candidate} (made : Operator.make c.kind c.argument? = .ok op)
  (target : site.target = c.location)

include made target

/-- Bodies are exchanged between methods whose bodies stand at different places. -/
theorem Candidate.members_unlike {list list' : List Member} {span : Span}
    (solid : op.isHollow c.location (.members list) = false)
    (placed : (owner, .members list) ∈ m.places .executable)
    (done : op.onMembers site list = .done (list', span)) : ¬R (.members list) (.members list') := by
  intro same
  cases op with
  | swapBodies name =>
    have everywhere := (Module.places_sublist Coverage.executable_le m).subset placed
    obtain ⟨a, b, x, y, first, second, addressed, rfl, bodyA, bodyB, noA, noB, range⟩ :=
      Member.swapBodies_unlike hR (unambiguous.bodies_apart everywhere) done same
    rw [target] at addressed
    have isMethod {d : Method} (h : .method d ∈ list) : d ∈ list.filterMap Member.method? :=
      List.mem_filterMap.2 ⟨_, h, rfl⟩
    have hollow : a.hollowWith b = true := by simp [Method.hollowWith, bodyA, bodyB, noA, noB, range]
    have paired : ((list.filterMap Member.method?).any fun d => d.name == b.name && a.hollowWith d) =
        true := List.any_eq_true.2 ⟨b, isMethod second, by simp [hollow]⟩
    have moved : (Operator.swapBodies b.name).isHollow c.location (.members list) = true :=
      List.any_eq_true.2 ⟨a, isMethod first, by rw [addressed, paired, Bool.and_self]⟩
    rw [solid] at moved
    cases moved
  | _ => cases done

/-- What comes in the place of a statement is never one statement that is like it: most operators
alter it, moved bodies stand elsewhere, and new return values differ since the scan proposed them.
-/
theorem Candidate.element_unlike {o : ScanOptions} (hc : c ∈ m.scan o)
    {s t : Stmt} (solid : op.isHollow c.location (.element s) = false) {change : Change}
    (placed : (owner, .element s) ∈ m.places .executable)
    (done : op.onStmt site s = .done change) (left : change.edit.result s = [t]) :
    ¬R (.stmt s) (.stmt t) := by
  have subset := (Module.places_sublist Coverage.executable_le m).subset
  have kind := Operator.kind_of_make made
  refine Operator.onStmt_unlike hR done left ?_ ?_
  · rintro ctor rfl here changed
    rw [Site.isTarget, target] at here
    obtain ⟨shape, span, ghost⟩ := s
    cases shape with
    | matchOn source cases =>
      have filled : ∃ k ∈ cases, k.body ≠ [] := by
        by_contra none
        simp only [Operator.isHollow, here, Bool.true_and, List.all_eq_false] at solid
        obtain ⟨k, hk, filled⟩ := solid
        exact none ⟨k, hk, by simpa using filled⟩
      exact Stmt.exchangeDefault_unlike hR (unambiguous.cases_apart (subset placed)) filled
        changed left
    | _ => cases changed
  · rintro texts rfl here changed
    rw [Site.isTarget, target] at here
    obtain ⟨owner', s', values, a, proposed, hs, text, rfl⟩ := Module.exists_return hc kind.symm
    -- the statement is the one that the candidate was proposed for
    obtain ⟨list, hl, mem⟩ := Module.exists_list placed
    obtain ⟨list', hl', mem'⟩ := Module.exists_list proposed
    obtain ⟨-, -, rfl⟩ := unambiguous.stmt_eq (subset hl) (subset hl') mem mem' List.mem_cons_self
      List.mem_cons_self (Location.coincides_of_matchesB rfl here (Location.range_matchesB _))
    obtain ⟨defaults, given, changes, new⟩ := Stmt.make_returnText text
    cases made.symm.trans new
    exact Stmt.setReturn_unlike hR hs given changes changed left

/-- What comes in the place of an expression is not like it, real literals apart: most operators
alter it, and exchanged arguments stand elsewhere. -/
theorem Candidate.expr_unlike (real : ¬c.OnReal m) {e e' : Expr}
    (placed : (owner, .expr e) ∈ m.places .executable)
    (done : op.onExpr site e = .done e') : ¬R (.expr e) (.expr e') := by
  have everywhere := (Module.places_sublist Coverage.executable_le m).subset placed
  have addressed : c.location.matchesB e.span = true := by
    have answers : (op.onExpr site e).answers = true := by rw [done]; rfl
    have here := (Operator.shape_of_answers answers).1
    rwa [Site.isTarget, target] at here
  by_cases swap : op.kind = .argumentSwap
  · cases op with
    | swapArguments i j =>
      unfold Operator.onExpr at done
      split at done
      · exact Expr.swapArguments_unlike hR (unambiguous.parts_apart everywhere)
          (Operator.ne_of_make made) done
      · cases done
    | _ => cases swap
  · refine Expr.Altered.unlike hR (Operator.onExpr_altered done (fun literal x he => ?_) swap)
    exact real ⟨(Operator.kind_of_make made).symm.trans literal, owner, e, x, placed, addressed, he⟩

/-- What an operator puts at a place is not like what was there. -/
theorem Candidate.place_unlike {o : ScanOptions} (hc : c ∈ m.scan o) (real : ¬c.OnReal m)
    (solid : c.isHollow m = false) {p : Place} (placed : (owner, p) ∈ m.places .executable)
    {new : p.Content} {span : Span} (done : op.answer site p = .done (new, span)) :
    ¬p.Unaltered R new := by
  replace solid := Candidate.isHollow_at made solid placed
  cases p with
  | members list =>
    exact Candidate.members_unlike hR unambiguous made target solid placed
      (Outcome.answer_id_eq_done_iff.1 done)
  | stmts list =>
    exact Operator.onStmts_unlike hR unambiguous placed (Outcome.answer_id_eq_done_iff.1 done)
  | element s =>
    obtain ⟨change, changed, same⟩ := Outcome.answer_eq_done_iff.1 done
    rintro ⟨t, left, alike⟩
    cases same
    exact Candidate.element_unlike hR unambiguous made target hc solid placed changed left alike
  | expr e =>
    obtain ⟨e', changed, same⟩ := Outcome.answer_eq_done_iff.1 done
    cases same
    exact Candidate.expr_unlike hR unambiguous made target real placed changed

end

/-- A candidate that is carried out leaves a different module, also when anchors are left aside,
unless all it moves are empty bodies. -/
theorem Module.mutate_unlike {m : Module} {o : ScanOptions} {c : Candidate} {limit : Nat}
    {x : Mutant} (unambiguous : m.Unambiguous) (hc : c ∈ m.scan o) (real : ¬c.OnReal m)
    (solid : c.isHollow m = false) (ok : m.mutate c.request limit = .ok x)
    (applied : x.report.isApplied = true) : x.module ≠ m ∧ m.alike x.module = false := by
  obtain ⟨op, owner, p, spans, made, placed, new, span, done, exchanged⟩ :=
    Module.exists_edit ok applied
  have unlike {R : Piece → Piece → Prop} (hR : Likeness R) : ¬R (.module m) (.module x.module) :=
    fun same => Candidate.place_unlike hR unambiguous made rfl hc real solid placed done
      (exchanged.unaltered hR same)
  refine ⟨fun same => unlike likeness_eq (congrArg Piece.module same.symm), ?_⟩
  exact Bool.eq_false_iff.2 (unlike likeness_alike)

/-! ### Empty bodies -/

/-- A piece that holds another one, no expression, is as it was when that one is put back. -/
theorem Carries.unchanged {spans : List Span} {c x x' : Piece} (h : Carries spans c c x x')
    (held : ∀ e, c ≠ .expr e) : x' = x ∧ ∀ e, x ≠ .expr e := by
  cases h with
  | methodBody body => exact ⟨by rw [← body], nofun⟩
  | functionBody _ => exact absurd rfl (held _)
  | _ => first | exact ⟨rfl, nofun⟩ | exact absurd rfl (held _)

/-- What comes to a place, no expression, is what was there. -/
def Place.Returned : (p : Place) → p.Content → Prop
  | .members list, list' => list' = list
  | .stmts list, list' => list' = list
  | .element s, new => new = [s]
  | .expr _, _ => False

/-- An exchange that puts back what was there changes nothing. -/
theorem Exchanged.unchanged {p : Place} {new : p.Content} {spans : List Span} {x x' : Piece}
    (h : Exchanged p new spans x x') (returned : p.Returned new) :
    x' = x ∧ ∀ e, x ≠ .expr e := by
  induction h with
  | members | stmts =>
    cases returned
    exact ⟨rfl, nofun⟩
  | element =>
    cases returned
    exact ⟨rfl, nofun⟩
  | expr => exact returned.elim
  | inside hc _ ih =>
    obtain ⟨rfl, held⟩ := ih returned
    exact hc.unchanged held

/-- An exchange of the bodies of cases leaves the module as it was when all bodies are empty in each
`match` at the target. -/
theorem Module.mutate_empty {m : Module} {r : Request} {limit : Nat} {x : Mutant}
    (kind : r.kind = .caseReplacement)
    (empty : ∀ owner source cases span ghost,
      (owner, .element ⟨.matchOn source cases, span, ghost⟩) ∈ m.places .executable →
        r.location.matchesB span = true → ∀ c ∈ cases, c.body = [])
    (ok : m.mutate r limit = .ok x) : x.module = m := by
  cases applied : x.report.isApplied with
  | false =>
    rw [← Module.afterward_eq ok]
    refine Module.afterward_eq_self fun y given => ?_
    cases given.symm.trans ok
    exact applied
  | true =>
    obtain ⟨op, owner, p, spans, made, placed, new, at', done, exchanged⟩ :=
      Module.exists_edit ok applied
    obtain ⟨ctor, rfl⟩ : ∃ ctor, op = .exchangeDefault ctor := by
      have same := (Operator.kind_of_make made).trans kind
      cases op <;> first | exact ⟨_, rfl⟩ | cases same
    suffices p.Returned new from Piece.module.inj (exchanged.unchanged this).1
    cases p with
    | element s =>
      obtain ⟨change, changed, given⟩ := Outcome.answer_eq_done_iff.1 done
      cases given
      have asked : (if r.location.matchesB s.span then s.exchangeDefault ctor else .pass s) =
          .done change := changed
      split at asked
      next here =>
        obtain ⟨shape, span, ghost⟩ := s
        cases shape with
        | matchOn source cases =>
          exact Stmt.exchangeDefault_empty (empty owner source cases span ghost placed here) asked
        | _ => cases asked
      next => cases asked
    | stmts _ | members _ => cases done
    | expr e =>
      simp only [Operator.answer, Operator.onExpr] at done
      split at done <;> cases done

/-- A `match` with two cases, the second of which is the default and empty. -/
def Module.matching (body : List Stmt) : Module :=
  let cases : List MatchCase := [⟨.ctor "A" [], body, .range 10 15⟩, ⟨.wildcard, [], .range 16 20⟩]
  ⟨"m", [.class
    { name := "C"
      span := .range 0 40
      members := [.method
        { name := "f"
          params := []
          span := .range 1 39
          body := some ⟨[⟨.matchOn ⟨.name "c", .token 6, .unknown⟩ cases, .range 4 30, false⟩],
            .range 2 38⟩ }] }]⟩

/-- The body of the named case in the default case. -/
def Candidate.exchangeFirst : Candidate := ⟨.range 4 30, .caseReplacement, "A"⟩

/-- The body of the named case is not empty, and the exchange makes a difference. -/
theorem Module.matching_mutate_filled :
    let m := matching [⟨.ret [], .range 12 14, false⟩]
    Candidate.exchangeFirst ∈ m.scan {} ∧ Candidate.exchangeFirst.isHollow m = false ∧
      ∃ x, m.mutate Candidate.exchangeFirst.request 64 = .ok x ∧ x.report.isApplied = true ∧
        x.module ≠ m ∧ m.alike x.module = false := by
  intro m
  have proposed : Candidate.exchangeFirst ∈ m.scan {} := by decide +kernel
  have solid : Candidate.exchangeFirst.isHollow m = false := by decide +kernel
  have given : (m.mutate Candidate.exchangeFirst.request 64).map (fun x => x.report.isApplied) =
      .ok true := by
    decide +kernel
  obtain ⟨x, ok, applied⟩ := exists_of_map_ok given
  exact ⟨proposed, solid, x, ok, applied,
    Module.mutate_unlike (by decide +kernel) proposed (fun real => by cases real.1) solid ok applied⟩

/-- The module with the empty match has the spans of a parsed program. -/
theorem Module.matching_wellSpanned : (matching []).WellSpanned where
  anchored := by decide
  members := by
    intro d hd x hx
    obtain rfl := List.mem_singleton.1 hd
    obtain rfl := List.mem_singleton.1 hx
    refine ⟨by decide, by decide, ?_, nofun⟩
    rintro _ ⟨⟩ _ ⟨⟩
    refine ⟨by decide, by decide, fun s hs => ?_⟩
    obtain rfl := List.mem_singleton.1 hs
    refine .intro (by decide) (by decide) (fun e he => ?_) (by decide) (fun b hb => ?_) nofun
    · obtain rfl := List.mem_singleton.1 he
      exact .intro (by decide) (by decide) nofun
    · rcases List.mem_cons.1 hb with rfl | hb
      · nofun
      · obtain rfl := List.mem_singleton.1 hb
        nofun

/-- And its copies are in step, so only the exchange of empty bodies is at fault. -/
theorem Module.matching_coherent : (matching []).Coherent := by
  intro d hd x hx
  obtain rfl := List.mem_singleton.1 hd
  obtain rfl := List.mem_singleton.1 hx
  refine ⟨by simp [Contract.Coherent, Contract.clauses], ?_⟩
  rintro _ ⟨⟩
  exact ⟨⟨.ofParts (by rintro _ ⟨⟩) (by rintro _ ⟨⟩), trivial, trivial, trivial⟩, trivial⟩

/-- The bodies of both cases are empty: the exchange is proposed and carried out, and leaves the
module as it was. -/
theorem Module.matching_mutate_empty :
    (matching []).WellSpanned ∧ (matching []).Unambiguous ∧ (matching []).Coherent ∧
      Candidate.exchangeFirst ∈ (matching []).scan {} ∧
      ∃ x, (matching []).mutate Candidate.exchangeFirst.request 64 = .ok x ∧
        x.report.isApplied = true ∧ x.module = matching [] ∧ (matching []).alike x.module = true := by
  refine ⟨matching_wellSpanned, by decide +kernel, matching_coherent, by decide +kernel, ?_⟩
  exact ⟨_, by rfl, by rfl, by rfl, by decide +kernel⟩

end Mutation
