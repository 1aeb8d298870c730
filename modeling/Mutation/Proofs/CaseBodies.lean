import Mutation.Proofs.Altered
import Mutation.Proofs.Capture

/-!
# Case bodies that change places

The body of the default case is put under every other pattern of the match, and the body of the named
case under the pattern of the default case. Both are moved only when they read no variable of the
pattern that they stood under, so no name loses what it referred to. But nothing compares them with
the variables of the patterns they come under: a body keeps its references exactly when none of its
free names is one of those (`Module.mutate_cases`), and otherwise the pattern captures the name
(`Module.binding_mutate_captured`).
-/

namespace Mutation

namespace Scoping

variable {α β : Type} {s : Scoping α} {env : Env α}

theorem free_subset_names (s : Scoping α) : ∀ n ∈ s.free, n ∈ s.names := by
  induction s with
  | done => exact fun n hn => hn
  | use place name rest ih =>
    exact List.forall_mem_cons.2 ⟨List.mem_cons_self, fun n hn => List.mem_cons_of_mem _ (ih n hn)⟩
  | bind place origin name rest ih => exact fun n hn => ih n (List.mem_filter.1 hn).1
  | scope inside rest hi ih =>
    exact List.forall_mem_append.2 ⟨fun n hn => List.mem_append_left _ (hi n hn),
      fun n hn => List.mem_append_right _ (ih n hn)⟩

theorem references_of_names (none : s.names = []) (env : Env α) : s.references env = [] := by
  induction s generalizing env with
  | done => rfl
  | use place name rest ih => cases none
  | bind place origin name rest ih => exact ih none _
  | scope inside rest hi ih =>
    obtain ⟨first, later⟩ := List.append_eq_nil_iff.1 none
    rw [references, hi first, ih later, List.append_nil]

/-- Scopes that stand side by side. -/
def scopes (l : List (Scoping α)) : Scoping α := l.foldr .scope .done

@[simp] theorem scopes_cons (s : Scoping α) (l : List (Scoping α)) :
    scopes (s :: l) = .scope s (scopes l) := rfl

theorem map_scopes (f : α → β) (l : List (Scoping α)) : (scopes l).map f = scopes (l.map (map f)) := by
  induction l with
  | nil => rfl
  | cons s l ih => rw [List.map_cons, scopes_cons, scopes_cons, map, ih]

theorem bound_scopes (l : List (Scoping α)) (env : Env α) : (scopes l).bound env = env := by
  induction l with
  | nil => rfl
  | cons s l ih => exact ih

theorem references_scopes (l : List (Scoping α)) (env : Env α) :
    (scopes l).references env = l.flatMap (references env) := by
  induction l with
  | nil => rfl
  | cons s l ih => rw [scopes_cons, references, ih, List.flatMap_cons]

theorem binderPlaces_scopes (l : List (Scoping α)) :
    (scopes l).binderPlaces = l.flatMap binderPlaces := by
  induction l with
  | nil => rfl
  | cons s l ih => rw [scopes_cons, binderPlaces, ih, List.flatMap_cons]

end Scoping

open Scoping

namespace MatchCase

/-- The variables that the pattern of a case binds. -/
def binding (c : MatchCase) : Scoping Span :=
  .ofBinders .patternVar (c.pattern.names.map fun n => (c.span, n))

@[simp] theorem binders_binding (c : MatchCase) : c.binding.binders = c.pattern.names := by
  simp [binding, Function.comp_def]

theorem scopingList_eq (cases : List MatchCase) :
    scopingList cases = scopes (cases.map fun c => c.binding ++ Stmt.scopingList c.body) := by
  induction cases with
  | nil => rfl
  | cons c cases ih =>
    obtain ⟨pattern, body, span⟩ := c
    rw [scopingList, ih]
    rfl

/-- No free name of a body that can run without its pattern is bound by it. -/
theorem not_mem_names {c : MatchCase} (reads : c.readsNoBinding = true) {n : String}
    (free : n ∈ Stmt.freeList c.body) : n ∉ c.pattern.names := by
  intro bound
  rw [← Stmt.free_scopingList] at free
  have used := free_subset_names _ n free
  rw [Stmt.names_scopingList] at used
  simp only [readsNoBinding, Stmt.mentionAny, Bool.not_eq_true', List.any_eq_false,
    List.contains_iff_mem] at reads
  exact reads n bound used

/-- However the places in the cases are told apart, each case has a pattern and a body with places
of their own. -/
theorem exists_parts {α : Type} {range : α → Span} {cases : List MatchCase} {old : Scoping α}
    (h : old.map range = scopingList cases) :
    ∃ patterns bodies : Nat → Scoping α,
      old = scopes (cases.mapIdx fun k _ => patterns k ++ bodies k) ∧
      ∀ k c, cases[k]? = some c → (patterns k).map range = c.binding ∧
        (bodies k).map range = Stmt.scopingList c.body := by
  induction cases generalizing old with
  | nil =>
    cases old with
    | done => exact ⟨fun _ => .done, fun _ => .done, rfl, by simp⟩
    | _ => cases h
  | cons c cases ih =>
    obtain ⟨pattern, body, span⟩ := c
    cases old with
    | scope inside rest =>
      obtain ⟨first, later⟩ := scope.inj h
      obtain ⟨p, b, rfl, hp, hb⟩ := map_eq_append first
      obtain ⟨patterns, bodies, rfl, parts⟩ := ih later
      refine ⟨fun k => k.casesOn p patterns, fun k => k.casesOn b bodies, ?_, ?_⟩
      · rw [List.mapIdx_cons, scopes_cons]
        rfl
      · intro k c hk
        cases k with
        | zero =>
          obtain rfl := Option.some.inj hk
          exact ⟨hp, hb⟩
        | succ k => exact parts k c hk
    | _ => cases h

/-- Patterns bind names and use none. -/
theorem references_parts {α : Type} {cases : List MatchCase} {patterns bodies : Nat → Scoping α}
    (silent : ∀ k c, cases[k]? = some c → (patterns k).names = []) (env : Env α) :
    (scopes (cases.mapIdx fun k _ => patterns k ++ bodies k)).references env =
      (cases.mapIdx fun k _ => (bodies k).references ((patterns k).bound env)).flatten := by
  rw [references_scopes, List.flatMap_def]
  congr 1
  refine List.ext_getElem? fun k => ?_
  rw [List.getElem?_map, List.getElem?_mapIdx, List.getElem?_mapIdx]
  cases hk : cases[k]? with
  | none => rfl
  | some c =>
    simp [references_append, references_of_names (silent k c hk)]

/-- The case from which the case `k` takes its body when the case `i` gives its body to the case `d`
and all others take the body of `d`. -/
def bodyFrom (i d k : Nat) : Nat := if k = d then i else d

section

variable {cases : List MatchCase} {i d : Nat} {named default : MatchCase}
  (hi : cases[i]? = some named) (hd : cases[d]? = some default)

include hi hd

theorem getElem?_bodyFrom (k : Nat) :
    cases[bodyFrom i d k]? = some (if k = d then named else default) := by
  unfold bodyFrom
  split
  · exact hi
  · exact hd

variable {α : Type} {range : α → Span} {patterns bodies : Nat → Scoping α}
  (parts : ∀ k c, cases[k]? = some c → (patterns k).map range = c.binding ∧
    (bodies k).map range = Stmt.scopingList c.body)

include parts

/-- Moved bodies keep their places. -/
theorem map_bodyFrom :
    (scopes (cases.mapIdx fun k _ => patterns k ++ bodies (bodyFrom i d k))).map range =
      scopingList (cases.mapIdx fun k c =>
        { c with body := if k = d then named.body else default.body }) := by
  rw [map_scopes, scopingList_eq]
  congr 1
  refine List.ext_getElem? fun k => ?_
  simp only [List.getElem?_map, List.getElem?_mapIdx]
  cases hk : cases[k]? with
  | none => rfl
  | some c =>
    have body := (parts _ _ (getElem?_bodyFrom hi hd k)).2
    rw [apply_ite MatchCase.body] at body
    simp only [Option.map_some, map_append, (parts k c hk).1, body]
    rfl

/-- A body that has come under the pattern of the case `k` is as it was exactly when the pattern
binds none of its free names. -/
theorem references_bodyFrom (readsI : named.readsNoBinding = true)
    (readsD : default.readsNoBinding = true) {E : Env α}
    (apart : Apart E (scopes (cases.mapIdx fun k _ => patterns k ++ bodies k))) {k j : Nat}
    {c c' : MatchCase} (hk : cases[k]? = some c) (moved : j = bodyFrom i d k)
    (hj : cases[j]? = some c') :
    (bodies j).references ((patterns k).bound E) = (bodies j).references ((patterns j).bound E) ↔
      ∀ n ∈ Stmt.freeList c'.body, n ∉ c.pattern.names := by
  have free : (bodies j).free = Stmt.freeList c'.body := by
    rw [← free_map range, (parts j c' hj).2, Stmt.free_scopingList]
  have binders {k : Nat} {c : MatchCase} (hk : cases[k]? = some c) :
      (patterns k).binders = c.pattern.names := by
    rw [← binders_map range, (parts k c hk).1, binders_binding]
  have reads : c'.readsNoBinding = true := by
    obtain rfl := Option.some.inj (hj.symm.trans (moved ▸ getElem?_bodyFrom hi hd k))
    split
    · exact readsI
    · exact readsD
  have own : (bodies j).references ((patterns j).bound E) = (bodies j).references E := by
    refine references_eq_iff.2 fun n hn => lookup_bound_of_not_mem ?_ E
    rw [binders hj]
    exact not_mem_names reads (free ▸ hn)
  have apartK : Apart E (patterns k) := by
    refine fun b hb mem => apart b hb ?_
    rw [binderPlaces_scopes, List.mem_flatMap]
    refine ⟨patterns k ++ bodies k, List.mem_of_getElem? (i := k) ?_, ?_⟩
    · rw [List.getElem?_mapIdx, hk, Option.map_some]
    · rw [binderPlaces_append]
      exact List.mem_append_left _ mem
  rw [own, references_bound_iff apartK, free, binders hk]

end

end MatchCase

theorem Stmt.stands_cases {pre post : List Stmt} {source : Expr} {cases cases' : List MatchCase}
    {span : Span} {ghost : Bool} :
    Stands (MatchCase.scopingList cases) (MatchCase.scopingList cases')
      (scopingList (pre ++ ⟨.matchOn source cases, span, ghost⟩ :: post))
      (scopingList (pre ++ ⟨.matchOn source cases', span, ghost⟩ :: post)) := by
  have here := Stands.between (MatchCase.scopingList cases) (MatchCase.scopingList cases')
    (scopingList pre ++ Expr.scoping [source]) (scopingList post)
  simpa only [scopingList_append, scopingList, Stmt.scoping, StmtKind.scoping, append_assoc] using here

/-- An exchange with the default case that is applied: the case `k` of the match has the body of the
case `bodyFrom i d k`, in which `i` is the named case and `d` is the default case. However the names
and declarations of the module are told apart, on top of the ranges they have, all names around the
match refer to what they referred to. Those in the body that has come under the pattern of `k` do
exactly when the pattern binds no free name of the body. -/
theorem Module.mutate_cases {m : Module} {r : Request} {limit : Nat} {x : Mutant}
    (kind : r.kind = .caseReplacement) (ok : m.mutate r limit = .ok x)
    (applied : x.report.isApplied = true) :
    ∃ ctor source cases i d named default span ghost pre post spans,
      Operator.make r.kind r.argument = .ok (.exchangeDefault ctor) ∧
      MatchCase.ctorIdx? cases ctor = some i ∧ MatchCase.defaultIdx? cases = some d ∧
      cases[i]? = some named ∧ cases[d]? = some default ∧
      Exchanged (.stmts (pre ++ ⟨.matchOn source cases, span, ghost⟩ :: post))
        (pre ++ ⟨.matchOn source (cases.mapIdx fun k c =>
          { c with body := if k = d then named.body else default.body }), span, ghost⟩ :: post)
        spans (.module m) (.module x.module) ∧
      ∀ (α : Type) (range : α → Span) (old : Scoping α), old.map range = m.scoping →
        old.binderPlaces.Nodup →
        ∃ (new : Scoping α) (patterns bodies : Nat → Scoping α) (E : Env α) (front back : List _),
          new.map range = x.module.scoping ∧
          (∀ k c, cases[k]? = some c → (patterns k).map range = c.binding ∧
            (bodies k).map range = Stmt.scopingList c.body) ∧
          old.references [] = front ++ ((cases.mapIdx fun k _ =>
            (bodies k).references ((patterns k).bound E)).flatten ++ back) ∧
          new.references [] = front ++ ((cases.mapIdx fun k _ =>
            (bodies (MatchCase.bodyFrom i d k)).references ((patterns k).bound E)).flatten ++ back) ∧
          ∀ k c j c', cases[k]? = some c → j = MatchCase.bodyFrom i d k → cases[j]? = some c' →
            ((bodies j).references ((patterns k).bound E) =
              (bodies j).references ((patterns j).bound E) ↔
                ∀ n ∈ Stmt.freeList c'.body, n ∉ c.pattern.names) := by
  obtain ⟨op, owner, p, spans, made, -, new, span, done, exchanged⟩ := Module.exists_edit ok applied
  have opKind := (Operator.kind_of_make made).trans kind
  have level : p.level = .element := by rw [Operator.level_of_done done, opKind]; rfl
  cases op with
  | exchangeDefault ctor =>
    cases p with
    | element s =>
      obtain ⟨change, changed, same⟩ := Outcome.answer_eq_done_iff.1 done
      obtain ⟨rfl, -⟩ := Prod.mk.inj same
      have exchange : s.exchangeDefault ctor = .done change := by
        simp only [Operator.onStmt] at changed
        split at changed
        · exact changed
        · cases changed
      obtain ⟨source, cases, i, d, named, default, shape, foundI, foundD, hi, hd, readsI, readsD,
        rfl⟩ := Stmt.exchangeDefault_done exchange
      obtain ⟨kind, span, ghost⟩ := s
      obtain rfl : kind = .matchOn source cases := shape
      obtain ⟨pre, post, spans', listed⟩ := exchanged.around rfl .rfl
      refine ⟨ctor, source, cases, i, d, named, default, span, ghost, pre, post, spans', made, foundI,
        foundD, hi, hd, listed, fun α range old places distinct => ?_⟩
      obtain ⟨u, mapped, replaced⟩ := listed.references Stmt.stands_cases places
      obtain ⟨patterns, bodies, rfl, parts⟩ := MatchCase.exists_parts mapped
      have silent : ∀ k c, cases[k]? = some c → (patterns k).names = [] := fun k c hk => by
        rw [← names_map range, (parts k c hk).1, MatchCase.binding, names_ofBinders]
      obtain ⟨new, E, front, back, result, before, after, told⟩ := replaced
        (scopes (cases.mapIdx fun k _ => patterns k ++ bodies (MatchCase.bodyFrom i d k)))
        (MatchCase.map_bodyFrom hi hd parts) fun env => by rw [bound_scopes, bound_scopes]
      rw [MatchCase.references_parts silent] at before after
      exact ⟨new, patterns, bodies, E, front, back, result, parts, before, after,
        fun k c j c' hk moved hj => MatchCase.references_bodyFrom hi hd parts readsI readsD
          (told distinct).1 hk moved hj⟩
    | members list | stmts list | expr e => cases level
  | _ => cases opKind

/-- A method that prints its integer parameter `x` in the default case of a match; `name` is the
Boolean that the pattern of the other case binds. -/
def Module.binding (name : String) : Module :=
  let cases : List MatchCase := [
    ⟨.ctor "A" [.bind name .bool],
      [⟨.print [⟨.literal (.int (.ofByte 1)), .token 14, .int⟩], .range 12 15, false⟩], .range 10 16⟩,
    ⟨.wildcard, [⟨.print [⟨.name "x", .token 21, .int⟩], .range 19 22, false⟩], .range 17 23⟩]
  ⟨"m", [.class
    { name := "C"
      span := .range 0 40
      members := [.method
        { name := "f"
          params := [{ name := "x", ty := .int, span := .token 2 },
            { name := "c", ty := .datatype "D", span := .token 3 }]
          span := .range 1 39
          body := some ⟨[⟨.matchOn ⟨.name "c", .token 7, .datatype "D"⟩ cases, .range 5 30, false⟩],
            .range 4 38⟩ }] }]⟩

/-- The proposal to exchange the bodies of the two cases. -/
def Candidate.exchangeCases : Candidate := ⟨.range 5 30, .caseReplacement, "A"⟩

/-- The pattern binds another name, so the one that is printed is still the parameter. -/
theorem Module.binding_mutate_other :
    Candidate.exchangeCases ∈ (Module.binding "y").scan {} ∧
      ∃ x, (Module.binding "y").mutate Candidate.exchangeCases.request 64 = .ok x ∧
        x.report.isApplied = true ∧
        x.module.scoping.references [] =
          [(.token 7, "c", some (.token 3, .param)), (.token 21, "x", some (.token 2, .param))] ∧
        ∃ (cases : List MatchCase) (i d : Nat) (patterns bodies : Nat → Scoping Span) (E : Env Span)
          (front back : List _), MatchCase.ctorIdx? cases "A" = some i ∧
          MatchCase.defaultIdx? cases = some d ∧
          x.module.scoping.references [] = front ++ ((cases.mapIdx fun k _ =>
            (bodies (MatchCase.bodyFrom i d k)).references ((patterns k).bound E)).flatten ++ back) := by
  have proposed : Candidate.exchangeCases ∈ (Module.binding "y").scan {} := by decide +kernel
  have given : ((Module.binding "y").mutate Candidate.exchangeCases.request 64).map
      (fun x => (x.report.isApplied, x.module.scoping.references [])) = .ok (true,
        [(.token 7, "c", some (.token 3, .param)), (.token 21, "x", some (.token 2, .param))]) := by
    rfl
  obtain ⟨x, ok, reported⟩ := exists_of_map_ok given
  obtain ⟨applied, after⟩ := Prod.mk.inj reported
  have distinct : (Module.binding "y").scoping.binderPlaces.Nodup := by decide +kernel
  obtain ⟨ctor, _, cases, i, d, _, _, _, _, _, _, _, made, foundI, foundD, -, -, -, kept⟩ :=
    Module.mutate_cases rfl ok applied
  obtain rfl : ctor = "A" := by
    have requested : Operator.make .caseReplacement (some "A") = .ok (.exchangeDefault "A") := by rfl
    exact Operator.exchangeDefault.inj (Except.ok.inj (made.symm.trans requested))
  obtain ⟨new, patterns, bodies, E, front, back, places, -, -, references, -⟩ :=
    kept Span id _ (map_id _) distinct
  rw [map_id] at places
  rw [places] at references
  exact ⟨proposed, x, ok, applied, after, cases, i, d, patterns, bodies, E, front, back, foundI,
    foundD, references⟩

/-- The pattern binds the name that is printed, and captures it. The exchange is proposed all the
same, and an integer has become a Boolean. -/
theorem Module.binding_mutate_captured :
    Candidate.exchangeCases ∈ (Module.binding "x").scan {} ∧
      ∃ x, (Module.binding "x").mutate Candidate.exchangeCases.request 64 = .ok x ∧
        x.report.isApplied = true ∧
        (Module.binding "x").scoping.references [] =
          [(.token 7, "c", some (.token 3, .param)), (.token 21, "x", some (.token 2, .param))] ∧
        x.module.scoping.references [] = [(.token 7, "c", some (.token 3, .param)),
          (.token 21, "x", some (.range 10 16, .patternVar))] := by
  have given : ((Module.binding "x").mutate Candidate.exchangeCases.request 64).map
      (fun x => (x.report.isApplied, x.module.scoping.references [])) = .ok (true,
        [(.token 7, "c", some (.token 3, .param)),
          (.token 21, "x", some (.range 10 16, .patternVar))]) := by
    rfl
  obtain ⟨x, ok, reported⟩ := exists_of_map_ok given
  obtain ⟨applied, after⟩ := Prod.mk.inj reported
  exact ⟨by decide +kernel, x, ok, applied, by rfl, after⟩

end Mutation
