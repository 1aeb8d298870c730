import Mutation.Proofs.Agreement
import Mutation.Proofs.Capture

/-!
# Exchanged initializers and what their names refer to

A scan proposes to exchange the initializers of two declarations of one list when the later one
mentions no name that is declared from the first declaration on, and the first one does not mention
the local of the later one. So the later initializer refers to what it referred to when it moves up.
The first one moves down behind all that is declared in between, of which the scan only considers
the later local: it keeps its references exactly when it mentions none of the names declared there
(`Module.mutate_initializers`), and loses them otherwise (`Module.redeclared_mutate`).
-/

namespace Mutation

open Scoping

namespace Stmt

/-- A declaration is found by its range when no element in front of it has that range. -/
theorem declIdx?_append {pre post : List Stmt} {s : Stmt} (single : s.simpleDecl?.isSome = true)
    (other : ∀ u ∈ pre, u.span.coincides s.span = false) :
    declIdx? s.span.rangeLocation (pre ++ s :: post) = some pre.length := by
  have passed : pre.findIdx? (fun u => s.span.rangeLocation.matchesB u.span &&
      u.simpleDecl?.isSome) = none := by
    refine List.findIdx?_eq_none_iff.2 fun u hu => ?_
    rw [Bool.and_eq_false_iff]
    refine .inl (Bool.eq_false_iff.2 fun here => ?_)
    have same := Location.coincides_of_matchesB rfl here (Location.range_matchesB s.span)
    rw [other u hu] at same
    cases same
  simp [declIdx?, List.findIdx?_append, passed, List.findIdx?_cons, Location.range_matchesB, single]

/-- The values of two declarations of a list of which no two elements share a range. -/
theorem swapInits_eq {pre mid post : List Stmt} {s t : Stmt} {v w : Variable} {a b : Expr}
    {list' : List Stmt} {span : Span}
    (apart : (pre ++ s :: (mid ++ t :: post)).Pairwise fun s t => s.span.coincides t.span = false)
    (first : s.simpleDecl? = some (v, a)) (second : t.simpleDecl? = some (w, b))
    (h : swapInits s.span.rangeLocation t.span.rangeLocation (pre ++ s :: (mid ++ t :: post)) =
      .done (list', span)) :
    list' = pre ++ s.withValue b :: (mid ++ t.withValue a :: post) := by
  have foundS : declIdx? s.span.rangeLocation (pre ++ s :: (mid ++ t :: post)) = some pre.length :=
    declIdx?_append (by simp [first]) fun u hu =>
      (List.pairwise_append.1 apart).2.2 u hu s List.mem_cons_self
  have foundT : declIdx? t.span.rangeLocation (pre ++ s :: (mid ++ t :: post)) =
      some (pre.length + (mid.length + 1)) := by
    have regroup : pre ++ s :: (mid ++ t :: post) = (pre ++ s :: mid) ++ t :: post := by simp
    rw [regroup] at apart ⊢
    have found : declIdx? t.span.rangeLocation ((pre ++ s :: mid) ++ t :: post) =
        some (pre ++ s :: mid).length :=
      declIdx?_append (by simp [second]) fun u hu =>
        (List.pairwise_append.1 apart).2.2 u hu t List.mem_cons_self
    simpa using found
  obtain ⟨i, j, s', t', v', w', a', b', hi, hj, -, hs, ht, simpleS, simpleT, -, rfl, -⟩ :=
    swapInits_done_iff.1 h
  obtain rfl := Option.some.inj (foundS.symm.trans hi)
  obtain rfl := Option.some.inj (foundT.symm.trans hj)
  obtain rfl : s = s' := by simpa using hs
  obtain rfl : t = t' := by simpa using ht
  obtain ⟨rfl, rfl⟩ := Prod.mk.inj (Option.some.inj (first.symm.trans simpleS))
  obtain ⟨rfl, rfl⟩ := Prod.mk.inj (Option.some.inj (second.symm.trans simpleT))
  simp

theorem scoping_of_simpleDecl? {s : Stmt} {v : Variable} {a : Expr}
    (h : s.simpleDecl? = some (v, a)) :
    s.scoping = Expr.scoping [a] ++ Variable.scoping .local [v] := by
  obtain ⟨targets, resolved, span, ghost, rfl⟩ := eq_of_simpleDecl? h
  rfl

theorem scoping_withValue {s : Stmt} {v : Variable} {a : Expr} (h : s.simpleDecl? = some (v, a))
    (b : Expr) : (s.withValue b).scoping = Expr.scoping [b] ++ Variable.scoping .local [v] := by
  obtain ⟨targets, resolved, span, ghost, rfl⟩ := eq_of_simpleDecl? h
  rfl

/-- What stands from one declaration of a list to the value of a later one, and what stands there
when the values are exchanged. -/
theorem stands_swapped {pre mid post : List Stmt} {s t : Stmt} {v w : Variable} {a b : Expr}
    (first : s.simpleDecl? = some (v, a)) (second : t.simpleDecl? = some (w, b)) :
    Stands
      (Expr.scoping [a] ++ (Variable.scoping .local [v] ++ scopingList mid ++ Expr.scoping [b]))
      (Expr.scoping [b] ++ (Variable.scoping .local [v] ++ scopingList mid ++ Expr.scoping [a]))
      (scopingList (pre ++ s :: (mid ++ t :: post)))
      (scopingList (pre ++ s.withValue b :: (mid ++ t.withValue a :: post))) := by
  have here := Stands.between
    (Expr.scoping [a] ++ (Variable.scoping .local [v] ++ scopingList mid ++ Expr.scoping [b]))
    (Expr.scoping [b] ++ (Variable.scoping .local [v] ++ scopingList mid ++ Expr.scoping [a]))
    (scopingList pre) (Variable.scoping .local [w] ++ scopingList post)
  simpa only [scopingList_append, scopingList, scoping_of_simpleDecl? first,
    scoping_of_simpleDecl? second, scoping_withValue first, scoping_withValue second,
    append_assoc] using here

end Stmt

/-- The range in the argument of a candidate is that of the later declaration. -/
theorem Operator.make_initializerSwap {location : Location} {s : Span} {op : Operator}
    (h : Operator.make .initializerSwap
      (Candidate.argument? ⟨location, .initializerSwap, s.rangeLocation.text⟩) = .ok op) :
    op = .swapInits s.start s.stop := by
  have solid : Text.isBlankText s.rangeLocation.text = false :=
    Text.isBlankText_eq_false (c := '-') (by simp [Location.text, Location.chars, Span.rangeLocation])
      rfl
  have denoted := (make_argument_iff rfl solid).1 h
  cases read : readRange s.rangeLocation.text with
  | ok range =>
    obtain ⟨start, stop⟩ := range
    obtain ⟨rfl, rfl⟩ := readRange_text_inj read
    simp only [ofArgument, read, Except.map, Except.ok.injEq] at denoted
    exact denoted.symm
  | error reason => simp [ofArgument, read, Except.map] at denoted

namespace Module

variable {m : Module} {o : ScanOptions} {c : Candidate} {limit : Nat} {x : Mutant}

/-- An exchange of initializers is proposed in a statement list. -/
theorem exists_of_mem_scan_initializerSwap (proposed : c ∈ m.scan o)
    (kind : c.kind = .initializerSwap) :
    ∃ owner list, (owner, .stmts list) ∈ m.places .executable ∧ c ∈ Stmt.exchanges list := by
  obtain ⟨⟨owner, p⟩, placed, v, -, offered⟩ := Module.exists_of_mem_scan proposed
  cases p with
  | stmts list => exact ⟨owner, list, placed, offered⟩
  | members list =>
    obtain ⟨_, _, -, -, -, -, rfl⟩ := Member.mem_exchanges offered
    cases kind
  | expr e =>
    have level := (View.mem_expr offered).2
    rw [kind] at level
    cases level
  | element s =>
    rcases (Stmt.addressed offered).1 with level | other
    · rw [kind] at level
      cases level
    · cases kind.symm.trans other

/-- An exchange of initializers that a scan proposes is carried out on the two declarations that it
was proposed for. -/
theorem exchanged_of_initializerSwap (apart : m.StmtsApart) (proposed : c ∈ m.scan o)
    (kind : c.kind = .initializerSwap) (ok : m.mutate c.request limit = .ok x)
    (applied : x.report.isApplied = true) :
    ∃ pre s mid t post v a w b spans, s.simpleDecl? = some (v, a) ∧ t.simpleDecl? = some (w, b) ∧
      Stmt.mayExchange (v, a) (w, b) ((s :: mid).flatMap Stmt.declares) = true ∧
      c = ⟨s.span.rangeLocation, .initializerSwap, t.span.rangeLocation.text⟩ ∧
      Exchanged (.stmts (pre ++ s :: (mid ++ t :: post)))
        (pre ++ s.withValue b :: (mid ++ t.withValue a :: post)) spans (.module m)
        (.module x.module) := by
  obtain ⟨owner, list, placed, offered⟩ := exists_of_mem_scan_initializerSwap proposed kind
  obtain ⟨pre, s, mid, t, post, ⟨v, a⟩, ⟨w, b⟩, rfl, first, second, allowed, rfl⟩ :=
    Stmt.exists_of_mem_exchanges offered
  have simpleS := Stmt.simpleDecl?_of_exchangeable first
  have simpleT := Stmt.simpleDecl?_of_exchangeable second
  obtain ⟨op, owner', p, spans, made, placed', new, span, done, exchanged⟩ :=
    Module.exists_edit ok applied
  obtain rfl := Operator.make_initializerSwap made
  have level : p.level = .stmts := Operator.level_of_done done
  cases p with
  | stmts list' =>
    have swapped : Stmt.swapInits s.span.rangeLocation t.span.rangeLocation list' =
        .done (new, span) := Outcome.answer_id_eq_done_iff.1 done
    -- the list in which the target was found is the one of the proposal
    obtain ⟨i, -, u, -, -, -, -, -, found, -, -, here, -⟩ := Stmt.swapInits_done_iff.1 swapped
    obtain ⟨_, matched, -⟩ := List.findIdx?_eq_some_iff_getElem.1 found
    rw [(List.getElem?_eq_some_iff.1 here).2] at matched
    have same := Location.coincides_of_matchesB rfl (Bool.and_eq_true_iff.1 matched).1
      (Location.range_matchesB s.span)
    have everywhere := (Module.places_sublist Coverage.executable_le m).subset placed
    have there := (Module.places_sublist Coverage.executable_le m).subset placed'
    obtain ⟨rfl, rfl, -⟩ := apart.stmt_eq there everywhere (List.mem_of_getElem? here)
      (t := s) (by simp) List.mem_cons_self List.mem_cons_self same
    obtain rfl := Stmt.swapInits_eq (apart.list everywhere) simpleS simpleT swapped
    exact ⟨pre, s, mid, t, post, v, a, w, b, spans, simpleS, simpleT, allowed, rfl, exchanged⟩
  | members list | element s | expr e => cases level

/-- A proposed exchange of initializers moves the initializer `b` of the declaration `t` up to the
declaration `s`, and the initializer `a` of `s` down to `t`; `A` and `B` are the names in `a` and
`b`, and `M` is what stands between them. However the names and declarations of the module are told
apart, on top of the ranges they have, all names in `b` refer to the declarations they referred to,
and so do all names around the two. The names in `a` do exactly when none of them is declared in
between. -/
theorem mutate_initializers (apart : m.StmtsApart) (proposed : c ∈ m.scan o)
    (kind : c.kind = .initializerSwap) (ok : m.mutate c.request limit = .ok x)
    (applied : x.report.isApplied = true) :
    ∃ pre s mid t post v a w b spans, s.simpleDecl? = some (v, a) ∧ t.simpleDecl? = some (w, b) ∧
      c = ⟨s.span.rangeLocation, .initializerSwap, t.span.rangeLocation.text⟩ ∧
      Exchanged (.stmts (pre ++ s :: (mid ++ t :: post)))
        (pre ++ s.withValue b :: (mid ++ t.withValue a :: post)) spans (.module m)
        (.module x.module) ∧
      ∀ (α : Type) (range : α → Span) (old : Scoping α), old.map range = m.scoping →
        old.binderPlaces.Nodup →
        ∃ (new A M B : Scoping α) (E : Env α) (front back : List _),
          new.map range = x.module.scoping ∧ A.map range = Expr.scoping [a] ∧
          M.map range = Variable.scoping .local [v] ++ Stmt.scopingList mid ∧
          B.map range = Expr.scoping [b] ∧
          old.references [] = front ++ (A.references E ++ (M.references E ++
            (B.references (M.bound E) ++ back))) ∧
          new.references [] = front ++ (B.references E ++ (M.references E ++
            (A.references (M.bound E) ++ back))) ∧
          B.references E = B.references (M.bound E) ∧
          (A.references (M.bound E) = A.references E ↔
            ∀ n ∈ a.names, n ∉ (s :: mid).flatMap Stmt.declares) := by
  obtain ⟨pre, s, mid, t, post, v, a, w, b, spans, first, second, allowed, shape, exchanged⟩ :=
    exchanged_of_initializerSwap apart proposed kind ok applied
  refine ⟨pre, s, mid, t, post, v, a, w, b, spans, first, second, shape, exchanged, ?_⟩
  intro α range old places distinct
  obtain ⟨u, mapped, replaced⟩ :=
    exchanged.references (Stmt.stands_swapped first second) places
  obtain ⟨A, rest, rfl, atA, mapped⟩ := map_eq_append mapped
  obtain ⟨M, B, rfl, atM, atB⟩ := map_eq_append mapped
  have noneA : A.binders = [] := by rw [← binders_map range, atA, Expr.binders_scoping]
  have noneB : B.binders = [] := by rw [← binders_map range, atB, Expr.binders_scoping]
  obtain ⟨new, E, front, back, placesNew, before, after, told⟩ := replaced (B ++ (M ++ A))
    (by simp only [map_append, atA, atM, atB]) fun env => by
      simp only [bound_append, bound_of_binders noneA, bound_of_binders noneB]
  simp only [references_append, bound_of_binders noneA, bound_of_binders noneB,
    List.append_assoc] at before after
  have between : M.binders = (s :: mid).flatMap Stmt.declares := by
    rw [← binders_map range, atM, binders_append, Stmt.binders_scopingList,
      Variable.binders_scoping, List.flatMap_cons]
    obtain ⟨targets, resolved, span, ghost, rfl⟩ := Stmt.eq_of_simpleDecl? first
    rfl
  have freeA : A.free = a.names := by
    rw [← free_map range, atA, Expr.free_scoping, Expr.namesList, Expr.namesList, List.append_nil]
  have freeB : B.free = b.names := by
    rw [← free_map range, atB, Expr.free_scoping, Expr.namesList, Expr.namesList, List.append_nil]
  have apartM : Apart E M := fun b hb mem => (told distinct).1 b hb (by
    simp only [binderPlaces_append, List.mem_append]
    exact .inr (.inl mem))
  refine ⟨new, A, M, B, E, front, back, placesNew, atA, atM, atB, before, after, ?_, ?_⟩
  · refine ((references_bound_iff apartM).2 fun n used declared => ?_).symm
    rw [freeB] at used
    rw [between] at declared
    simp only [Stmt.mayExchange, Bool.and_eq_true, Bool.not_eq_true', List.any_eq_false] at allowed
    exact allowed.1.2 n declared (by simpa [Expr.mentions] using used)
  · rw [references_bound_iff apartM, freeA, between]

end Module

/-- The declaration of one local. -/
def Stmt.single (name : String) (ty : Ty) (value : ExprKind) (pos : Pos) : Stmt :=
  ⟨.varDecl (.withInit [⟨name, ty, .token (pos + 1), false⟩] [⟨value, .token (pos + 3), ty⟩]),
    .range pos (pos + 4), false⟩

/-- A method with an integer parameter `a` and three locals. The first one is initialized by `a`, the
second one is a Boolean with this name, and the third one is initialized by a number. -/
def Module.declaring (name : String) : Module :=
  ⟨"m", [.class
    { name := "C"
      span := .range 0 40
      members := [.method
        { name := "f"
          params := [{ name := "a", ty := .int, span := .token 2 }]
          span := .range 1 39
          body := some ⟨[.single "x" .int (.name "a") 5, .single name .bool (.literal (.bool true)) 10,
            .single "y" .int (.literal (.int (.ofByte 7))) 15], .range 3 38⟩ }] }]⟩

/-- The proposal to exchange the initializers of the first and the last one. -/
def Candidate.ends : Candidate := ⟨.range 5 9, .initializerSwap, "15-19"⟩

/-- With another local in between, the name that moves down is still the parameter. -/
theorem Module.declaring_mutate :
    (Module.declaring "z").StmtsApart ∧ Candidate.ends ∈ (Module.declaring "z").scan {} ∧
      ∃ x, (Module.declaring "z").mutate Candidate.ends.request 64 = .ok x ∧
        x.report.isApplied = true ∧
        x.module.scoping.references [] = [(.token 8, "a", some (.token 2, .param))] ∧
        ∃ (A M B : Scoping Span) (E : Env Span) (front back : List _),
          x.module.scoping.references [] = front ++ (B.references E ++ (M.references E ++
            (A.references (M.bound E) ++ back))) ∧
          B.references E = B.references (M.bound E) := by
  have given : ((Module.declaring "z").mutate Candidate.ends.request 64).map
      (fun x => (x.report.isApplied, x.module.scoping.references [])) =
      .ok (true, [(.token 8, "a", some (.token 2, .param))]) := by rfl
  obtain ⟨x, ok, reported⟩ := exists_of_map_ok given
  obtain ⟨applied, after⟩ := Prod.mk.inj reported
  have apart : (Module.declaring "z").StmtsApart := by decide +kernel
  have proposed : Candidate.ends ∈ (Module.declaring "z").scan {} := by decide +kernel
  have distinct : (Module.declaring "z").scoping.binderPlaces.Nodup := by decide +kernel
  obtain ⟨_, _, _, _, _, _, _, _, _, _, -, -, -, -, kept⟩ :=
    Module.mutate_initializers apart proposed rfl ok applied
  obtain ⟨new, A, M, B, E, front, back, places, -, -, -, -, references, moved, -⟩ :=
    kept Span id _ (map_id _) distinct
  rw [map_id] at places
  rw [places] at references
  exact ⟨apart, proposed, x, ok, applied, after, A, M, B, E, front, back, references, moved⟩

/-- With another `a` in between, the exchange is proposed too. The name that moves down is then that
local, which is no integer. -/
theorem Module.redeclared_mutate :
    (Module.declaring "a").StmtsApart ∧ Candidate.ends ∈ (Module.declaring "a").scan {} ∧
      ∃ x, (Module.declaring "a").mutate Candidate.ends.request 64 = .ok x ∧
        x.report.isApplied = true ∧
        (Module.declaring "a").scoping.references [] = [(.token 8, "a", some (.token 2, .param))] ∧
        x.module.scoping.references [] = [(.token 8, "a", some (.token 11, .local))] := by
  have given : ((Module.declaring "a").mutate Candidate.ends.request 64).map
      (fun x => (x.report.isApplied, x.module.scoping.references [])) =
      .ok (true, [(.token 8, "a", some (.token 11, .local))]) := by rfl
  obtain ⟨x, ok, reported⟩ := exists_of_map_ok given
  obtain ⟨applied, after⟩ := Prod.mk.inj reported
  exact ⟨by decide +kernel, by decide +kernel, x, ok, applied, by rfl, after⟩

end Mutation
