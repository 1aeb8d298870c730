import Mutation.Proofs.Coherence
import Mutation.Proofs.FirstSlot
import Mutation.Proofs.Undoing

/-!
# Swaps take themselves back

Three kinds of requests exchange two things of one sort: two arguments of a call, the values of two
declarations, the bodies of two methods. What tells where they act is not exchanged: the span of
the call, the spans of the declarations and that each has one local and one value, the spans and
names of the methods. So the same request meets the same two places again and puts back what it has
taken (`Module.mutate_swapped`). For the values of declarations, the copy in each declaration has to
be in step to come back as it was.
-/

namespace Mutation

/-- Two elements put in place of two others, and the others put back. -/
theorem exchange_exchange {α : Type} {list : List α} {i j : Nat} {a b : α} (hi : list[i]? = some a)
    (hj : list[j]? = some b) (c d : α) : (((list.set i c).set j d).set i a).set j b = list := by
  refine List.ext_getElem? fun k => ?_
  simp only [List.getElem?_set, List.length_set]
  grind

theorem swapAt_eq {α : Type} {list : List α} {i j : Nat} {a b : α} (hi : list[i]? = some a)
    (hj : list[j]? = some b) : swapAt list i j = (list.set i b).set j a := by
  simp only [swapAt, hi, hj]

/-- What stands at the two places after an exchange. -/
theorem getElem?_swapAt {α : Type} {list : List α} {i j : Nat} {a b : α} (hi : list[i]? = some a)
    (hj : list[j]? = some b) :
    (swapAt list i j)[i]? = some b ∧ (swapAt list i j)[j]? = some a := by
  rw [swapAt_eq hi hj]
  simp only [List.getElem?_set, List.length_set]
  grind

theorem swapAt_swapAt {α : Type} {list : List α} {i j : Nat} {a b : α} (hi : list[i]? = some a)
    (hj : list[j]? = some b) : swapAt (swapAt list i j) i j = list := by
  obtain ⟨hi', hj'⟩ := getElem?_swapAt hi hj
  rw [swapAt_eq hi' hj', swapAt_eq hi hj]
  exact exchange_exchange hi hj b a

/-- An element gives way to one with the same profile. -/
theorem map_set_of_same {α γ : Type} {profile : α → γ} {list : List α} {i : Nat} {a a' : α}
    (hi : list[i]? = some a) (same : profile a' = profile a) :
    (list.set i a').map profile = list.map profile := by
  refine List.ext_getElem? fun k => ?_
  simp only [List.getElem?_map, List.getElem?_set]
  grind

/-! ### Arguments -/

/-- Arguments that have been exchanged are exchanged back. -/
theorem Expr.swapArguments_back {i j : Nat} {e e' : Expr} (h : e.swapArguments i j = .done e') :
    e'.span = e.span ∧ e'.profile = e.profile ∧ e'.swapArguments i j = .done e := by
  obtain ⟨kind, span, ty⟩ := e
  cases kind with
  | call r method args =>
    simp only [swapArguments] at h
    split at h
    case h_2 => cases h
    case h_1 a b ha hb =>
      obtain ⟨types, rfl⟩ := Outcome.if_done_iff.1 h
      obtain ⟨ha', hb'⟩ := getElem?_swapAt ha hb
      refine ⟨rfl, rfl, ?_⟩
      simp only [swapArguments, ha', hb', types, if_true, swapAt_swapAt ha hb]
  | _ => cases h

/-- The exchange of arguments passes over everything but calls. -/
theorem Expr.swapArguments_eq_pass {i j : Nat} {e : Expr} :
    e.swapArguments i j = .pass e ↔ e.kind.shape ≠ .call := by
  obtain ⟨kind, span, ty⟩ := e
  cases kind with
  | call r method args =>
    refine ⟨fun pass => ?_, fun other => absurd rfl other⟩
    simp only [swapArguments] at pass
    split at pass
    · split at pass <;> cases pass
    · cases pass
  | _ => simp [swapArguments, ExprKind.shape]

/-! ### Values of declarations -/

/-- A declaration with another value is seen from its list as before, and has its old value put
back, if it was in step. -/
theorem Stmt.withValue_back {s : Stmt} {v : Variable} {a : Expr} (b : Expr)
    (h : s.simpleDecl? = some (v, a)) :
    (s.withValue b).profile = s.profile ∧ (s.withValue b).simpleDecl? = some (v, b) ∧
      (s.Meets .coherent → (s.withValue b).withValue a = s) := by
  obtain ⟨targets, resolved, span, ghost, rfl⟩ := Stmt.eq_of_simpleDecl? h
  refine ⟨rfl, rfl, fun coherent => ?_⟩
  have step : Update.sync ⟨targets, [a], resolved⟩ = ⟨targets, [a], resolved⟩ :=
    (coherent ⟨targets, [a], resolved⟩ rfl).step
  show Stmt.mk (.varDecl ⟨[v], some (Update.sync ⟨targets, [a], resolved⟩)⟩) span ghost = _
  rw [step]

theorem Stmt.declIdx?_congr {list list' : List Stmt}
    (same : list'.map Stmt.profile = list.map Stmt.profile) (location : Location) :
    declIdx? location list' = declIdx? location list := by
  have seen (list : List Stmt) : declIdx? location list =
      (list.map Stmt.profile).findIdx? fun x => location.matchesB x.1 && x.2.2 := by
    rw [List.findIdx?_map]
    rfl
  rw [seen, seen, same]

/-- The exchange of values passes over a list without a declaration at the target. -/
theorem Stmt.swapInits_eq_pass {target other : Location} {list : List Stmt} :
    swapInits target other list = .pass list ↔ declIdx? target list = none := by
  unfold swapInits
  cases declIdx? target list with
  | none => simp
  | some i =>
    refine iff_of_false ?_ (by simp)
    intro pass
    simp only at pass
    repeat' split at pass
    all_goals cases pass

/-- Values that have been exchanged are exchanged back. -/
theorem Stmt.swapInits_back {target other : Location} {list list' : List Stmt} {span : Span}
    (coherent : Stmt.MeetsList .coherent list)
    (h : swapInits target other list = .done (list', span)) :
    swapInits target other list' = .done (list, span) := by
  obtain ⟨i, j, s, t, v, w, a, b, foundI, foundJ, apart, hs, ht, first, second, types, rfl, rfl⟩ :=
    swapInits_done_iff.1 h
  obtain ⟨profileS, firstNow, backS⟩ := Stmt.withValue_back b first
  obtain ⟨profileT, secondNow, backT⟩ := Stmt.withValue_back a second
  have ht' : (list.set i (s.withValue b))[j]? = some t := by
    rw [List.getElem?_set_ne apart, ht]
  have same : ((list.set i (s.withValue b)).set j (t.withValue a)).map Stmt.profile =
      list.map Stmt.profile := by
    rw [map_set_of_same ht' profileT, map_set_of_same hs profileS]
  have meets := Stmt.meetsList_iff.1 coherent
  have span : (s.withValue b).span = s.span := congrArg Prod.fst profileS
  refine swapInits_done_iff.2 ⟨i, j, s.withValue b, t.withValue a, v, w, b, a, ?_, ?_, apart,
    getElem?_exchange apart hs, ?_, firstNow, secondNow, types, ?_, span.symm⟩
  · rw [declIdx?_congr same, foundI]
  · rw [declIdx?_congr same, foundJ]
  · rw [List.getElem?_set_self (List.getElem?_eq_some_iff.1 ht').1]
  · rw [backS (meets s (List.mem_of_getElem? hs)), backT (meets t (List.mem_of_getElem? ht)),
      exchange_exchange hs ht]

/-! ### Bodies of methods -/

/-- A search for a member that asks what its profile tells finds the member of the same index. -/
theorem Member.findIdx?_congr {list list' : List Member}
    (same : list'.map Member.profile = list.map Member.profile)
    (p : Span × Context × String × Bool → Bool) :
    (list'.findIdx? fun m => p m.profile) = list.findIdx? fun m => p m.profile := by
  have seen (list : List Member) : (list.findIdx? fun m => p m.profile) =
      (list.map Member.profile).findIdx? p := by
    rw [List.findIdx?_map]
    rfl
  rw [seen, seen, same]

/-- The exchange of bodies passes over a list without a method at the target. -/
theorem Member.swapBodies_eq_pass {target : Location} {name : String} {list : List Member} :
    swapBodies target name list = .pass list ↔
      (list.findIdx? fun m => m.method?.isSome && target.matchesB m.span) = none := by
  unfold swapBodies
  cases list.findIdx? fun m => m.method?.isSome && target.matchesB m.span with
  | none => simp
  | some i =>
    refine iff_of_false ?_ (by simp)
    intro pass
    simp only at pass
    repeat' split at pass
    all_goals cases pass

/-- Bodies that have been exchanged are exchanged back. -/
theorem Member.swapBodies_back {target : Location} {name : String} {list list' : List Member}
    {span : Span} (h : swapBodies target name list = .done (list', span)) :
    swapBodies target name list' = .done (list, span) := by
  obtain ⟨i, j, a, b, foundI, foundJ, apart, ha, hb, shape, rfl, rfl⟩ := swapBodies_done_iff.1 h
  have hb' : (list.set i (.method { a with body := b.body }))[j]? = some (.method b) := by
    rw [List.getElem?_set_ne apart, hb]
  have seenA : (Member.method { a with body := b.body }).profile = (Member.method a).profile := rfl
  have seenB : (Member.method { b with body := a.body }).profile = (Member.method b).profile := rfl
  have same : ((list.set i (.method { a with body := b.body })).set j
      (.method { b with body := a.body })).map Member.profile = list.map Member.profile := by
    rw [map_set_of_same hb' seenB, map_set_of_same ha seenA]
  refine swapBodies_done_iff.2 ⟨i, j, { a with body := b.body }, { b with body := a.body }, ?_, ?_,
    apart, getElem?_exchange apart ha, ?_, ?_, (exchange_exchange ha hb _ _).symm, rfl⟩
  · rw [← foundI]
    exact findIdx?_congr same fun x => x.2.2.2 && target.matchesB x.1
  · rw [← foundJ]
    exact findIdx?_congr same fun x => x.2.2.2 && x.2.2.1 == name
  · rw [List.getElem?_set_self (List.getElem?_eq_some_iff.1 hb').1]
  · simp only [Bool.and_eq_true] at shape ⊢
    exact ⟨⟨shape.1.1, shape.2⟩, shape.1.2⟩

/-! ### Requests -/

theorem Invariant.inStep_coherent : Invariant.coherent.InStep where
  parts h := h.parts
  chain := by
    intro c span ty h
    cases h with
    | mk _ step _ => exact step c rfl
  targets h := h.targets
  values h := h.values
  update h := h.step
  initial h := (h _ rfl).values
  decl h := (h _ rfl).step

namespace Operator

variable {base base' : Site} {owner : Option String}

theorem undoes_swapArguments (target : base'.target = base.target) (i j : Nat) :
    Undoes .coherent (.swapArguments i j) (.swapArguments i j) base base' := by
  apply undoes_onExpr (fun _ e => e.swapArguments i j) (fun _ e => e.swapArguments i j)
    Invariant.inStep_coherent rfl rfl (fun _ _ => rfl) (fun _ _ => rfl) target
  · intro _ e e' _ done
    exact Expr.swapArguments_back done
  · intro _ e e' _ _ pass seen
    have shape : e'.kind.shape = e.kind.shape := congrArg Prod.fst seen
    rw [Expr.swapArguments_eq_pass, shape]
    exact Expr.swapArguments_eq_pass.1 pass

theorem undoes_swapInits (target : base'.target = base.target) (start stop : Pos) :
    Undoes .coherent (.swapInits start stop) (.swapInits start stop) base base' where
  inStep := Invariant.inStep_coherent
  exprDone _ done := by simp [onExpr] at done
  exprPass _ _ _ _ := by simp [onExpr]
  stmtsDone := by
    intro owner list list' span notes coherent done
    simp only [onStmts, Prod.mk.injEq, Site.inside] at done ⊢
    rw [target]
    exact ⟨Stmt.swapInits_back coherent done.1, done.2⟩
  stmtsPass := by
    intro owner list list' notes pass same
    simp only [onStmts, Prod.mk.injEq, Site.inside, Stmt.swapInits_eq_pass] at pass ⊢
    rw [target, Stmt.declIdx?_congr same]
    exact pass
  membersDone done := by cases done
  membersPass _ _ := rfl
  element site s := by simp [onStmt]
  element' site s := by simp [onStmt]

theorem undoes_swapBodies (target : base'.target = base.target) (name : String) :
    Undoes .coherent (.swapBodies name) (.swapBodies name) base base' where
  inStep := Invariant.inStep_coherent
  exprDone _ done := by simp [onExpr] at done
  exprPass _ _ _ _ := by simp [onExpr]
  stmtsDone _ done := by cases done
  stmtsPass pass _ := by
    cases pass
    rfl
  membersDone := by
    intro owner list list' span done
    simp only [onMembers, Site.inside] at done ⊢
    rw [target]
    exact Member.swapBodies_back done
  membersPass := by
    intro owner list list' pass same
    simp only [onMembers, Site.inside, Member.swapBodies_eq_pass] at pass ⊢
    rw [target, ← pass]
    exact Member.findIdx?_congr same fun x => x.2.2.2 && base.target.matchesB x.1
  element site s := by simp [onStmt]
  element' site s := by simp [onStmt]

/-- The operators that exchange two things take back what they do. -/
theorem undoes_itself {op : Operator} (target : base'.target = base.target)
    (swap : op.kind = .argumentSwap ∨ op.kind = .initializerSwap ∨ op.kind = .bodySwap) :
    Undoes .coherent op op base base' := by
  cases op with
  | swapArguments i j => exact undoes_swapArguments target i j
  | swapInits start stop => exact undoes_swapInits target start stop
  | swapBodies name => exact undoes_swapBodies target name
  | _ => simp [kind] at swap

end Operator

/-- Swaps are involutions: in a module in which every copy is in step, a swap that has been applied
is applied again by the same request, with the same report and the same notes, and that restores
the module. -/
theorem Module.mutate_swapped {m : Module} {r : Request} {limit : Nat} {x : Mutant}
    (coherent : m.Coherent)
    (swap : r.kind = .argumentSwap ∨ r.kind = .initializerSwap ∨ r.kind = .bodySwap)
    (ok : m.mutate r limit = .ok x) (applied : x.report.isApplied = true) :
    x.module.mutate r limit = .ok { x with module := m } := by
  cases made : Operator.make r.kind r.argument with
  | error fault =>
    rw [Module.mutate_error made] at ok
    cases ok
  | ok op =>
    rw [← Operator.kind_of_make made] at swap
    have undoes : Undoes .coherent op op (m.site r limit) (x.module.site r limit) :=
      Operator.undoes_itself rfl swap
    have back := Module.mutate_back (m.meets_coherent.2 coherent) made made rfl ok applied undoes
    rw [back, ← Module.kind_of_mutate ok]

/-- The chain `f(a, b) < c <= d`, in step, as the value of an assignment. -/
def Update.ranked : Update :=
  .make [⟨.name "x", .token 4, .bool⟩]
    [⟨.chain (Chain.rebuild ⟨[⟨.call none "f" [⟨.name "a", .token 7, .int⟩,
      ⟨.name "b", .token 8, .int⟩], .range 6 9, .int⟩, ⟨.name "c", .token 11, .int⟩,
      ⟨.name "d", .token 13, .int⟩], [.lt, .le], none⟩), ⟨6, 13, 10⟩, .bool⟩]

/-- A method that assigns a chain with a call in it. -/
def Module.ranked : Module :=
  ⟨"m", [.class
    { name := "C"
      span := .range 0 20
      members := [.method
        { name := "g"
          params := []
          span := .range 1 19
          body := some ⟨[⟨.update .ranked, .range 4 14, false⟩], .range 3 18⟩ }] }]⟩

/-- The arguments are exchanged in the chain, in the copy of the chain, and in both in the copy of
the assignment; a second exchange restores all four. -/
theorem Module.ranked_mutate_swapped :
    Module.ranked.Coherent ∧
    ∃ x, Module.ranked.mutate ⟨.range 6 9, .argumentSwap, some "0;1"⟩ 64 = .ok x ∧
      x.report.found = some .assignment ∧
      x.module.mutate ⟨.range 6 9, .argumentSwap, some "0;1"⟩ 64 =
        .ok { x with module := Module.ranked } := by
  have leaf : ∀ {n : String} {span : Span} {ty : Ty}, Expr.Coherent ⟨.name n, span, ty⟩ :=
    .ofParts (by simp) (by simp [ExprKind.parts])
  have call : ∀ {span : Span} {ty : Ty} {args : List Expr}, (∀ e ∈ args, e.Coherent) →
      Expr.Coherent ⟨.call none "f" args, span, ty⟩ :=
    fun args => .ofParts (by simp) (by simpa [ExprKind.parts] using args)
  have update : Update.ranked.Coherent := by
    refine Update.coherent_make (by simp [leaf]) ?_
    rintro e he
    obtain rfl := List.mem_singleton.1 he
    refine .rebuilt ?_
    simp only [List.mem_cons, List.not_mem_nil, or_false, forall_eq_or_imp, forall_eq]
    exact ⟨call (by simp [leaf]), leaf, leaf⟩
  have coherent : Module.ranked.Coherent := by
    intro d hd
    obtain rfl := List.mem_singleton.1 hd
    intro m hm
    obtain rfl := List.mem_singleton.1 hm
    refine ⟨by simp [Contract.Coherent, Contract.clauses], ?_⟩
    rintro _ ⟨⟩
    exact ⟨update, trivial⟩
  have given : (Module.ranked.mutate ⟨.range 6 9, .argumentSwap, some "0;1"⟩ 64).map
      (fun x => x.report.found) = .ok (some .assignment) := by
    rfl
  obtain ⟨x, ok, found⟩ := exists_of_map_ok given
  have applied : x.report.isApplied = true := by
    rw [Report.isApplied, found]
    rfl
  exact ⟨coherent, x, ok, found, Module.mutate_swapped coherent (.inl rfl) ok applied⟩

end Mutation
