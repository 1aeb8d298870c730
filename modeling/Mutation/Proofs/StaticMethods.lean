import Mutation.Proofs.FirstSlot
import Mutation.Scan

/-!
# Static methods and exchanged bodies

A static method is called without an object, so its code cannot read `this`. An exchange of bodies
looks at the formals of the two methods, and not at whether they are static. It keeps the static
methods of a module clear of `this` exactly when the two methods are alike in this or neither body
reads `this` (`Module.afterward_statics`). A scan proposes the other exchanges as well
(`Module.counting_static`).
-/

namespace Mutation

/-- The compiled code: everything but specifications and ghost code. -/
def Coverage.compiled : Coverage :=
  ⟨fun _ => true, fun context => context = .executable, fun _ => true⟩

/-- A `this` stands here. -/
def Place.isThis : Place → Bool
  | .expr e => e.isThis
  | _ => false

namespace Method

/-- There is a `this` in the executable code of the body. -/
def readsThis (d : Method) : Bool := (Block.placesOpt .compiled d.body).any Place.isThis

/-- The method is compiled, and called without an object. -/
def isDetached (d : Method) : Bool := d.isStatic && !d.ghost

end Method

/-- The member is no static method that reads `this`. -/
def Member.isClear : Member → Bool
  | .method d => !(d.isDetached && d.readsThis)
  | _ => true

/-- No static method reads `this` in executable code. -/
def Module.StaticsClear (m : Module) : Prop := ∀ d ∈ m.decls, ∀ x ∈ d.members, x.isClear = true

instance (m : Module) : Decidable m.StaticsClear :=
  inferInstanceAs (Decidable (∀ d ∈ m.decls, ∀ x ∈ d.members, _))

/-! ### Where bodies are exchanged -/

/-- The member lists in a piece. -/
def Piece.memberLists : Piece → List (List Member)
  | .members list => [list]
  | .decl d => [d.members]
  | .module m => m.decls.map Decl.members
  | _ => []

/-- A piece has the member lists of the pieces that it holds. -/
theorem Carries.memberLists {spans : List Span} {c c' x x' : Piece} (h : Carries spans c c' x x')
    (listed : c.memberLists ≠ []) : ∃ pre post, x.memberLists = pre ++ (c.memberLists ++ post) ∧
      x'.memberLists = pre ++ (c'.memberLists ++ post) := by
  cases h with
  | «class» | datatype => exact ⟨[], [], rfl, rfl⟩
  | @decl name pre d d' post =>
    exact ⟨pre.map Decl.members, post.map Decl.members, by simp [Piece.memberLists]⟩
  | _ => exact absurd rfl listed

/-- A member list that is exchanged is one of the lists in the piece, and the others stay. -/
theorem Exchanged.memberLists {p : Place} {new : p.Content} {spans : List Span} {x x' : Piece}
    (h : Exchanged p new spans x x') {list list' : List Member} (place : p = .members list)
    (content : HEq new list') :
    ∃ pre post, x.memberLists = pre ++ list :: post ∧ x'.memberLists = pre ++ list' :: post := by
  induction h with
  | members =>
    cases place
    cases content
    exact ⟨[], [], rfl, rfl⟩
  | inside hc _ ih =>
    obtain ⟨pre, post, before, after⟩ := ih place content
    obtain ⟨front, back, outer, outer'⟩ := hc.memberLists (by simp [before])
    exact ⟨front ++ pre, post ++ back, by simp [outer, before], by simp [outer', after]⟩
  | _ => cases place

theorem Module.staticsClear_iff {m : Module} :
    m.StaticsClear ↔ ∀ list ∈ (Piece.module m).memberLists, ∀ x ∈ list, x.isClear = true := by
  simp [StaticsClear, Piece.memberLists]

/-- When two members of a list have given way, a property that all of them had is one of the new
two. -/
theorem Member.forall_mem_exchange {P : Member → Prop} {list : List Member}
    (all : ∀ x ∈ list, P x) {i j : Nat} (apart : i ≠ j) {x y : Member} (hi : list[i]? = some x)
    (hj : list[j]? = some y) (a b : Member) :
    (∀ x ∈ (list.set i a).set j b, P x) ↔ P a ∧ P b := by
  have placed : j < (list.set i a).length := by
    rw [List.length_set]
    exact (List.getElem?_eq_some_iff.1 hj).1
  constructor
  · exact fun h => ⟨h a (List.mem_of_getElem? (getElem?_exchange apart hi)),
      h b (List.mem_of_getElem? (List.getElem?_set_self placed))⟩
  · rintro ⟨ha, hb⟩ x hx
    rcases mem_of_mem_exchange hx with hx | rfl | rfl
    · exact all x hx
    · exact ha
    · exact hb

/-- Two methods that have exchanged their bodies are clear of `this` when both are static or neither
is, or when neither body reads it. -/
theorem Method.isClear_exchanged {a b : Method} (clearA : (Member.method a).isClear = true)
    (clearB : (Member.method b).isClear = true) :
    (Member.method { a with body := b.body }).isClear = true ∧
        (Member.method { b with body := a.body }).isClear = true ↔
      a.isDetached = b.isDetached ∨ a.readsThis = false ∧ b.readsThis = false := by
  change (!(a.isDetached && a.readsThis)) = true at clearA
  change (!(b.isDetached && b.readsThis)) = true at clearB
  change (!(a.isDetached && b.readsThis)) = true ∧ (!(b.isDetached && a.readsThis)) = true ↔ _
  revert clearA clearB
  cases a.isDetached <;> cases b.isDetached <;> cases a.readsThis <;> cases b.readsThis <;> decide

/-- A request to exchange the bodies of two methods leaves a module alone, or exchanges those of the
method `a` at its location and the method `b` that it names. When no static method read `this`, then
none does afterwards exactly when both methods are static, or neither of them is, or neither body
reads `this`. -/
theorem Module.afterward_statics {m : Module} {r : Request} {limit : Nat} (clear : m.StaticsClear)
    (kind : r.kind = .bodySwap) :
    m.afterward r limit = m ∨ ∃ list i j a b spans,
      Operator.make r.kind r.argument = .ok (.swapBodies b.name) ∧
      r.location.matchesB a.span = true ∧ a.sameFormalsAs b = true ∧ i ≠ j ∧
      list[i]? = some (.method a) ∧ list[j]? = some (.method b) ∧
      Exchanged (.members list)
        ((list.set i (.method { a with body := b.body })).set j (.method { b with body := a.body }))
        spans (.module m) (.module (m.afterward r limit)) ∧
      ((m.afterward r limit).StaticsClear ↔
        a.isDetached = b.isDetached ∨ a.readsThis = false ∧ b.readsThis = false) := by
  refine (m.afterward_cases r limit).imp_right ?_
  rintro ⟨op, owner, p, spans, made, new, span, done, exchanged⟩
  have opKind := (Operator.kind_of_make made).trans kind
  have level : p.level = .members := by rw [Operator.level_of_done done, opKind]; rfl
  cases op with
  | swapBodies name =>
    cases p with
    | members list =>
      have swapped : Member.swapBodies r.location name list = .done (new, span) :=
        Outcome.answer_id_eq_done_iff.1 done
      obtain ⟨i, j, a, b, x, y, apart, ha, hb, here, rfl, formals, bodyA, bodyB, rfl⟩ :=
        Member.swapBodies_done swapped
      rw [← bodyA, ← bodyB] at exchanged
      refine ⟨list, i, j, a, b, spans, made, here, formals, apart, ha, hb, exchanged, ?_⟩
      obtain ⟨pre, post, before, after⟩ := exchanged.memberLists rfl .rfl
      rw [Module.staticsClear_iff, before] at clear
      rw [Module.staticsClear_iff, after]
      have listClear : ∀ x ∈ list, x.isClear = true := clear list (by simp)
      rw [← Method.isClear_exchanged (listClear _ (List.mem_of_getElem? ha))
        (listClear _ (List.mem_of_getElem? hb)),
        ← Member.forall_mem_exchange listClear apart ha hb]
      -- the other lists are clear as they were
      simp only [List.forall_mem_append, List.forall_mem_cons] at clear ⊢
      exact ⟨fun h => h.2.1, fun h => ⟨clear.1, h, clear.2.2⟩⟩
    | stmts list | element s | expr e => cases level
  | _ => cases opKind

/-- A class with a field `v`, a method that returns `this.v`, and one that returns a number. -/
def Module.counting (isStatic : Bool) : Module :=
  let out : Variable := { name := "r", ty := .int, span := .token 2 }
  let returning (value : Expr) (pos : Pos) : Block :=
    ⟨[⟨.ret [value], .range (pos + 1) (pos + 5), false⟩], .range pos (pos + 6)⟩
  ⟨"m", [.class
    { name := "C"
      span := .range 0 40
      members := [
        .field { name := "v", ty := .int, span := .token 1 },
        .method
          { name := "get"
            params := []
            outs := [out]
            span := .range 2 19
            body := some
              (returning ⟨.member ⟨.this, .token 13, .class "C"⟩ "v", .token 14, .int⟩ 10) },
        .method
          { name := "zero"
            params := []
            outs := [out]
            isStatic := isStatic
            span := .range 20 39
            body := some (returning ⟨.literal (.int (.ofByte 0)), .token 33, .int⟩ 30) }] }]⟩

/-- The proposal to exchange the bodies of the two methods. -/
def Candidate.exchangeMethods : Candidate := ⟨.range 2 19, .bodySwap, "zero"⟩

/-- The module after that exchange. -/
def Module.counted (isStatic : Bool) : Module :=
  (Module.counting isStatic).afterward Candidate.exchangeMethods.request 64

/-- When neither method is static, `zero` reads `this` after the exchange, and may do so. -/
theorem Module.counting_alike :
    (Module.counting false).StaticsClear ∧
      Candidate.exchangeMethods ∈ (Module.counting false).scan {} ∧
      ((Module.counted false).findMethod? "C" "zero").map Method.readsThis = some true ∧
      (Module.counted false).StaticsClear ∧
      ∃ a b : Method, Candidate.exchangeMethods.location.matchesB a.span = true ∧ b.name = "zero" ∧
        ((Module.counted false).StaticsClear ↔
          a.isDetached = b.isDetached ∨ a.readsThis = false ∧ b.readsThis = false) := by
  have clear : (Module.counting false).StaticsClear := by decide +kernel
  have reads :
      ((Module.counted false).findMethod? "C" "zero").map Method.readsThis = some true := by rfl
  have kept : (Module.counted false).StaticsClear := by decide +kernel
  refine ⟨clear, by decide +kernel, reads, kept, ?_⟩
  rcases @Module.afterward_statics _ Candidate.exchangeMethods.request 64 clear rfl with
    same | ⟨_, _, _, a, b, _, made, here, -, -, -, -, -, statics⟩
  · rw [Module.counted, same] at reads
    cases reads
  · have requested : Operator.make .bodySwap (some "zero") = .ok (.swapBodies "zero") := by rfl
    have name := Operator.swapBodies.inj (Except.ok.inj (made.symm.trans requested))
    exact ⟨a, b, here, name, statics⟩

/-- When only `zero` is static, the exchange is proposed all the same, and `zero` then returns
`this.v`. -/
theorem Module.counting_static :
    (Module.counting true).StaticsClear ∧ (Module.counting true).Unambiguous ∧
      Candidate.exchangeMethods ∈ (Module.counting true).scan {} ∧
      ∃ x, (Module.counting true).mutate Candidate.exchangeMethods.request 64 = .ok x ∧
        x.report.isApplied = true ∧ ¬x.module.StaticsClear := by
  have given : ((Module.counting true).mutate Candidate.exchangeMethods.request 64).map
      (fun x => (x.report.isApplied, decide x.module.StaticsClear)) = .ok (true, false) := by
    rfl
  obtain ⟨x, ok, reported⟩ := exists_of_map_ok given
  obtain ⟨applied, reads⟩ := Prod.mk.inj reported
  exact ⟨by decide +kernel, by decide +kernel, by decide +kernel, x, ok, applied,
    of_decide_eq_false reads⟩

end Mutation
