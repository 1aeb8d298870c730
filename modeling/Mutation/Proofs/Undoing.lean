import Mutation.Proofs.Invariant
import Mutation.Proofs.Unambiguous

/-!
# A second search takes the first one back

`Undoes` says of two operators what the second has to do with what the first has left: take back
each change, and pass over each node that the first has passed over, also when a change has been
made inside the node. `Undone` says of two walks from one state, the first of a piece and the second
of what the first has made of it, that both go on in the same state with nothing changed, or that
both end in the same state and the second leaves the piece as it was before the first. Walks of
neighbouring parts compose, and a chain or an assignment that was in step at the start is in step
with its old parts again, so the second search of a whole module restores it and reports what the
first has reported (`Module.mutate_back`).

What the second walk sees of a node that the first has changed is its profile: the span, the sort
of the node, and what operators ask about the parts of an expression or the elements of a list.
-/

namespace Mutation

variable {α β γ δ : Type}

/-! ### Profiles -/

/-- What is seen of a statement from the list it stands in. -/
def Stmt.profile (s : Stmt) : Span × Context × Bool := (s.span, s.context, s.simpleDecl?.isSome)

/-- What is seen of a member from the declaration it stands in. -/
def Member.profile (m : Member) : Span × Context × String × Bool :=
  (m.span, m.context, m.name, m.method?.isSome)

/-- What is seen of a declaration of locals. -/
def VarDecl.profile (d : VarDecl) : List Variable × Option Nat :=
  (d.locals, d.init.map fun u => u.values.length)

/-- What is seen of an expression from around it: whether it is a target that is walked, and whether
it is the receiver of a field of its own class. -/
def Expr.profile (e : Expr) : Bool × Bool := (e.isIndex, e.isThis)

/-- What is seen of the inside of an expression from the expression itself. -/
def ExprKind.profile (kind : ExprKind) : Shape × List (Bool × Bool) :=
  (kind.shape, kind.parts.map Expr.profile)

/-- Two expressions with forms of one profile have one profile. -/
theorem Expr.profile_eq {e e' : Expr} (h : e'.kind.profile = e.kind.profile) :
    e'.profile = e.profile := by
  have seen (e : Expr) :
      e.profile = (decide (e.kind.shape = .index), decide (e.kind.shape = .this)) := by
    obtain ⟨kind, span, ty⟩ := e
    cases kind <;> rfl
  have shape : e'.kind.shape = e.kind.shape := congrArg Prod.fst h
  rw [seen, seen, shape]

/-- Other parts leave the shape of a form as it was. -/
theorem ExprKind.shape_withParts (kind : ExprKind) (es : List Expr) :
    (kind.withParts es).shape = kind.shape := by
  cases kind <;> rfl

/-- Parts that are put in place of others may be replaced in turn. -/
theorem ExprKind.withParts_withParts {kind : ExprKind} {es fs : List Expr}
    (len : es.length = kind.parts.length) (len' : fs.length = kind.parts.length) :
    (kind.withParts es).withParts fs = kind.withParts fs := by
  cases kind with
  | literal _ | name _ | this | chain _ | display _ _ | ctor _ _ _ | mapDisplay _ => rfl
  | binary _ _ _ | index _ _ =>
    obtain ⟨a, b, rfl⟩ := List.length_eq_two.1 len'
    rfl
  | unary _ _ | member _ _ | tupleIndex _ _ | old _ =>
    obtain ⟨a, rfl⟩ := List.length_eq_one_iff.1 len'
    rfl
  | ite _ _ _ =>
    obtain ⟨a, b, c, rfl⟩ := List.length_eq_three.1 len'
    rfl
  | call r method args =>
    cases r with
    | none => rfl
    | some r =>
      obtain ⟨a, as, rfl⟩ := List.exists_cons_of_length_eq_add_one len'
      rfl
  | arrayAlloc t dims init =>
    have short : (es.take dims.length).length = dims.length := by
      simp only [parts, List.length_append] at len
      rw [List.length_take]
      omega
    simp only [withParts, short, Option.map_map]
    rfl

theorem ExprKind.withParts_ne_old {kind : ExprKind} (old : ∀ e, kind ≠ .old e) (es : List Expr)
    (e : Expr) : kind.withParts es ≠ .old e := by
  cases kind with
  | old e => exact absurd rfl (old e)
  | _ => simp [withParts]

/-- The walk of a shape with other parts puts the same shape together. -/
theorem Revision.exprKind_withParts {σ : Type} (v : Revision σ) (expr : Walker σ Expr)
    {kind : ExprKind} {es : List Expr} (chain : ∀ c, kind ≠ .chain c) (old : ∀ e, kind ≠ .old e)
    (len : es.length = kind.parts.length) (s : σ) :
    v.exprKind expr (kind.withParts es) s = (exprs expr es s).rebuild kind.withParts := by
  rw [exprKind_eq expr v (ExprKind.withParts_ne_chain chain es) (ExprKind.withParts_ne_old old es),
    ExprKind.parts_withParts len]
  have walked := length_exprs expr es s
  rw [len] at walked
  cases h : exprs expr es s with
  | go r | halt r | cut r =>
    rw [h] at walked
    have same : (kind.withParts es).withParts r.1 = kind.withParts r.1 :=
      ExprKind.withParts_withParts len walked
    simp only [Walked.rebuild_go, Walked.rebuild_halt, Walked.rebuild_cut, same]

/-- Whether a declaration is plain can be read off its profile. -/
theorem VarDecl.isSome_simpleDecl? {d d' : VarDecl} {span : Span} {ghost : Bool}
    (h : d'.profile = d.profile) : (Stmt.mk (.varDecl d') span ghost).simpleDecl?.isSome =
      (Stmt.mk (.varDecl d) span ghost).simpleDecl?.isSome := by
  have seen (d : VarDecl) : (Stmt.mk (.varDecl d) span ghost).simpleDecl?.isSome =
      (d.profile.1.length == 1 && d.profile.2 == some 1) := by
    obtain ⟨_ | ⟨v, _ | ⟨w, locals⟩⟩, _ | ⟨targets, _ | ⟨e, _ | ⟨f, values⟩⟩, resolved⟩⟩ := d <;>
      simp [Stmt.simpleDecl?, VarDecl.profile]
  rw [seen, seen, h]

/-! ### Two walks from one state -/

/-- A walk has come to this, from a state from which `again` is the walk of a second search. When
the first walk goes on, nothing has changed and the second goes on as well. When it has ended with a
change, the profile is as before, and the second walk of what it has left ends in the same state
with the piece as it was. Nothing is said of a first walk that has been cut off. -/
def Undone (ready : Search → Prop) (profile : α → γ) (a : α) (again : α → Walked (α × Search)) :
    Walked (α × Search) → Prop
  | .go (a', s) => a' = a ∧ ready s ∧ again a = .go (a, s)
  | .halt (a', s) =>
    s.found.isSome = true → profile a' = profile a ∧ again a' = .halt (a, s)
  | .cut _ => True

namespace Undone

variable {ready : Search → Prop} {profile : α → γ} {profile' : β → δ} {a : α} {b : β}
  {again : α → Walked (α × Search)} {r : Walked (α × Search)}

/-- A walk that leaves its node is undone by another that leaves it. -/
theorem skip {s : Search} (hs : ready s) :
    Undone ready profile a (fun a => .go (a, s)) (.go (a, s)) :=
  ⟨rfl, hs, rfl⟩

/-- A walk that has ended without a change says nothing. -/
theorem fruitless {a' : α} {s : Search} (h : s.found = none) :
    Undone ready profile a again (.halt (a', s)) := by
  intro found
  rw [h] at found
  cases found

/-- Undoing passes to a node rebuilt from the part that was walked. -/
theorem rebuild (f : α → β) {again' : β → Walked (β × Search)} (h : Undone ready profile a again r)
    (seen : ∀ a', profile a' = profile a → profile' (f a') = profile' (f a))
    (second : ∀ a', profile a' = profile a → again' (f a') = (again a').rebuild f) :
    Undone ready profile' (f a) again' (r.rebuild f) := by
  match r, h with
  | .go (a', s), ⟨same, hs, back⟩ =>
    refine ⟨congrArg f same, hs, ?_⟩
    rw [second a rfl, back, Walked.rebuild_go]
  | .halt (a', s), ended =>
    intro found
    obtain ⟨kept, back⟩ := ended found
    refine ⟨seen a' kept, ?_⟩
    rw [second a' kept, back, Walked.rebuild_halt]
  | .cut _, _ => trivial

/-- Two parts walked in turn are undone in turn: the second walk finds the first part as the edit
left it. -/
theorem both {k : Search → Walked (β × Search)} {again' : β → Search → Walked (β × Search)}
    (h : Undone ready profile a again r)
    (hk : ∀ s, ready s → Undone ready profile' b (fun b => again' b s) (k s)) :
    Undone ready (fun x => (profile x.1, profile' x.2)) (a, b)
      (fun x => (again x.1).both x.2 (again' x.2)) (r.both b k) := by
  match r, h with
  | .go (a', s), ⟨same, hs, back⟩ =>
    subst same
    have rest := hk s hs
    rw [Walked.both_go]
    refine rest.rebuild (fun b => (a', b)) (fun b' kept => ?_) fun b' _ => ?_
    · rw [kept]
    · show (again a').both b' (again' b') = _
      rw [back, Walked.both_go]
  | .halt (a', s), ended =>
    intro found
    obtain ⟨kept, back⟩ := ended found
    refine ⟨?_, ?_⟩
    · show (profile a', profile' b) = (profile a, profile' b)
      rw [kept]
    · show (again a').both b (again' b) = _
      rw [back, Walked.both_halt]
  | .cut _, _ => trivial

/-- The second walk in another form, which agrees on what has the profile. -/
theorem congr {seen : α → δ} {again' : α → Walked (α × Search)}
    (h : Undone ready profile a again r)
    (kept : ∀ a', profile a' = profile a → seen a' = seen a)
    (second : ∀ a', profile a' = profile a → again' a' = again a') :
    Undone ready seen a again' r := by
  have walked : Undone ready seen a again' (r.rebuild fun a => a) := by
    refine h.rebuild (fun a => a) kept fun a' same => ?_
    rw [second a' same, Walked.rebuild_id]
  rwa [Walked.rebuild_id] at walked

/-- What a walk asks of the search may be strengthened. -/
theorem imp {ready' : Search → Prop} (h : Undone ready profile a again r)
    (weaker : ∀ s, ready s → ready' s) : Undone ready' profile a again r := by
  match r, h with
  | .go (_, s), ⟨same, hs, back⟩ => exact ⟨same, weaker s hs, back⟩
  | .halt (_, _), ended => exact ended
  | .cut _, _ => trivial

/-- A piece that is entered on a condition, which its profile decides. -/
theorem gated {gate : Bool} {s : Search} {again' : α → Walked (α × Search)} (hs : ready s)
    (h : gate = true → Undone ready profile a again r)
    (second : ∀ a', profile a' = profile a →
      again' a' = if gate then again a' else .go (a', s)) :
    Undone ready profile a again' (if gate then r else .go (a, s)) := by
  cases gate with
  | false => exact ⟨rfl, hs, second a rfl⟩
  | true =>
    rw [if_pos rfl]
    refine (h rfl).congr (fun _ kept => kept) fun a' kept => ?_
    rw [second a' kept, if_pos rfl]

end Undone

/-- In trees that meet the invariant, chains and assignments are in step. -/
structure Invariant.InStep (I : Invariant) : Prop where
  parts {kind span ty} : I.expr ⟨kind, span, ty⟩ → ∀ e ∈ kind.parts, I.expr e
  chain {c span ty} : I.expr ⟨.chain c, span, ty⟩ → c.rebuild = c
  targets {u} : I.update u → ∀ e ∈ u.targets, I.expr e
  values {u} : I.update u → ∀ e ∈ u.values, I.expr e
  update {u} : I.update u → u.sync = u
  initial {locals u} : I.decl ⟨locals, some u⟩ → ∀ e ∈ u.values, I.expr e
  decl {locals u} : I.decl ⟨locals, some u⟩ → u.sync = u

/-- `op'` takes back what `op` does, in trees that meet the invariant, and passes where `op` passes,
also when something has been changed inside the node. Neither acts on single elements of a list. -/
structure Undoes (I : Invariant) (op op' : Operator) (base base' : Site) : Prop where
  inStep : I.InStep
  exprDone {owner e e'} : I.expr e → op.onExpr (base.inside owner) e = .done e' →
    e'.span = e.span ∧ e'.profile = e.profile ∧ op'.onExpr (base'.inside owner) e' = .done e
  exprPass {owner e e'} : I.expr e → op.onExpr (base.inside owner) e = .pass e →
    e'.span = e.span → e'.kind.profile = e.kind.profile →
    op'.onExpr (base'.inside owner) e' = .pass e'
  stmtsDone {owner list list' span notes} : Stmt.MeetsList I list →
    op.onStmts (base.inside owner) list = (.done (list', span), notes) →
    op'.onStmts (base'.inside owner) list' = (.done (list, span), notes)
  stmtsPass {owner list list' notes} :
    op.onStmts (base.inside owner) list = (.pass list, notes) →
    list'.map Stmt.profile = list.map Stmt.profile →
    op'.onStmts (base'.inside owner) list' = (.pass list', notes)
  membersDone {owner list list' span} :
    op.onMembers (base.inside owner) list = .done (list', span) →
    op'.onMembers (base'.inside owner) list' = .done (list, span)
  membersPass {owner list list'} : op.onMembers (base.inside owner) list = .pass list →
    list'.map Member.profile = list.map Member.profile →
    op'.onMembers (base'.inside owner) list' = .pass list'
  element (site s) : op.onStmt site s = .pass s
  element' (site s) : op'.onStmt site s = .pass s

namespace Operator

variable {op op' : Operator} {base base' : Site}

/-- An operator on expressions answers at no list. -/
theorem onStmts_of_level (level : op.level = .expr) (site : Site) (list : List Stmt) :
    op.onStmts site list = (.pass list, []) := by
  cases op <;> first | rfl | cases level

/-- Nor at a member list. -/
theorem onMembers_of_level (level : op.level = .expr) (site : Site) (list : List Member) :
    op.onMembers site list = .pass list := by
  cases op <;> first | rfl | cases level

/-- Nor at a statement. -/
theorem onStmt_of_level (level : op.level = .expr) (site : Site) (s : Stmt) :
    op.onStmt site s = .pass s := by
  cases op <;> first | (simp [onStmt]; done) | cases level

/-- Two operators that act on the expressions their target addresses are compared there. -/
theorem undoes_onExpr {I : Invariant} (act act' : Option String → Expr → Outcome Expr Expr)
    (inStep : I.InStep) (level : op.level = .expr) (level' : op'.level = .expr)
    (acts : ∀ owner e, op.onExpr (base.inside owner) e =
      if base.target.matchesB e.span then act owner e else .pass e)
    (acts' : ∀ owner e, op'.onExpr (base'.inside owner) e =
      if base'.target.matchesB e.span then act' owner e else .pass e)
    (target : base'.target = base.target)
    (done : ∀ {owner e e'}, I.expr e → act owner e = .done e' →
      e'.span = e.span ∧ e'.profile = e.profile ∧ act' owner e' = .done e)
    (pass : ∀ {owner e e'}, I.expr e → base.target.matchesB e.span = true → act owner e = .pass e →
      e'.kind.profile = e.kind.profile → act' owner e' = .pass e') :
    Undoes I op op' base base' where
  inStep := inStep
  exprDone := by
    intro owner e e' he answer
    rw [acts] at answer
    split at answer
    · rename_i here
      obtain ⟨span, seen, back⟩ := done he answer
      refine ⟨span, seen, ?_⟩
      rw [acts', target, span, if_pos here, back]
    · cases answer
  exprPass := by
    intro owner e e' he answer span seen
    rw [acts] at answer
    rw [acts', target, span]
    split at answer
    · rename_i here
      rw [if_pos here]
      exact pass he here answer seen
    · rename_i away
      rw [if_neg away]
  stmtsDone := by
    intro owner list list' span notes _ answer
    rw [onStmts_of_level level] at answer
    cases answer
  stmtsPass := by
    intro owner list list' notes answer _
    rw [onStmts_of_level level] at answer
    cases answer
    exact onStmts_of_level level' _ _
  membersDone := by
    intro owner list list' span answer
    rw [onMembers_of_level level] at answer
    cases answer
  membersPass _ _ := onMembers_of_level level' _ _
  element := onStmt_of_level level
  element' := onStmt_of_level level'

end Operator

namespace Search

variable {op op' : Operator} {base base' : Site} {worth : Span → Bool} {owner : Option String}
  {s : Search}

/-- A chain is rebuilt once something has been found, and the search stays as it is. -/
theorem walking_resyncChain (c : Chain) (s : Search) :
    (walking op base worth).resyncChain c s =
      if s.found.isSome then (c.rebuild, s) else (c, s) := rfl

/-- An assignment is brought in step when an expression in it was changed, and is then what the
search has found. -/
theorem walking_resyncUpdate (u : Update) (s : Search) :
    (walking op base worth).resyncUpdate u s =
      if s.found = some .expression then (u.sync, { s with found := some .assignment })
      else (u, s) := rfl

variable (depth : Nat)

/-- An element at which the operator passes is walked as a part of its list, when it is in executable
code and its span is worth it. -/
theorem elements_cons (hs : s.Seeking owner) {st : Stmt} (list : List Stmt)
    (pass : op.onStmt (base.inside owner) st = .pass st) :
    (walking op base worth).elements ((walking op base worth).stmt depth) (st :: list) s =
      ((if decide (st.context = .executable) && worth st.span then
        (walking op base worth).stmt depth st s
      else .go (st, s)).both list
        ((walking op base worth).elements ((walking op base worth).stmt depth) list)).rebuild
          fun x => x.1 :: x.2 := by
  rw [Revision.elements, hs.offer, pass, walking_admits, walking_worth]
  by_cases entered : (decide (st.context = .executable) && worth st.span) = true
  · rw [if_pos entered, if_pos entered, following_eq (stmt_settles depth st s hs)]
    simp only [walking_halted, hs.isOver, Edit.isKeep, Bool.not_true, Bool.or_false,
      Bool.false_eq_true, if_false]
    cases (walking op base worth).stmt depth st s <;> rfl
  · rw [if_neg entered, if_neg entered, Walked.both_go, Walked.rebuild_rebuild]

/-- A statement of executable code is walked when its span is worth it. -/
theorem walking_stmt (t : Stmt) (s : Search) :
    (walking op base worth).stmt (depth + 1) t s =
      if decide (t.context = .executable) && worth t.span then
        ((walking op base worth).stmtKind ((walking op base worth).expr depth)
          ((walking op base worth).stmt depth) t.kind s).rebuild fun kind => ⟨kind, t.span, t.ghost⟩
      else .go (t, s) := by
  rw [Revision.stmt, walking_admits, walking_worth]
  by_cases entered : (decide (t.context = .executable) && worth t.span) = true
  · rw [if_pos entered, if_pos entered]
    simp only [Bool.and_eq_true, decide_eq_true_eq] at entered
    rw [Revision.within, if_pos entered.1, walking_around (by simp)]
    rfl
  · rw [if_neg entered, if_neg entered]

/-- A block is walked when it is worth it, and otherwise left. -/
theorem walking_block (stmt : Walker Search Stmt) (b : Block) (s : Search) :
    (walking op base worth).block stmt b s =
      if worth b.span then
        ((walking op base worth).stmts stmt b.stmts s).rebuild fun list => ⟨list, b.span⟩
      else .go (b, s) := by
  rw [Revision.block, walking_around (by simp)]
  rfl

/-- The body of a case is walked when the case is worth it. -/
theorem walking_matchCase (stmt : Walker Search Stmt) (c : MatchCase) (s : Search) :
    (walking op base worth).matchCase stmt c s =
      if worth c.span then
        ((walking op base worth).stmts stmt c.body s).rebuild
          fun body => ⟨c.pattern, body, c.span⟩
      else .go (c, s) := by
  rw [Revision.matchCase, walking_around (by simp)]
  rfl

/-- A member of executable code is walked when its span is worth it. -/
theorem walking_member (m : Member) (s : Search) :
    (walking op base worth).member depth m s =
      if decide (m.context = .executable) && worth m.span then
        (walking op base worth).memberKind depth m s
      else .go (m, s) := by
  rw [Revision.member, walking_admits, walking_worth]
  by_cases entered : (decide (m.context = .executable) && worth m.span) = true
  · rw [if_pos entered, if_pos entered]
    simp only [Bool.and_eq_true, decide_eq_true_eq] at entered
    rw [Revision.within, if_pos entered.1]
  · rw [if_neg entered, if_neg entered]

/-- The members are walked in order, the search handed from one to the next. -/
theorem eachMember_cons (hs : s.Seeking owner) (m : Member) (list : List Member) :
    (walking op base worth).eachMember depth (m :: list) s =
      (((walking op base worth).member depth m s).both list
        ((walking op base worth).eachMember depth list)).rebuild fun x => x.1 :: x.2 := by
  rw [following_eq (member_settles depth m hs), Revision.eachMember]
  cases (walking op base worth).member depth m s <;> rfl

/-- A declaration is walked under its own name. -/
theorem walking_decl (d : Decl) (s : Search) :
    (walking op base worth).decl depth d s =
      if worth d.span then
        ((walking op base worth).members depth d.members
          { s with enclosing := some d.name }).rebuild d.withMembers
      else .go (d, s) := by
  cases d with
  | «class» c =>
    rw [Revision.decl, Revision.class, walking_worth, walking_around (by simp)]
    by_cases entered : worth c.span = true
    · rw [if_pos entered]
      refine Eq.trans ?_ (if_pos entered).symm
      rw [Walked.rebuild_rebuild]
      rfl
    · rw [if_neg entered]
      exact (if_neg entered).symm
  | datatype c =>
    rw [Revision.decl, Revision.datatype, walking_worth, walking_around (by simp)]
    by_cases entered : worth c.span = true
    · rw [if_pos entered]
      refine Eq.trans ?_ (if_pos entered).symm
      rw [Walked.rebuild_rebuild]
      rfl
    · rw [if_neg entered]
      exact (if_neg entered).symm

end Search

namespace Undoes

open Search

variable {I : Invariant} {op op' : Operator} {base base' : Site} {owner : Option String}
  {s : Search} (worth : Span → Bool)

/-! ### Expressions -/

section

/-! The parts of a node are taken back when each expression is. -/

variable {walk walk' : Walker Search Expr}

/-- A list of expressions is undone when each of them is. -/
theorem exprs {es : List Expr}
    (each : ∀ e ∈ es, ∀ s, s.Seeking owner →
      Undone (Seeking owner) Expr.profile e (fun e => walk' e s) (walk e s))
    (hs : s.Seeking owner) :
    Undone (Seeking owner) (List.map Expr.profile) es (fun es => Revision.exprs walk' es s)
      (Revision.exprs walk es s) := by
  induction es generalizing s with
  | nil => exact ⟨rfl, hs, rfl⟩
  | cons e es ih =>
    have first := each e List.mem_cons_self s hs
    have walked := first.both fun s hs => ih (fun c hc => each c (List.mem_cons_of_mem e hc)) hs
    refine walked.rebuild (fun x => x.1 :: x.2) ?_ ?_
    · intro x kept
      simp only [Prod.mk.injEq] at kept
      rw [List.map_cons, List.map_cons, kept.1, kept.2]
    · intro x _
      rfl

/-- The walks of the inside of an expression. A chain in which the first search ends is brought in
step by both searches, the second time with its old operands. -/
theorem exprKind {kind : ExprKind} (step : ∀ c, kind = .chain c → c.rebuild = c)
    (each : ∀ e ∈ kind.parts, ∀ s, s.Seeking owner →
      Undone (Seeking owner) Expr.profile e (fun e => walk' e s) (walk e s))
    (hs : s.Seeking owner) :
    Undone (Seeking owner) ExprKind.profile kind
      (fun kind => (walking op' base' worth).exprKind walk' kind s)
      ((walking op base worth).exprKind walk kind s) := by
  have walked := exprs each hs
  cases hk : kind with
  | chain c =>
    subst hk
    have inStep := step c rfl
    obtain ⟨operands, ops, resolved⟩ := c
    simp only [Revision.exprKind, Revision.chain]
    have parts : Undone (Seeking owner) (List.map Expr.profile) operands
        (fun es => Revision.exprs walk' es s) (Revision.exprs walk operands s) := walked
    generalize Revision.exprs walk operands s = first at parts ⊢
    obtain ⟨es, t⟩ | ⟨es, t⟩ | r := first
    · obtain ⟨same, ht, back⟩ := parts
      subst same
      refine ⟨rfl, ht, ?_⟩
      simp only [back, Walked.rebuild_go, Walked.ending]
    · simp only [Walked.rebuild_halt, Walked.ending, walking_resyncChain]
      by_cases found : t.found.isSome = true
      · obtain ⟨kept, back⟩ := parts found
        rw [if_pos found]
        refine fun _ => ⟨congrArg (Prod.mk Shape.chain) kept, ?_⟩
        simp only [Chain.rebuild, back, Walked.rebuild_halt]
        rw [if_pos found]
        exact congrArg (fun c => Walked.halt (ExprKind.chain c, t)) inStep
      · rw [if_neg found]
        exact .fruitless (Option.not_isSome_iff_eq_none.1 found)
    · trivial
  | old e =>
    subst hk
    simp only [Revision.exprKind, walking_specified, Walked.rebuild_go]
    exact ⟨rfl, hs, rfl⟩
  | _ =>
    have chain : ∀ c, kind ≠ .chain c := by simp [hk]
    have old : ∀ e, kind ≠ .old e := by simp [hk]
    rw [← hk, Revision.exprKind_eq _ _ chain old]
    have assembled : Undone (Seeking owner) ExprKind.profile (kind.withParts kind.parts)
        (fun kind => (walking op' base' worth).exprKind walk' kind s)
        ((Revision.exprs walk kind.parts s).rebuild kind.withParts) := by
      have len {es : List Expr} (kept : es.map Expr.profile = kind.parts.map Expr.profile) :
          es.length = kind.parts.length := by
        simpa using congrArg List.length kept
      refine walked.rebuild kind.withParts (fun es kept => ?_) fun es kept => ?_
      · simp only [ExprKind.profile, ExprKind.shape_withParts, ExprKind.parts_withParts (len kept),
          ExprKind.withParts_parts, kept]
      · exact Revision.exprKind_withParts _ walk' chain old (len kept) s
    rwa [kind.withParts_parts] at assembled

end

variable (u : Undoes I op op' base base')

include u

/-- An expression is undone: at the node itself by the operator's own law, below it by induction. -/
theorem expr (depth : Nat) {e : Expr} (he : I.expr e) (hs : s.Seeking owner) :
    Undone (Seeking owner) Expr.profile e (fun e => (walking op' base' worth).expr depth e s)
      ((walking op base worth).expr depth e s) := by
  induction depth generalizing e s with
  | zero => trivial
  | succ depth ih =>
    obtain ⟨kind, span, ty⟩ := e
    have step : ∀ c, kind = .chain c → c.rebuild = c := by
      rintro c rfl
      exact u.inStep.chain he
    have inside : Undone (Seeking owner) ExprKind.profile kind
        (fun kind =>
          (walking op' base' worth).exprKind ((walking op' base' worth).expr depth) kind s)
        ((walking op base worth).exprKind ((walking op base worth).expr depth) kind s) :=
      exprKind worth step (fun c hc s hs => ih (u.inStep.parts he c hc) hs) hs
    by_cases entered : worth span = true
    case neg =>
      have passed (op : Operator) (base : Site) :
          (walking op base worth).expr (depth + 1) ⟨kind, span, ty⟩ s =
            .go (⟨kind, span, ty⟩, s) := by
        rw [Revision.expr, walking_worth, if_neg entered]
      rw [passed]
      exact ⟨rfl, hs, passed op' base'⟩
    case pos =>
      simp only [Revision.expr, walking_worth, entered, if_true]
      rw [walking_around_expr hs]
      have back := op.onExpr_handsBack (base.inside owner) ⟨kind, span, ty⟩
      cases answer : op.onExpr (base.inside owner) ⟨kind, span, ty⟩ with
      | pass left =>
        rw [answer] at back
        obtain rfl : left = ⟨kind, span, ty⟩ := back
        refine inside.rebuild (fun kind => Expr.mk kind span ty) ?_ ?_
        · intro kind' kept
          exact Expr.profile_eq kept
        intro kind' kept
        have passed : op'.onExpr (base'.inside owner) ⟨kind', span, ty⟩ = .pass ⟨kind', span, ty⟩ :=
          u.exprPass he answer rfl kept
        simp only [entered, if_true]
        rw [walking_around_expr hs, passed]
      | done new =>
        obtain ⟨same, seen, back⟩ := u.exprDone he answer
        obtain ⟨kind', span', ty'⟩ := new
        change span' = span at same
        subst same
        refine fun _ => ⟨seen, ?_⟩
        simp only [entered, if_true]
        rw [walking_around_expr hs, back]
      | refused reason left => exact .fruitless hs.found

section

variable (depth : Nat)

/-- The same of a list, with the walk of the depth at hand. -/
theorem allExprs {es : List Expr} (hes : ∀ e ∈ es, I.expr e) (hs : s.Seeking owner) :
    Undone (Seeking owner) (List.map Expr.profile) es
      (fun es => Revision.exprs ((walking op' base' worth).expr depth) es s)
      (Revision.exprs ((walking op base worth).expr depth) es s) :=
  exprs (fun e he _ hs => u.expr worth depth (hes e he) hs) hs

/-- The same of an expression that may be absent. -/
theorem exprOpt {e : Option Expr} (he : ∀ x ∈ e, I.expr x) (hs : s.Seeking owner) :
    Undone (Seeking owner) (fun _ => ()) e
      (fun e => Revision.exprOpt ((walking op' base' worth).expr depth) e s)
      (Revision.exprOpt ((walking op base worth).expr depth) e s) := by
  cases e with
  | none => exact ⟨rfl, hs, rfl⟩
  | some e =>
    exact (u.expr worth depth (he e rfl) hs).rebuild some (fun _ _ => rfl) fun _ _ => rfl

omit u in
/-- Specifications are not searched. -/
theorem clause (_ : Undoes I op op' base base') (es : List Expr) (hs : s.Seeking owner) :
    Undone (Seeking owner) (fun _ => ()) es
      (fun es => (walking op' base' worth).clause ((walking op' base' worth).expr depth) es s)
      ((walking op base worth).clause ((walking op base worth).expr depth) es s) := by
  simp only [walking_clause]
  exact .skip hs

/-! ### Assignments -/

omit u in
/-- What both searches bring in step when they end in a part of an assignment. `get` is the part,
`put` the assignment with another one. -/
theorem ending (get : Update → α) (put : Update → α → Update) {profile : α → γ}
    {kept : Update → δ} {a : Update} {again : α → Walked (α × Search)} {r : Walked (α × Search)}
    (h : Undone (Seeking owner) profile (get a) again r) (whole : put a (get a) = a)
    (gets : ∀ x, get (put a x) = x ∧ get (put a x).sync = x)
    (puts : ∀ x, put (put a x) (get a) = a ∧ (put (put a x).sync (get a)).sync = a)
    (keeps : ∀ x, profile x = profile (get a) →
      kept (put a x) = kept a ∧ kept (put a x).sync = kept a) :
    Undone (Seeking owner) kept a
      (fun a => ((again (get a)).rebuild (put a)).ending (walking op' base' worth).resyncUpdate)
      ((r.rebuild (put a)).ending (walking op base worth).resyncUpdate) := by
  match r, h with
  | .go (x, t), ⟨same, ht, back⟩ =>
    refine ⟨?_, ht, ?_⟩
    · rw [same, whole]
    · simp only [back, Walked.rebuild_go, whole, Walked.ending]
  | .halt (x, t), ended =>
    simp only [Walked.rebuild_halt, Walked.ending, walking_resyncUpdate]
    by_cases found : t.found = some .expression
    · obtain ⟨seen, back⟩ := ended (by rw [found]; rfl)
      rw [if_pos found]
      refine fun _ => ⟨(keeps x seen).2, ?_⟩
      show ((again (get (put a x).sync)).rebuild _).ending (walking op' base' worth).resyncUpdate = _
      rw [(gets x).2, back]
      simp only [Walked.rebuild_halt, Walked.ending, walking_resyncUpdate]
      rw [if_pos found, (puts x).2]
    · rw [if_neg found]
      intro changed
      obtain ⟨seen, back⟩ := ended changed
      refine ⟨(keeps x seen).1, ?_⟩
      show ((again (get (put a x))).rebuild _).ending (walking op' base' worth).resyncUpdate = _
      rw [(gets x).1, back]
      simp only [Walked.rebuild_halt, Walked.ending, walking_resyncUpdate]
      rw [if_neg found, (puts x).1]
  | .cut _, _ => trivial

/-- The values of an update are undone with the copy that each of its pairs keeps. -/
theorem values {a : Update} (step : a.sync = a) (ha : ∀ e ∈ a.values, I.expr e)
    (hs : s.Seeking owner) :
    Undone (Seeking owner) (fun a => (a.targets, a.values.length)) a
      (fun a => (walking op' base' worth).values ((walking op' base' worth).expr depth) a s)
      ((walking op base worth).values ((walking op base worth).expr depth) a s) := by
  have walked := u.allExprs worth depth ha hs
  refine ending worth Update.values (fun a values => { a with values }) walked rfl
    (fun _ => ⟨rfl, rfl⟩) (fun _ => ⟨rfl, step⟩) fun x seen => ?_
  have len : x.length = a.values.length := by
    simpa using congrArg List.length seen
  have kept : (a.targets, x.length) = (a.targets, a.values.length) := by rw [len]
  exact ⟨kept, kept⟩

/-- Of the targets only those with a subscript are walked, and they are undone as expressions. -/
theorem targets {es : List Expr} (hes : ∀ e ∈ es, I.expr e) (hs : s.Seeking owner) :
    Undone (Seeking owner) (fun _ => ()) es
      (fun es => ((walking op' base' worth).targets ((walking op' base' worth).expr depth)
        es s).rebuild Prod.fst)
      (((walking op base worth).targets ((walking op base worth).expr depth) es s).rebuild
        Prod.fst) := by
  induction es generalizing s with
  | nil => exact ⟨rfl, hs, rfl⟩
  | cons e es ih =>
    have head : Undone (Seeking owner) Expr.profile e
        (fun e => if e.isIndex then (walking op' base' worth).expr depth e s else .go (e, s))
        (if e.isIndex then (walking op base worth).expr depth e s else .go (e, s)) := by
      refine .gated hs (fun _ => u.expr worth depth (hes e List.mem_cons_self) hs)
        fun e' kept => ?_
      have index : e'.isIndex = e.isIndex := congrArg Prod.fst kept
      rw [index]
    have walked := head.both fun s hs =>
      ih (fun c hc => hes c (List.mem_cons_of_mem e hc)) (s := s) hs
    rw [targets_cons]
    refine walked.rebuild (fun x => x.1 :: x.2) ?_ ?_
    · intro _ _
      rfl
    · intro x _
      exact targets_cons _ x.1 x.2 s

/-- An update is undone in its targets and its values, and is in step again after both. -/
theorem update {a : Update} (ha : I.update a) (hs : s.Seeking owner) :
    Undone (Seeking owner) (fun _ => ()) a
      (fun a => (walking op' base' worth).update ((walking op' base' worth).expr depth) a s)
      ((walking op base worth).update ((walking op base worth).expr depth) a s) := by
  have walked := u.targets worth depth (u.inStep.targets ha) hs
  have first : Undone (Seeking owner) (fun _ => ()) a
      (fun a => ((((walking op' base' worth).targets ((walking op' base' worth).expr depth)
        a.targets s).rebuild Prod.fst).rebuild fun targets => { a with targets }).ending
          (walking op' base' worth).resyncUpdate)
      (((((walking op base worth).targets ((walking op base worth).expr depth) a.targets s).rebuild
        Prod.fst).rebuild fun targets => { a with targets }).ending
          (walking op base worth).resyncUpdate) :=
    ending worth Update.targets (fun a targets => { a with targets }) walked rfl
      (fun _ => ⟨rfl, rfl⟩) (fun _ => ⟨rfl, u.inStep.update ha⟩) fun _ _ => ⟨rfl, rfl⟩
  simp only [update_eq]
  match ((walking op base worth).targets ((walking op base worth).expr depth) a.targets s).rebuild
    Prod.fst, walked, first with
  | .go (targets, t), ⟨same, ht, back⟩, _ =>
    subst same
    have rest := u.values worth depth (u.inStep.update ha) (u.inStep.values ha) ht
    refine rest.congr (fun _ _ => rfl) fun a' kept => ?_
    simp only [Prod.mk.injEq] at kept
    obtain ⟨targets, values, resolved⟩ := a'
    obtain ⟨rfl, -⟩ := kept
    simp only [back]
    rfl
  | .halt (targets, t), _, ended =>
    intro found
    obtain ⟨-, back⟩ := ended found
    refine ⟨rfl, ?_⟩
    exact congrArg (fun r => Walked.next r _) back
  | .cut _, _, _ => trivial

/-- A declaration is undone in its value. -/
theorem varDecl {d : VarDecl} (hd : I.decl d) (hs : s.Seeking owner) :
    Undone (Seeking owner) VarDecl.profile d
      (fun d => (walking op' base' worth).varDecl ((walking op' base' worth).expr depth) d s)
      ((walking op base worth).varDecl ((walking op base worth).expr depth) d s) := by
  obtain ⟨locals, init⟩ := d
  cases init with
  | none => exact ⟨rfl, hs, rfl⟩
  | some a =>
    have walked := u.values worth depth (u.inStep.decl hd) (u.inStep.initial hd) hs
    refine walked.rebuild (fun a => VarDecl.mk locals (some a)) ?_ ?_
    · intro a' kept
      simp only [Prod.mk.injEq] at kept
      simp [VarDecl.profile, kept.2]
    · intro a' _
      rfl

end

/-! ### Statements -/

section

/-! The statements around others are taken back when each of those is. -/

variable {depth : Nat}
  (each : ∀ {t : Stmt}, t.Meets I → ∀ {s : Search}, s.Seeking owner →
    Undone (Seeking owner) Stmt.profile t (fun t => (walking op' base' worth).stmt depth t s)
      ((walking op base worth).stmt depth t s))

include each

/-- The elements of a list are undone one by one, since no list is answered. -/
theorem elements {list : List Stmt} (hl : Stmt.MeetsList I list) (hs : s.Seeking owner) :
    Undone (Seeking owner) (List.map Stmt.profile) list
      (fun list => (walking op' base' worth).elements ((walking op' base' worth).stmt depth) list s)
      ((walking op base worth).elements ((walking op base worth).stmt depth) list s) := by
  induction list generalizing s with
  | nil => exact ⟨rfl, hs, rfl⟩
  | cons t list ih =>
    have first : Undone (Seeking owner) Stmt.profile t
        (fun t => if decide (t.context = .executable) && worth t.span then
          (walking op' base' worth).stmt depth t s else .go (t, s))
        (if decide (t.context = .executable) && worth t.span then
          (walking op base worth).stmt depth t s else .go (t, s)) := by
      refine .gated hs (fun _ => each hl.1 hs) fun t' kept => ?_
      simp only [Stmt.profile, Prod.mk.injEq] at kept
      rw [kept.1, kept.2.1]
    rw [Search.elements_cons depth hs list (u.element _ t)]
    refine (first.both fun _ hs => ih hl.2 hs).rebuild (fun x => x.1 :: x.2) ?_ ?_
    · intro x kept
      simp only [Prod.mk.injEq] at kept
      rw [List.map_cons, List.map_cons, kept.1, kept.2]
    · intro x _
      exact Search.elements_cons depth hs x.2 (u.element' _ x.1)

/-- A list is offered as a whole before its elements. -/
theorem stmts {list : List Stmt} (hl : Stmt.MeetsList I list) (hs : s.Seeking owner) :
    Undone (Seeking owner) (fun _ => ()) list
      (fun list => (walking op' base' worth).stmts ((walking op' base' worth).stmt depth) list s)
      ((walking op base worth).stmts ((walking op base worth).stmt depth) list s) := by
  have back := op.onStmts_handsBack (base.inside owner) list
  simp only [hs.stmts]
  rcases answer : op.onStmts (base.inside owner) list with ⟨outcome, notes⟩
  rw [answer] at back
  cases outcome with
  | pass left =>
    obtain rfl : left = list := back
    refine (u.elements worth each hl (hs.noting notes)).congr (fun _ _ => rfl) fun list' kept => ?_
    rw [u.stmtsPass answer kept]
  | done value =>
    obtain ⟨list', span⟩ := value
    refine fun _ => ⟨rfl, ?_⟩
    simp only [u.stmtsDone hl answer]
  | refused reason left => exact .fruitless hs.found

/-- A block is undone in its list. -/
theorem block {b : Block} (hb : b.Meets I) (hs : s.Seeking owner) :
    Undone (Seeking owner) Block.span b
      (fun b => (walking op' base' worth).block ((walking op' base' worth).stmt depth) b s)
      ((walking op base worth).block ((walking op base worth).stmt depth) b s) := by
  obtain ⟨list, span⟩ := b
  have walked : Undone (Seeking owner) Block.span (Block.mk list span)
      (fun b => ((walking op' base' worth).stmts ((walking op' base' worth).stmt depth)
        b.stmts s).rebuild fun list => ⟨list, b.span⟩)
      (((walking op base worth).stmts ((walking op base worth).stmt depth) list s).rebuild
        fun list => ⟨list, span⟩) :=
    (u.stmts worth each hb hs).rebuild (fun list => Block.mk list span)
      (fun _ _ => rfl) fun _ _ => rfl
  simp only [walking_block]
  refine .gated hs (fun _ => walked) fun b kept => ?_
  rw [kept]

/-- A case is undone in its body. -/
theorem matchCase {c : MatchCase} (hc : Stmt.MeetsList I c.body) (hs : s.Seeking owner) :
    Undone (Seeking owner) MatchCase.span c
      (fun c => (walking op' base' worth).matchCase ((walking op' base' worth).stmt depth) c s)
      ((walking op base worth).matchCase ((walking op base worth).stmt depth) c s) := by
  obtain ⟨pattern, body, span⟩ := c
  have walked : Undone (Seeking owner) MatchCase.span (MatchCase.mk pattern body span)
      (fun c => ((walking op' base' worth).stmts ((walking op' base' worth).stmt depth)
        c.body s).rebuild fun body => ⟨c.pattern, body, c.span⟩)
      (((walking op base worth).stmts ((walking op base worth).stmt depth) body s).rebuild
        fun body => ⟨pattern, body, span⟩) :=
    (u.stmts worth each hc hs).rebuild (fun body => MatchCase.mk pattern body span)
      (fun _ _ => rfl) fun _ _ => rfl
  simp only [walking_matchCase]
  refine .gated hs (fun _ => walked) fun c kept => ?_
  rw [kept]

/-- The cases of a match are undone in turn. -/
theorem matchCases {cases : List MatchCase} (hc : MatchCase.MeetsList I cases)
    (hs : s.Seeking owner) :
    Undone (Seeking owner) (fun _ => ()) cases
      (fun cases =>
        (walking op' base' worth).matchCases ((walking op' base' worth).stmt depth) cases s)
      ((walking op base worth).matchCases ((walking op base worth).stmt depth) cases s) := by
  induction cases generalizing s with
  | nil => exact ⟨rfl, hs, rfl⟩
  | cons c cases ih =>
    obtain ⟨pattern, body, span⟩ := c
    have first := u.matchCase worth each (c := ⟨pattern, body, span⟩) hc.1 hs
    refine (first.both fun _ hs => ih hc.2 hs).rebuild (fun x => x.1 :: x.2) ?_ ?_
    · intro _ _
      rfl
    · intro _ _
      rfl

omit u in
/-- A branch that may be absent is undone as a statement. -/
theorem stmtOpt {t : Option Stmt} (ht : Stmt.MeetsElse I t) (hs : s.Seeking owner) :
    Undone (Seeking owner) (fun _ => ()) t
      (fun t => Revision.stmtOpt ((walking op' base' worth).stmt depth) t s)
      (Revision.stmtOpt ((walking op base worth).stmt depth) t s) := by
  cases t with
  | none => exact ⟨rfl, hs, rfl⟩
  | some t => exact (each ht.2 hs).rebuild some (fun _ _ => rfl) fun _ _ => rfl

/-- The walks of the inside of a statement with this span and mark. -/
theorem stmtKind (span : Span) (ghost : Bool) {kind : StmtKind} (h : kind.Meets I)
    (hs : s.Seeking owner) :
    Undone (Seeking owner) (fun kind => Stmt.profile ⟨kind, span, ghost⟩) kind
      (fun kind => (walking op' base' worth).stmtKind ((walking op' base' worth).expr depth)
        ((walking op' base' worth).stmt depth) kind s)
      ((walking op base worth).stmtKind ((walking op base worth).expr depth)
        ((walking op base worth).stmt depth) kind s) := by
  cases kind with
  | varDecl d =>
    refine (u.varDecl worth depth h hs).rebuild StmtKind.varDecl ?_ fun _ _ => rfl
    intro d' kept
    simp only [Stmt.profile, VarDecl.isSome_simpleDecl? kept]
    rfl
  | update a =>
    exact (u.update worth depth h hs).rebuild StmtKind.update (fun _ _ => rfl) fun _ _ => rfl
  | expr e =>
    exact (u.expr worth depth h hs).rebuild StmtKind.expr (fun _ _ => rfl) fun _ _ => rfl
  | assert e =>
    exact (u.expr worth depth h hs).rebuild StmtKind.assert (fun _ _ => rfl) fun _ _ => rfl
  | assume e =>
    exact (u.expr worth depth h hs).rebuild StmtKind.assume (fun _ _ => rfl) fun _ _ => rfl
  | ret es =>
    exact (u.allExprs worth depth h hs).rebuild StmtKind.ret (fun _ _ => rfl) fun _ _ => rfl
  | print es =>
    exact (u.allExprs worth depth h hs).rebuild StmtKind.print (fun _ _ => rfl) fun _ _ => rfl
  | ifElse guard thenBranch elseBranch =>
    have walked := ((u.exprOpt worth depth h.1 hs).both
      fun _ hs => u.block worth each h.2.1 hs).both fun _ hs => stmtOpt worth each h.2.2 hs
    refine walked.rebuild (fun x => StmtKind.ifElse x.1.1 x.1.2 x.2)
      (fun _ _ => ?_) fun _ _ => ?_ <;> rfl
  | whileLoop guard invariants decreases body =>
    have walked := (((u.exprOpt worth depth h.1 hs).both
      fun _ hs => u.clause worth depth invariants hs).both
      fun _ hs => u.clause worth depth decreases hs).both fun _ hs => u.block worth each h.2.2.2 hs
    refine walked.rebuild (fun x => StmtKind.whileLoop x.1.1.1 x.1.1.2 x.1.2 x.2)
      (fun _ _ => ?_) fun _ _ => ?_ <;> rfl
  | forLoop index start stop up invariants body =>
    have walked := (((u.expr worth depth h.1 hs).both
      fun _ hs => u.exprOpt worth depth h.2.1 hs).both
      fun _ hs => u.clause worth depth invariants hs).both fun _ hs => u.block worth each h.2.2.2 hs
    refine walked.rebuild (fun x => StmtKind.forLoop index x.1.1.1 x.1.1.2 up x.1.2 x.2)
      (fun _ _ => ?_) fun _ _ => ?_ <;> rfl
  | breakLoop | continueLoop => exact ⟨rfl, hs, rfl⟩
  | block b =>
    exact (u.block worth each h hs).rebuild StmtKind.block (fun _ _ => rfl) fun _ _ => rfl
  | matchOn source cases =>
    have walked := (u.expr worth depth h.1 hs).both fun _ hs => u.matchCases worth each h.2 hs
    refine walked.rebuild (fun x => StmtKind.matchOn x.1 x.2)
      (fun _ _ => ?_) fun _ _ => ?_ <;> rfl

end

/-- One case per form, each undone in its parts. -/
theorem stmt (depth : Nat) {t : Stmt} (ht : t.Meets I) (hs : s.Seeking owner) :
    Undone (Seeking owner) Stmt.profile t (fun t => (walking op' base' worth).stmt depth t s)
      ((walking op base worth).stmt depth t s) := by
  induction depth generalizing t s with
  | zero => trivial
  | succ depth ih =>
    obtain ⟨kind, span, ghost⟩ := t
    have walked : Undone (Seeking owner) Stmt.profile (Stmt.mk kind span ghost)
        (fun t => ((walking op' base' worth).stmtKind ((walking op' base' worth).expr depth)
          ((walking op' base' worth).stmt depth) t.kind s).rebuild
            fun kind => ⟨kind, t.span, t.ghost⟩)
        (((walking op base worth).stmtKind ((walking op base worth).expr depth)
          ((walking op base worth).stmt depth) kind s).rebuild fun kind => ⟨kind, span, ghost⟩) :=
      (u.stmtKind worth (fun ht _ hs => ih ht hs) span ghost ht hs).rebuild
        (fun kind => Stmt.mk kind span ghost) (fun _ kept => kept) fun _ _ => rfl
    simp only [walking_stmt]
    refine .gated hs (fun _ => walked) fun t kept => ?_
    simp only [Stmt.profile, Prod.mk.injEq] at kept
    rw [kept.1, kept.2.1]

/-! ### Declarations -/

section

variable (depth : Nat)

/-- A contract is undone in its clauses. -/
theorem contract (c : Contract) (hs : s.Seeking owner) :
    Undone (Seeking owner) (fun _ => ()) c
      (fun c => (walking op' base' worth).contract ((walking op' base' worth).expr depth) c s)
      ((walking op base worth).contract ((walking op base worth).expr depth) c s) :=
  ((((u.clause worth depth c.requires hs).both fun _ hs => u.clause worth depth c.ensures hs).both
    fun _ hs => u.clause worth depth c.frame hs).both
    fun _ hs => u.clause worth depth c.decreases hs).rebuild
      (fun x => Contract.mk x.1.1.1 x.1.1.2 x.1.2 x.2) (fun _ _ => rfl) fun _ _ => rfl

/-- A body that may be absent is undone as a block. -/
theorem blockOpt {b : Option Block} (hb : ∀ x ∈ b, x.Meets I) (hs : s.Seeking owner) :
    Undone (Seeking owner) (fun _ => ()) b
      (fun b => (walking op' base' worth).blockOpt ((walking op' base' worth).stmt depth) b s)
      ((walking op base worth).blockOpt ((walking op base worth).stmt depth) b s) := by
  cases b with
  | none => exact ⟨rfl, hs, rfl⟩
  | some b =>
    exact (u.block worth (fun ht _ hs => u.stmt worth depth ht hs) (hb b rfl) hs).rebuild some
      (fun _ _ => rfl) fun _ _ => rfl

/-- The walks of the inside of a member. -/
theorem memberKind {m : Member} (hm : m.Meets I) (hs : s.Seeking owner) :
    Undone (Seeking owner) Member.profile m
      (fun m => (walking op' base' worth).memberKind depth m s)
      ((walking op base worth).memberKind depth m s) := by
  cases m with
  | field f => exact ⟨rfl, hs, rfl⟩
  | method m =>
    have inside : (s.entering (.method m)).Seeking owner :=
      ⟨hs.found, hs.span, hs.refusal, hs.enclosing⟩
    have walked := (u.contract worth depth m.contract inside).both
      fun _ hs => u.blockOpt worth depth hm.2 hs
    simp only [Revision.memberKind, Revision.method]
    rw [walking_around (by simp), Walked.rebuild_rebuild]
    refine walked.rebuild (fun x => Member.method { m with contract := x.1, body := x.2 }) ?_ ?_
    · intro _ _
      rfl
    · intro x _
      simp only []
      rw [walking_around (by simp), Walked.rebuild_rebuild]
      rfl
  | function f =>
    have inside : (s.entering (.function f)).Seeking owner :=
      ⟨hs.found, hs.span, hs.refusal, hs.enclosing⟩
    have walked := (u.contract worth depth f.contract inside).both
      fun _ hs => u.exprOpt worth depth hm.2 hs
    simp only [Revision.memberKind, Revision.function]
    rw [walking_around (by simp), Walked.rebuild_rebuild]
    refine walked.rebuild (fun x => Member.function { f with contract := x.1, body := x.2 }) ?_ ?_
    · intro _ _
      rfl
    · intro x _
      simp only []
      rw [walking_around (by simp), Walked.rebuild_rebuild]
      rfl

/-- A member is undone in its contract and its body. -/
theorem member {m : Member} (hm : m.Meets I) (hs : s.Seeking owner) :
    Undone (Seeking owner) Member.profile m (fun m => (walking op' base' worth).member depth m s)
      ((walking op base worth).member depth m s) := by
  simp only [walking_member]
  refine .gated hs (fun _ => u.memberKind worth depth hm hs) fun m' kept => ?_
  simp only [Member.profile, Prod.mk.injEq] at kept
  rw [kept.1, kept.2.1]

/-- The members of a list are undone in turn. -/
theorem eachMember {list : List Member} (hl : ∀ m ∈ list, m.Meets I) (hs : s.Seeking owner) :
    Undone (Seeking owner) (List.map Member.profile) list
      (fun list => (walking op' base' worth).eachMember depth list s)
      ((walking op base worth).eachMember depth list s) := by
  induction list generalizing s with
  | nil => exact ⟨rfl, hs, rfl⟩
  | cons m list ih =>
    have first := u.member worth depth (hl m List.mem_cons_self) hs
    have walked := first.both fun s hs => ih (fun c hc => hl c (List.mem_cons_of_mem m hc)) hs
    rw [eachMember_cons depth hs]
    refine walked.rebuild (fun x => x.1 :: x.2) ?_ ?_
    · intro x kept
      simp only [Prod.mk.injEq] at kept
      rw [List.map_cons, List.map_cons, kept.1, kept.2]
    · intro x _
      exact eachMember_cons depth hs x.1 x.2

/-- A member list is offered to no operator on expressions, and undone in its members. -/
theorem members {list : List Member} (hl : ∀ m ∈ list, m.Meets I) (hs : s.Seeking owner) :
    Undone (Seeking owner) (fun _ => ()) list
      (fun list => (walking op' base' worth).members depth list s)
      ((walking op base worth).members depth list s) := by
  have back := op.onMembers_handsBack (base.inside owner) list
  simp only [hs.members]
  cases answer : op.onMembers (base.inside owner) list with
  | pass left =>
    rw [answer] at back
    obtain rfl : left = list := back
    refine (u.eachMember worth depth hl hs).congr (fun _ _ => rfl) fun list' kept => ?_
    rw [u.membersPass answer kept]
  | done value =>
    obtain ⟨list', span⟩ := value
    refine fun _ => ⟨rfl, ?_⟩
    simp only [u.membersDone answer]
  | refused reason left => exact .fruitless hs.found

/-- A declaration is undone in its members. -/
theorem decl {d : Decl} (hd : ∀ m ∈ d.members, m.Meets I) (hs : s.SeekingAny) :
    Undone SeekingAny Decl.span d (fun d => (walking op' base' worth).decl depth d s)
      ((walking op base worth).decl depth d s) := by
  have inside : Seeking (some d.name) { s with enclosing := some d.name } := by
    obtain ⟨_, found, span, refusal, -⟩ := hs
    exact ⟨found, span, refusal, rfl⟩
  have walked := (u.members worth depth hd inside).imp fun s hs => show s.SeekingAny from ⟨_, hs⟩
  have whole : Undone SeekingAny Decl.span (d.withMembers d.members)
      (fun d => ((walking op' base' worth).members depth d.members
        { s with enclosing := some d.name }).rebuild d.withMembers)
      (((walking op base worth).members depth d.members
        { s with enclosing := some d.name }).rebuild d.withMembers) := by
    refine walked.rebuild d.withMembers ?_ ?_
    · intro _ _
      cases d <;> rfl
    · intro _ _
      cases d <;> rfl
  have same : d.withMembers d.members = d := by
    cases d <;> rfl
  rw [same] at whole
  simp only [walking_decl]
  exact .gated hs (fun _ => whole) fun d' kept => by rw [kept]

/-- The declarations of a module are undone in turn. -/
theorem decls {ds : List Decl} (hds : ∀ d ∈ ds, ∀ m ∈ d.members, m.Meets I) (hs : s.SeekingAny) :
    Undone SeekingAny (fun _ => ()) ds (fun ds => (walking op' base' worth).decls depth ds s)
      ((walking op base worth).decls depth ds s) := by
  induction ds generalizing s with
  | nil => exact ⟨rfl, hs, rfl⟩
  | cons d ds ih =>
    have first := u.decl worth depth (hds d List.mem_cons_self) hs
    have walked := first.both fun s hs => ih (fun c hc => hds c (List.mem_cons_of_mem d hc)) hs
    refine walked.rebuild (fun x => x.1 :: x.2) ?_ ?_
    · intro _ _
      rfl
    · intro _ _
      rfl

/-- The run over a module: what the one search applied, the other takes back. -/
theorem module {m : Module} (hm : m.Meets I) (hs : s.SeekingAny) :
    Undone SeekingAny (fun _ => ()) m (fun m => (walking op' base' worth).module depth m s)
      ((walking op base worth).module depth m s) := by
  have inside : (s.entering (.module m)).SeekingAny := hs
  have around (op : Operator) (base : Site) (m : Module) :
      (walking op base worth).module depth m s =
        ((walking op base worth).decls depth m.decls s).rebuild
          fun decls => { m with decls } := by
    rw [Revision.module, walking_around (by simp)]
    rfl
  simp only [around]
  refine (u.decls worth depth hm inside).rebuild (fun decls => { m with decls }) ?_ ?_
  · intro _ _
    rfl
  · intro _ _
    rfl

end

end Undoes

/-- A report names the kind of the request that it is about. -/
theorem Module.kind_of_mutate {m : Module} {r : Request} {limit : Nat} {x : Mutant}
    (ok : m.mutate r limit = .ok x) : x.report.kind = r.kind := by
  cases made : Operator.make r.kind r.argument with
  | error fault =>
    rw [Module.mutate_error made] at ok
    cases ok
  | ok op =>
    obtain ⟨after, s, notes, given, -⟩ := Module.mutateBy_settles made r.location.mayLieIn limit
    rw [Module.mutate_eq, given] at ok
    cases ok
    rfl

/-- A second request for the place of one that has been applied, whose operator takes back what
the first has done, restores the module and is reported as the first. -/
theorem Module.mutate_back {I : Invariant} {m : Module} {r r' : Request} {limit : Nat} {x : Mutant}
    {op op' : Operator} (meets : m.Meets I) (made : Operator.make r.kind r.argument = .ok op)
    (made' : Operator.make r'.kind r'.argument = .ok op') (target : r'.location = r.location)
    (ok : m.mutate r limit = .ok x) (applied : x.report.isApplied = true)
    (undoes : Undoes I op op' (m.site r limit) (x.module.site r' limit)) :
    x.module.mutate r' limit =
      .ok { x with module := m, report := { x.report with kind := r'.kind } } := by
  have start : Search.SeekingAny {} := ⟨none, rfl, rfl, rfl, rfl⟩
  -- both searches are followed to a depth that is enough for either module
  have walked := undoes.module r.location.mayLieIn (max m.size x.module.size) meets start
  rw [Search.walking_module (Nat.le_max_left m.size x.module.size)] at walked
  rw [Module.mutate_eq] at ok ⊢
  simp only [Module.mutateBy, made, Except.ok.injEq] at ok
  simp only [Module.mutateBy, made', target]
  have uncut : ((Search.walking op (m.site r limit) r.location.mayLieIn).module m.size m {}).Uncut :=
    Search.walking_modest.module (Nat.le_refl m.size) {}
  generalize (Search.walking op (m.site r limit) r.location.mayLieIn).module m.size m {} = w
    at ok walked uncut
  obtain ⟨m', s⟩ | ⟨m', s⟩ | r := w
  · obtain ⟨-, ⟨_, hs⟩, -⟩ := walked
    subst ok
    have nothing : s.found = none := hs.found
    simp [Walked.value, Search.report, Report.isApplied, nothing] at applied
  · subst ok
    obtain ⟨-, back⟩ := walked applied
    simp only [Walked.value] at back ⊢
    rw [Search.walking_module (Nat.le_max_right m.size m'.size)] at back
    rw [back]
    simp only [Search.report, target]
  · exact absurd rfl uncut

end Mutation
