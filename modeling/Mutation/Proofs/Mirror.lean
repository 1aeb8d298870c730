import Mutation.Proofs.Depth
import Mutation.Proofs.Nesting
import Mutation.Walk.Trace

/-!
# Reading and editing walks agree

An editing walk that edits nothing is a reading walk. `Revision.Mirrors` says so of the hooks: the
editing hooks answer what the reading hooks answer in the state that `view` shows, and leave
whatever they are given as it is. `Mirrors.module` says it of the walks, by one simulation from the
parts of a node to the node. The two walks ask in different ways: an editing walk asks twice
whether an element of a list is worth entering, once before it offers the element and once in the
element's own walk, and it has hooks of its own for offers and for bringing copies in step. None of
this shows in `view`. Only the editing walk has a depth, and at that of the module's size it is not
cut off.

A `Policy` answers by the hooks called so far, so the two walks it drives (`Policy.survey` and
`Policy.revision`) leave the same history behind (`Policy.walks_agree`).
-/

namespace Mutation

variable {σ τ α β : Type} {view : σ → τ}

/-- An editing walk has come to `a`, where a reading walk has come to the state `view` shows, and
both go on or both have ended; or the editing walk has been cut off. -/
inductive Walked.Mirrored (view : σ → τ) (a : α) : Walked (α × σ) → Flow τ → Prop
  | go (s : σ) : Mirrored view a (.go (a, s)) (.go (view s))
  | halt (s : σ) : Mirrored view a (.halt (a, s)) (.halt (view s))
  | cut (r : α × σ) (q : Flow τ) : Mirrored view a (.cut r) q

/-- An editing hook leaves `a` as it is and answers as a reading hook does in the state `view`
shows. -/
inductive Reply.Mirrored (view : σ → τ) (a : α) : Reply α × σ → Visit × τ → Prop
  | descend (s : σ) : Mirrored view a (.descend a, s) (.proceed, view s)
  | settle (s : σ) : Mirrored view a (.settle a, s) (.skip, view s)
  | halt (s : σ) : Mirrored view a (.halt a, s) (.stop, view s)

/-- The hooks of an editing walk answer as those of a reading walk do in the state `view` shows,
and edit nothing. Offers and resynchronisations do not show. -/
structure Revision.Mirrors (w : Revision σ) (v : Survey τ) (view : σ → τ) : Prop where
  worth : ∀ s span, w.worth s span = v.worth (view s) span
  specifications : ∀ s, w.specifications s = v.specifications (view s)
  ghost : ∀ s, w.ghost s = v.ghost (view s)
  enter : ∀ context s, view (w.enter context s) = v.enter context (view s)
  exit : ∀ context s, view (w.exit context s) = v.exit context (view s)
  visit : ∀ k a s, Reply.Mirrored view a (w.visit k a s) (v.visit (k.node a) (view s))
  leave : ∀ k a s, ∃ s', w.leave k a s = (a, s') ∧ view s' = v.leave (k.node a) (view s)
  target : ∀ e s, Reply.Mirrored view e (w.target e s) (v.target e (view s))
  reviseStmts : ∀ list s, Reply.Mirrored view list (w.reviseStmts list s) (v.stmtList list (view s))
  reviseMembers : ∀ list s,
    Reply.Mirrored view list (w.reviseMembers list s) (v.memberList list (view s))
  halted : ∀ s, w.halted s = false
  offer : ∀ st s, ∃ s', w.offer st s = (⟨st, .keep⟩, s') ∧ view s' = view s
  resyncUpdate : ∀ u s, ∃ s', w.resyncUpdate u s = (u, s') ∧ view s' = view s
  resyncChain : ∀ c s, ∃ s', w.resyncChain c s = (c, s') ∧ view s' = view s

/-- A reply that mirrors a reading one hands in the node it was asked about. -/
theorem Reply.Mirrored.eq_of_descend {a b : α} {answer : Reply α × σ} {seen : Visit × τ}
    (h : Reply.Mirrored view a answer seen) (descends : answer.1 = .descend b) : b = a := by
  cases h <;> cases descends
  rfl

/-- Hooks that edit nothing let the walk into no node that they have made larger. -/
theorem Revision.Mirrors.modest {w : Revision σ} {v : Survey τ} (h : w.Mirrors v view) :
    w.Modest where
  visit k a s b descends := by rw [(h.visit k a s).eq_of_descend descends]
  target e s e' descends := by rw [(h.target e s).eq_of_descend descends]
  reviseStmts list s list' descends := by rw [(h.reviseStmts list s).eq_of_descend descends]
  reviseMembers list s list' descends := by rw [(h.reviseMembers list s).eq_of_descend descends]
  offer st s _ := by
    obtain ⟨s', offered, -⟩ := h.offer st s
    rw [offered]

/-! ### Composing walks -/

namespace Walked.Mirrored

variable {a : α} {b : β} {r : Walked (α × σ)} {q : Flow τ}

/-- A node put together of its unchanged parts is unchanged. -/
theorem rebuild (f : α → β) (h : Mirrored view a r q) : Mirrored view (f a) (r.rebuild f) q := by
  cases h with
  | go s => exact .go s
  | halt s => exact .halt s
  | cut r q => exact .cut _ q

/-- A node that is walked only on a condition. -/
theorem gated {s : σ} (worth : Bool) (h : Mirrored view a r q) :
    Mirrored view a (if worth then r else .go (a, s)) (if worth then q else .go (view s)) := by
  cases worth with
  | false => exact .go s
  | true => exact h

/-- Two walks after each other mirror two walks after each other. -/
theorem both {k : σ → Walked (β × σ)} {l : τ → Flow τ} (h : Mirrored view a r q)
    (rest : ∀ s, Mirrored view b (k s) (l (view s))) :
    Mirrored view (a, b) (r.both b k) (q.next l) := by
  cases h with
  | go s => exact (rest s).rebuild fun b => (a, b)
  | halt s => exact .halt s
  | cut r q => exact .cut _ _

/-- A hook that is called after the walk, on what it has come to. -/
theorem after {f : α → σ → α × σ} {g : τ → τ} (h : Mirrored view a r q)
    (hook : ∀ s, ∃ s', f a s = (a, s') ∧ view s' = g (view s)) :
    Mirrored view a (r.next fun (a, s) => .go (f a s)) (q.next fun t => .go (g t)) := by
  cases h with
  | go s =>
    obtain ⟨s', called, same⟩ := hook s
    show Mirrored view a (.go (f a s)) (.go (g (view s)))
    rw [called, ← same]
    exact .go _
  | halt s => exact .halt s
  | cut r q => exact .cut _ _

/-- A hook that is called where the walk has ended, and does not show. -/
theorem ending {hook : α → σ → α × σ} (h : Mirrored view a r q)
    (quiet : ∀ s, ∃ s', hook a s = (a, s') ∧ view s' = view s) :
    Mirrored view a (r.ending hook) q := by
  cases h with
  | go s => exact .go s
  | halt s =>
    obtain ⟨s', called, same⟩ := quiet s
    show Mirrored view a (.halt (hook a s)) (.halt (view s))
    rw [called, ← same]
    exact .halt s'
  | cut r q => exact .cut r q

/-- A node that is entered after a reply that mirrors a reading one is walked as it is. -/
theorem of_reply {answer : Reply α × σ} {seen : Visit × τ} {inside : Walker σ α}
    {within : τ → Flow τ} (h : Reply.Mirrored view a answer seen)
    (walk : ∀ s, Mirrored view a (inside a s) (within (view s))) :
    Mirrored view a (Reply.enter answer inside) (Visit.enter seen within) := by
  cases h with
  | descend s => exact walk s
  | settle s => exact .go s
  | halt s => exact .halt s

end Walked.Mirrored

/-- A walk that is not cut off. -/
def Flow.walked : Flow α → Walked α
  | .go a => .go a
  | .halt a => .halt a

/-- What mirrors a walk and is not cut off is determined by it: the same answer, the same state
through `view`, and the same node. -/
theorem Walked.Mirrored.map_eq {a : α} {r : Walked (α × σ)} {q : Flow τ}
    (h : Mirrored view a r q) (uncut : r.Uncut) :
    r.map (fun (a, s) => (a, view s)) = (q.map fun t => (a, t)).walked := by
  cases h with
  | go s => rfl
  | halt s => rfl
  | cut r q => exact absurd rfl uncut

namespace Revision.Mirrors

open Mutation.Walked (Mirrored)

variable {w : Revision σ} {v : Survey τ}

/-- Both walks admit the same kinds of code. -/
theorem admits (h : w.Mirrors v view) (context : Context) (s : σ) :
    w.admits context s = v.admits context (view s) := by
  cases context with
  | executable => rfl
  | specification => exact h.specifications s
  | ghost => exact h.ghost s

/-- Both enter and leave a context around the walk of its inside. -/
theorem within (h : w.Mirrors v view) {a : α} {inside : Walker σ α} {walk : τ → Flow τ}
    (context : Context) (mirrored : ∀ s, Mirrored view a (inside a s) (walk (view s))) (s : σ) :
    Mirrored view a (w.within context inside a s) (v.within context walk (view s)) := by
  unfold Revision.within Survey.within
  split
  · exact mirrored s
  · rw [← h.enter]
    exact (mirrored _).after (f := fun a s => (a, w.exit context s))
      fun s => ⟨_, rfl, h.exit context s⟩

/-- Both walk a specification or pass it over. -/
theorem specified (h : w.Mirrors v view) {a : α} {inside : Walker σ α} {walk : τ → Flow τ}
    (mirrored : ∀ s, Mirrored view a (inside a s) (walk (view s))) (s : σ) :
    Mirrored view a (w.specified inside a s) (v.specified walk (view s)) := by
  unfold Revision.specified Survey.specified
  rw [← h.specifications]
  split
  · exact h.within _ mirrored s
  · exact .go s

/-- Both call their hooks around the inside of a node, and the node stays. -/
theorem around (h : w.Mirrors v view) (k : NodeSort) {a : k.Carrier}
    {inside : Walker σ k.Carrier} {walk : τ → Flow τ}
    (mirrored : ∀ s, Mirrored view a (inside a s) (walk (view s))) (s : σ) :
    Mirrored view a (w.around k inside a s) (v.around (k.node a) walk (view s)) :=
  (Mirrored.of_reply (h.visit k a s) mirrored).after (f := w.leave k) (h.leave k a)

/-! ### Expressions -/

section

/-! The walks of the parts of a node, from those of expressions. -/

variable {expr : Walker σ Expr} (each : ∀ e s, Mirrored view e (expr e s) (v.expr e (view s)))

include each

/-- A list of expressions, in order. -/
theorem exprs (es : List Expr) (s : σ) :
    Mirrored view es (Revision.exprs expr es s) (v.exprs es (view s)) := by
  induction es generalizing s with
  | nil => exact .go s
  | cons e es ih => exact ((each e s).both ih).rebuild fun x => x.1 :: x.2

/-- The walks of the inside of an expression. Chains apart, the editing walk goes through the
parts and puts the same shape together again. -/
theorem exprKind (h : w.Mirrors v view) (kind : ExprKind) (s : σ) :
    Mirrored view kind (w.exprKind expr kind s) (v.exprKind kind (view s)) := by
  cases hk : kind with
  | chain c =>
    obtain ⟨operands, ops, resolved⟩ := c
    have walked := (exprs each operands s).rebuild fun operands => Chain.mk operands ops resolved
    exact (walked.ending (h.resyncChain _)).rebuild ExprKind.chain
  | old e => exact (h.specified (each e) s).rebuild ExprKind.old
  | _ =>
    rw [← hk, exprKind_eq expr w (by simp [hk]) (by simp [hk]), v.exprKind_eq (by simp [hk])]
    have walked := (exprs each kind.parts s).rebuild kind.withParts
    rwa [ExprKind.withParts_parts] at walked

/-- An expression that may be absent. -/
theorem exprOpt (e : Option Expr) (s : σ) :
    Mirrored view e (Revision.exprOpt expr e s) (v.exprOpt e (view s)) := by
  cases e with
  | none => exact .go s
  | some e => exact (each e s).rebuild some

/-- A clause, which is no specification when it is empty. -/
theorem clause (h : w.Mirrors v view) (es : List Expr) (s : σ) :
    Mirrored view es (w.clause expr es s) (v.clause es (view s)) := by
  unfold Revision.clause Survey.clause
  split
  · exact .go s
  · exact h.specified (exprs each es) s

/-- Clauses one after another, as a contract and as the clauses of a loop. -/
theorem contract (h : w.Mirrors v view) (c : Contract) (s : σ) :
    Mirrored view c (w.contract expr c s) (v.clauses c.clauses (view s)) := by
  have walked := (((clause each h c.requires s).both (clause each h c.ensures)).both
    (clause each h c.frame)).both (clause each h c.decreases)
  have assembled := walked.rebuild fun x =>
    (⟨x.1.1.1, x.1.1.2, x.1.2, x.2⟩ : Contract)
  simpa [Revision.contract, Contract.clauses, Survey.clauses, Flow.next_next] using assembled

/-! ### Assignments -/

/-- The targets are kept; whether the walk has ended inside one depends on the answers. -/
theorem targets (h : w.Mirrors v view) (es : List Expr) (s : σ) :
    ∃ inside, Mirrored view (es, inside) (w.targets expr es s) (v.targets es (view s)) := by
  induction es generalizing s with
  | nil => exact ⟨false, .go s⟩
  | cons e es ih =>
    have others (s : σ) : ∃ inside, Mirrored view (e :: es, inside)
        ((w.targets expr es s).rebuild fun x => (e :: x.1, x.2)) (v.targets es (view s)) := by
      obtain ⟨inside, walked⟩ := ih s
      exact ⟨inside, walked.rebuild fun x => (e :: x.1, x.2)⟩
    unfold Revision.targets Survey.targets
    have answered := h.target e s
    generalize w.target e s = answer at answered ⊢
    generalize v.target e (view s) = seen at answered ⊢
    cases answered with
    | halt s' => exact ⟨false, .halt s'⟩
    | settle s' => exact others s'
    | descend s' =>
      have walked := each e s'
      simp only [Visit.enter]
      generalize expr e s' = r at walked ⊢
      generalize v.expr e (view s') = q at walked ⊢
      cases walked with
      | go s => exact others s
      | halt s => exact ⟨true, .halt s⟩
      | cut r q => exact ⟨true, .cut _ _⟩

/-- The values of an assignment; what brings it in step changes nothing. -/
theorem values (h : w.Mirrors v view) (u : Update) (s : σ) :
    Mirrored view u (w.values expr u s) (v.exprs u.values (view s)) :=
  ((exprs each u.values s).rebuild fun values => { u with values }).ending (h.resyncUpdate u)

/-- Targets come before values in both. -/
theorem update (h : w.Mirrors v view) (u : Update) (s : σ) :
    Mirrored view u (w.update expr u s) (v.update u (view s)) := by
  obtain ⟨inside, walked⟩ := targets each h u.targets s
  unfold Revision.update Survey.update
  generalize w.targets expr u.targets s = r at walked ⊢
  generalize v.targets u.targets (view s) = q at walked ⊢
  cases walked with
  | go s => exact values each h u s
  | halt s =>
    cases inside with
    | false => exact .halt s
    | true => exact Mirrored.ending (.halt s) (h.resyncUpdate u)
  | cut r q => exact .cut _ _

/-- A declaration in its values. -/
theorem varDecl (h : w.Mirrors v view) (d : VarDecl) (s : σ) :
    Mirrored view d (w.varDecl expr d s) (v.varDecl d (view s)) := by
  obtain ⟨locals, init⟩ := d
  cases init with
  | none => exact .go s
  | some init => exact (values each h init s).rebuild fun init => VarDecl.mk locals (some init)

end

/-- An expression: by induction on the depth of the editing walk, where a walk that was cut is
mirrored by any. -/
theorem expr (h : w.Mirrors v view) (depth : Nat) (e : Expr) (s : σ) :
    Mirrored view e (w.expr depth e s) (v.expr e (view s)) := by
  induction depth generalizing e s with
  | zero => exact .cut _ _
  | succ depth ih =>
    obtain ⟨kind, span, ty⟩ := e
    unfold Revision.expr Survey.expr
    rw [← h.worth]
    refine Mirrored.gated _ (h.around .expr (fun s => ?_) s)
    exact (exprKind ih h kind s).rebuild fun kind => Expr.mk kind span ty

/-! ### Statements -/

/-- A list of which the list hook is asked before it is walked. -/
theorem listed (h : w.Mirrors v view) {hook : List α → σ → Reply (List α) × σ} {list : List α}
    {s : σ} {seen : Visit × τ} {inside : Walker σ (List α)} {walk : τ → Flow τ}
    (reply : Reply.Mirrored view list (hook list s) seen)
    (mirrored : ∀ s, Mirrored view list (inside list s) (walk (view s))) :
    Mirrored view list (w.listed hook inside list s) (Visit.enter seen walk) := by
  refine Mirrored.of_reply reply fun s => ?_
  rw [h.halted s]
  exact mirrored s

/-- The first element of a list has been walked, and the walk goes on with the others. -/
theorem following (h : w.Mirrors v view) {a : α} {list : List α}
    {inside : σ → Walked (List α × σ)} {walk : τ → Flow τ}
    (rest : ∀ s, Mirrored view list (inside s) (walk (view s))) (s : σ) :
    Mirrored view (a :: list) (w.following [a] list s inside) (walk (view s)) := by
  unfold Revision.following
  rw [h.halted s]
  exact (rest s).rebuild fun list => [a] ++ list

section

/-! The walks of lists, from those of statements. -/

variable {stmt : Walker σ Stmt} (each : ∀ t s, Mirrored view t (stmt t s) (v.stmt t (view s)))

include each

/-- The statements of a list. An element is asked about twice in the editing walk, and the offer
in between does not show. -/
theorem elements (h : w.Mirrors v view) (list : List Stmt) (s : σ) :
    Mirrored view list (w.elements stmt list s) (v.elements list (view s)) := by
  induction list generalizing s with
  | nil => exact .go s
  | cons t list ih =>
    unfold Revision.elements Survey.elements
    by_cases entered : w.admits t.context s && w.worth s t.span
    · obtain ⟨s', offered, same⟩ := h.offer t s
      rw [if_pos entered, offered]
      simp only [h.halted, Edit.isKeep, Bool.not_true, Bool.or_self, Bool.false_eq_true, if_false]
      rw [← same]
      have first := each t s'
      generalize stmt t s' = r at first ⊢
      generalize v.stmt t (view s') = q at first ⊢
      cases first with
      | go s => exact h.following ih s
      | halt s => exact .halt s
      | cut r q => exact .cut _ _
    · have passed : v.stmt t (view s) = .go (view s) := by
        obtain ⟨kind, span, ghost⟩ := t
        rw [Survey.stmt, ← h.admits, ← h.worth, if_neg entered]
      rw [if_neg entered, passed]
      exact (ih s).rebuild fun list => t :: list

/-- A statement list, whose hook changes nothing, so its elements are walked in order. -/
theorem stmts (h : w.Mirrors v view) (list : List Stmt) (s : σ) :
    Mirrored view list (w.stmts stmt list s) (v.stmts list (view s)) :=
  h.listed (h.reviseStmts list s) (elements each h list)

/-- A block in its list. -/
theorem block (h : w.Mirrors v view) (b : Block) (s : σ) :
    Mirrored view b (w.block stmt b s) (v.block b (view s)) := by
  obtain ⟨list, span⟩ := b
  unfold Revision.block Survey.block
  rw [← h.worth]
  refine Mirrored.gated _ (h.around .block (fun s => ?_) s)
  exact (stmts each h list s).rebuild fun list => Block.mk list span

/-- The cases of a match in turn. -/
theorem matchCases (h : w.Mirrors v view) (cases : List MatchCase) (s : σ) :
    Mirrored view cases (w.matchCases stmt cases s) (v.matchCases cases (view s)) := by
  induction cases generalizing s with
  | nil => exact .go s
  | cons c cases ih =>
    obtain ⟨pattern, body, span⟩ := c
    have inside (s : σ) := (stmts each h body s).rebuild fun body => MatchCase.mk pattern body span
    have walked : Mirrored view (MatchCase.mk pattern body span) (w.around .case
        (fun c s => (w.stmts stmt c.body s).rebuild fun body => { c with body })
        ⟨pattern, body, span⟩ s) _ := h.around .case inside s
    unfold Revision.matchCases Revision.matchCase Survey.matchCases
    rw [← h.worth]
    exact ((Mirrored.gated _ walked).both ih).rebuild fun x => x.1 :: x.2

/-- A branch that may be absent. -/
theorem stmtOpt (t : Option Stmt) (s : σ) :
    Mirrored view t (Revision.stmtOpt stmt t s) (v.stmtOpt t (view s)) := by
  cases t with
  | none => exact .go s
  | some t => exact (each t s).rebuild some

/-- A body that may be absent. -/
theorem blockOpt (h : w.Mirrors v view) (b : Option Block) (s : σ) :
    Mirrored view b (w.blockOpt stmt b s) (v.blockOpt b (view s)) := by
  cases b with
  | none => exact .go s
  | some b => exact (block each h b s).rebuild some

/-- The walks of the inside of a statement. -/
theorem stmtKind (h : w.Mirrors v view) {expr : Walker σ Expr}
    (eachExpr : ∀ e s, Mirrored view e (expr e s) (v.expr e (view s))) (kind : StmtKind) (s : σ) :
    Mirrored view kind (w.stmtKind expr stmt kind s) (v.stmtKind kind (view s)) := by
  cases kind with
  | varDecl d => exact (varDecl eachExpr h d s).rebuild StmtKind.varDecl
  | update u => exact (update eachExpr h u s).rebuild StmtKind.update
  | expr e => exact (eachExpr e s).rebuild StmtKind.expr
  | ret values => exact (exprs eachExpr values s).rebuild StmtKind.ret
  | assert e => exact (eachExpr e s).rebuild StmtKind.assert
  | assume e => exact (eachExpr e s).rebuild StmtKind.assume
  | print args => exact (exprs eachExpr args s).rebuild StmtKind.print
  | breakLoop => exact .go s
  | continueLoop => exact .go s
  | block b => exact (block each h b s).rebuild StmtKind.block
  | ifElse guard b elseBranch =>
    exact (((exprOpt eachExpr guard s).both (block each h b)).both
      (stmtOpt each elseBranch)).rebuild fun x => StmtKind.ifElse x.1.1 x.1.2 x.2
  | whileLoop guard invariants decreases b =>
    have walked := ((((exprOpt eachExpr guard s).both (clause eachExpr h invariants)).both
      (clause eachExpr h decreases)).both (block each h b)).rebuild
        fun x => StmtKind.whileLoop x.1.1.1 x.1.1.2 x.1.2 x.2
    simpa [Survey.clauses, Survey.stmtKind, Revision.stmtKind, Flow.next_next] using walked
  | forLoop index start stop ascending invariants b =>
    exact ((((eachExpr start s).both (exprOpt eachExpr stop)).both
      (clause eachExpr h invariants)).both (block each h b)).rebuild
        fun x => StmtKind.forLoop index x.1.1.1 x.1.1.2 ascending x.1.2 x.2
  | matchOn source cases =>
    exact ((eachExpr source s).both (matchCases each h cases)).rebuild
      fun x => StmtKind.matchOn x.1 x.2

end

/-- A statement: by induction on the depth. -/
theorem stmt (h : w.Mirrors v view) (depth : Nat) (t : Stmt) (s : σ) :
    Mirrored view t (w.stmt depth t s) (v.stmt t (view s)) := by
  induction depth generalizing t s with
  | zero => exact .cut _ _
  | succ depth ih =>
    obtain ⟨kind, span, ghost⟩ := t
    unfold Revision.stmt Survey.stmt
    simp only
    rw [← h.admits, ← h.worth]
    refine Mirrored.gated _ (h.within _ (h.around .stmt fun s => ?_) s)
    exact (stmtKind ih h (h.expr depth) kind s).rebuild fun kind => Stmt.mk kind span ghost

/-! ### Declarations -/

section

variable (depth : Nat)

/-- A method: its contract comes before its body. -/
theorem method (h : w.Mirrors v view) (m : Method) (s : σ) :
    Mirrored view m (w.method depth m s) (v.method m (view s)) := by
  refine h.around .method (fun s => ?_) s
  exact ((contract (h.expr depth) h m.contract s).both (blockOpt (h.stmt depth) h m.body)).rebuild
    fun x => { m with contract := x.1, body := x.2 }

/-- A function: its contract comes before its body. -/
theorem function (h : w.Mirrors v view) (f : Function) (s : σ) :
    Mirrored view f (w.function depth f s) (v.function f (view s)) := by
  refine h.around .function (fun s => ?_) s
  exact ((contract (h.expr depth) h f.contract s).both (exprOpt (h.expr depth) f.body)).rebuild
    fun x => { f with contract := x.1, body := x.2 }

/-- One case per sort of member. -/
theorem memberKind (h : w.Mirrors v view) (m : Member) (s : σ) :
    Mirrored view m (w.memberKind depth m s) (v.memberKind m (view s)) := by
  cases m with
  | field f => exact (h.around .field (fun s => .go s) s).rebuild Member.field
  | method m => exact (h.method depth m s).rebuild Member.method
  | function f => exact (h.function depth f s).rebuild Member.function

/-- A member, in its own kind of code. -/
theorem member (h : w.Mirrors v view) (m : Member) (s : σ) :
    Mirrored view m (w.member depth m s) (v.member m (view s)) := by
  unfold Revision.member Survey.member
  rw [← h.admits, ← h.worth]
  exact Mirrored.gated _ (h.within _ (h.memberKind depth m) s)

/-- The members of a declaration in turn. -/
theorem eachMember (h : w.Mirrors v view) (ms : List Member) (s : σ) :
    Mirrored view ms (w.eachMember depth ms s) (v.eachMember ms (view s)) := by
  induction ms generalizing s with
  | nil => exact .go s
  | cons m ms ih =>
    have first := h.member depth m s
    unfold Revision.eachMember Survey.eachMember
    generalize w.member depth m s = r at first ⊢
    generalize v.member m (view s) = q at first ⊢
    cases first with
    | go s => exact h.following ih s
    | halt s => exact .halt s
    | cut r q => exact .cut _ _

/-- The member list, after its hook. -/
theorem members (h : w.Mirrors v view) (ms : List Member) (s : σ) :
    Mirrored view ms (w.members depth ms s) (v.members ms (view s)) :=
  h.listed (h.reviseMembers ms s) (h.eachMember depth ms)

/-- A declaration in its members. -/
theorem decl (h : w.Mirrors v view) (d : Decl) (s : σ) :
    Mirrored view d (w.decl depth d s) (v.decl d (view s)) := by
  cases d with
  | «class» c =>
    simp only [Revision.decl, Revision.class, Survey.decl]
    rw [← h.worth]
    refine Mirrored.rebuild Decl.class (Mirrored.gated _ (h.around .class (fun s => ?_) s))
    exact (h.members depth c.members s).rebuild fun members => { c with members }
  | datatype d =>
    simp only [Revision.decl, Revision.datatype, Survey.decl]
    rw [← h.worth]
    refine Mirrored.rebuild Decl.datatype (Mirrored.gated _ (h.around .datatype (fun s => ?_) s))
    exact (h.members depth d.members s).rebuild fun members => { d with members }

/-- The declarations of a module in turn. -/
theorem decls (h : w.Mirrors v view) (ds : List Decl) (s : σ) :
    Mirrored view ds (w.decls depth ds s) (v.decls ds (view s)) := by
  induction ds generalizing s with
  | nil => exact .go s
  | cons d ds ih => exact ((h.decl depth d s).both ih).rebuild fun x => x.1 :: x.2

/-- Mirrored hooks make mirrored walks: an editing walk that edits nothing keeps the module, ends
when the reading walk ends, and its last state shows as that of the reading walk. -/
theorem module (h : w.Mirrors v view) (m : Module) (s : σ) :
    Mirrored view m (w.module depth m s) (v.module m (view s)) := by
  refine h.around .module (fun s => ?_) s
  exact (h.decls depth m.decls s).rebuild fun decls => { m with decls }

end

end Revision.Mirrors

/-! ### Policies -/

/-- A reading walk has this hook call too; the others are an editing walk's own. -/
def Event.isReading : Event → Bool
  | .offer _ | .resyncUpdate _ | .resyncChain _ => false
  | _ => true

/-- How hooks answer, given the hooks called so far, the last one first. The hooks that only ask
(`worth`, `specifications` and `ghost`) do not add to what has been called. -/
structure Policy where
  worth : List Event → Span → Bool
  specifications : List Event → Bool
  ghost : List Event → Bool
  visit : List Event → Node → Visit
  target : List Event → Expr → Visit
  stmtList : List Event → List Stmt → Visit
  memberList : List Event → List Member → Visit

/-- What an editing hook answers that leaves a node as it is, where a reading hook answers this. -/
def Visit.reply (answer : Visit) (a : α) : Reply α :=
  match answer with
  | .proceed => .descend a
  | .skip => .settle a
  | .stop => .halt a

namespace Policy

variable (p : Policy)

/-- The reading walk of a policy, which records the hooks it calls. -/
def survey : Survey (List Event) where
  worth := p.worth
  specifications := p.specifications
  ghost := p.ghost
  enter context called := .enter context :: called
  exit context called := .exit context :: called
  visit node called := (p.visit called node, .visit node :: called)
  leave node called := .leave node :: called
  target e called := (p.target called e, .target e :: called)
  stmtList list called := (p.stmtList called list, .stmtList list :: called)
  memberList list called := (p.memberList called list, .memberList list :: called)

/-- The calls of an editing walk that a reading walk has too. -/
def reading (called : List Event) : List Event := called.filter Event.isReading

/-- The editing walk of a policy, which records the hooks it calls. It answers by the calls that a
reading walk has too, leaves every node as it is, changes no copy and never halts. -/
def revision : Revision (List Event) where
  worth called := p.worth (reading called)
  specifications called := p.specifications (reading called)
  ghost called := p.ghost (reading called)
  enter context called := .enter context :: called
  exit context called := .exit context :: called
  visit k a called := ((p.visit (reading called) (k.node a)).reply a, .visit (k.node a) :: called)
  leave k a called := (a, .leave (k.node a) :: called)
  target e called := ((p.target (reading called) e).reply e, .target e :: called)
  halted _ := false
  reviseStmts list called := ((p.stmtList (reading called) list).reply list, .stmtList list :: called)
  reviseMembers list called :=
    ((p.memberList (reading called) list).reply list, .memberList list :: called)
  offer st called := (⟨st, .keep⟩, .offer st :: called)
  resyncUpdate u called := (u, .resyncUpdate u :: called)
  resyncChain c called := (c, .resyncChain c :: called)

/-- A reply that keeps a node, with a call that a reading walk has too. -/
theorem reply_mirrored {called : List Event} {e : Event} (counted : e.isReading) (answer : Visit)
    (a : α) :
    Reply.Mirrored reading a (answer.reply a, e :: called) (answer, e :: reading called) := by
  have seen : reading (e :: called) = e :: reading called := List.filter_cons_of_pos counted
  rw [← seen]
  cases answer with
  | proceed => exact .descend _
  | skip => exact .settle _
  | stop => exact .halt _

/-- The editing walker of a policy mirrors its reading one. -/
theorem mirrors : p.revision.Mirrors p.survey reading where
  worth _ _ := rfl
  specifications _ := rfl
  ghost _ := rfl
  enter _ _ := rfl
  exit _ _ := rfl
  visit _ _ _ := reply_mirrored rfl _ _
  leave _ _ _ := ⟨_, rfl, rfl⟩
  target _ _ := reply_mirrored rfl _ _
  reviseStmts _ _ := reply_mirrored rfl _ _
  reviseMembers _ _ := reply_mirrored rfl _ _
  halted _ := rfl
  offer _ _ := ⟨_, rfl, rfl⟩
  resyncUpdate _ _ := ⟨_, rfl, rfl⟩
  resyncChain _ _ := ⟨_, rfl, rfl⟩

/-- The two walks agree: under one policy, an editing walk that edits nothing calls the hooks of
the reading walk in the same order and on the same nodes, ends exactly when the reading walk
ends, and leaves the module as it is, at every depth that reaches all of the module. -/
theorem walks_agree (m : Module) (spare : Nat) :
    (p.revision.module (m.size + spare) m []).map
        (fun (after, called) => (after, reading called)) =
      ((p.survey.module m []).map fun called => (m, called)).walked :=
  (p.mirrors.module (m.size + spare) m []).map_eq
    (p.mirrors.modest.module (Nat.le_add_right m.size spare) [])

end Policy

end Mutation
