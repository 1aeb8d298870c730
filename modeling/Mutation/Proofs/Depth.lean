import Mutation.Proofs.Size
import Mutation.Walk.Revision

/-!
# How deep a walk has to go

An editing walk is given a depth and is cut off below it. The depth is a bound and nothing else: a
walk that has not been cut off goes the same way at every greater depth (`Revision.module_deepens`).
A revision is *modest* when it leaves no node larger than it was given, and a walk of such a
revision is not cut off at the depth of the tree's size (`Revision.Modest.module`).
-/

namespace Mutation

variable {σ α β : Type}

namespace Walked

/-- The walk has been cut off. -/
def IsCut (r : Walked α) : Prop := ∃ a, r = .cut a

/-- A walk, and the same walk to a greater depth: unless the first has been cut off, the two come to
the same. -/
def Deepens (r r' : Walked α) : Prop := r.IsCut ∨ r' = r

theorem IsCut.rebuild {r : Walked (α × σ)} (h : r.IsCut) (f : α → β) : (r.rebuild f).IsCut := by
  obtain ⟨a, rfl⟩ := h
  exact ⟨_, rfl⟩

namespace Deepens

theorem refl (r : Walked α) : r.Deepens r := .inr rfl

/-- A walk that has been cut off is deepened by every walk. -/
theorem cut (a : α) (r : Walked α) : (Walked.cut a).Deepens r := .inl ⟨a, rfl⟩

variable {r r' : Walked (α × σ)}

/-- A deeper walk of a part is a deeper walk of the node that is built from it. -/
theorem rebuild (h : r.Deepens r') (f : α → β) : (r.rebuild f).Deepens (r'.rebuild f) := by
  obtain cut | rfl := h
  · exact .inl (cut.rebuild f)
  · exact refl _

/-- Two parts one after the other are walked deeper when each of them is. -/
theorem both {b : β} {k k' : σ → Walked (β × σ)} (h : r.Deepens r')
    (rest : ∀ s, (k s).Deepens (k' s)) : (r.both b k).Deepens (r'.both b k') := by
  obtain ⟨a, rfl⟩ | rfl := h
  · exact cut _ _
  · cases r' with
    | go a => exact (rest a.2).rebuild fun b => (a.1, b)
    | halt _ | cut _ => exact refl _

/-- What follows a walk does not depend on its depth. -/
theorem next {k : α × σ → Walked (α × σ)} (h : r.Deepens r') :
    (r.next k).Deepens (r'.next k) := by
  obtain ⟨a, rfl⟩ | rfl := h
  · exact cut _ _
  · exact refl _

theorem ending {hook : α → σ → α × σ} (h : r.Deepens r') :
    (r.ending hook).Deepens (r'.ending hook) := by
  obtain ⟨a, rfl⟩ | rfl := h
  · exact cut _ _
  · exact refl _

/-- Whichever way a walk goes, it deepens when both ways do. -/
theorem choose {r r' q q' : Walked α} (c : Bool) (h : r.Deepens r') (h' : q.Deepens q') :
    (if c then r else q).Deepens (if c then r' else q') := by
  cases c with
  | false => exact h'
  | true => exact h

theorem gated {r r' q : Walked α} (worth : Bool) (h : r.Deepens r') :
    (if worth then r else q).Deepens (if worth then r' else q) :=
  choose worth h (refl q)

end Deepens

end Walked

/-! ### Greater depths -/

namespace Revision

open Walked (Deepens)

variable {v : Revision σ}

/-- The hook before a node is asked before the depth counts. -/
theorem enter_deepens {answer : Reply α × σ} {inside inside' : Walker σ α}
    (h : ∀ a s, (inside a s).Deepens (inside' a s)) :
    (Reply.enter answer inside).Deepens (Reply.enter answer inside') := by
  obtain ⟨answer, s⟩ := answer
  cases answer with
  | descend a => exact h a s
  | settle _ | halt _ => exact .refl _

theorem around_deepens {k : NodeSort} {inside inside' : Walker σ k.Carrier}
    (h : ∀ a s, (inside a s).Deepens (inside' a s)) (a : k.Carrier) (s : σ) :
    (v.around k inside a s).Deepens (v.around k inside' a s) :=
  (enter_deepens h).next

theorem within_deepens {inside inside' : Walker σ α} (context : Context)
    (h : ∀ a s, (inside a s).Deepens (inside' a s)) (a : α) (s : σ) :
    (v.within context inside a s).Deepens (v.within context inside' a s) := by
  unfold within
  split
  · exact h a s
  · exact (h a _).next

theorem specified_deepens {inside inside' : Walker σ α}
    (h : ∀ a s, (inside a s).Deepens (inside' a s)) (a : α) (s : σ) :
    (v.specified inside a s).Deepens (v.specified inside' a s) :=
  .gated _ (within_deepens .specification h a s)

/-- A list is walked deeper when its inside is, also by a revision that halts before it. -/
theorem listed_deepens {hook : List α → σ → Reply (List α) × σ} {inside inside' : Walker σ (List α)}
    (h : ∀ list s, (inside list s).Deepens (inside' list s)) (list : List α) (s : σ) :
    (v.listed hook inside list s).Deepens (v.listed hook inside' list s) := by
  refine enter_deepens fun list s => ?_
  split
  · exact .refl _
  · exact h list s

/-- The elements behind the first one are walked deeper, unless the revision has halted. -/
theorem following_deepens {first rest : List α} {k k' : σ → Walked (List α × σ)} (s : σ)
    (h : ∀ s, (k s).Deepens (k' s)) :
    (v.following first rest s k).Deepens (v.following first rest s k') := by
  unfold following
  split
  · exact .refl _
  · exact (h s).rebuild _

section

variable {expr expr' : Walker σ Expr} (hE : ∀ e s, (expr e s).Deepens (expr' e s))
  {stmt stmt' : Walker σ Stmt} (hS : ∀ st s, (stmt st s).Deepens (stmt' st s))

include hE

/-- Some expressions are walked deeper when each expression is. -/
theorem exprs_deepens (es : List Expr) (s : σ) : (exprs expr es s).Deepens (exprs expr' es s) := by
  induction es generalizing s with
  | nil => exact .refl _
  | cons e es ih => exact ((hE e s).both ih).rebuild _

theorem exprOpt_deepens (e : Option Expr) (s : σ) :
    (exprOpt expr e s).Deepens (exprOpt expr' e s) := by
  cases e with
  | none => exact .refl _
  | some e => exact (hE e s).rebuild _

/-- The parts of an expression are walked deeper; in a chain and under `old` more than the walk of
the parts happens. -/
theorem exprKind_deepens (kind : ExprKind) (s : σ) :
    (v.exprKind expr kind s).Deepens (v.exprKind expr' kind s) := by
  cases hk : kind with
  | chain c => exact ((exprs_deepens hE c.operands s).rebuild _).ending.rebuild _
  | old e => exact (specified_deepens hE e s).rebuild _
  | _ =>
    rw [← hk, exprKind_eq expr v (by simp [hk]) (by simp [hk]),
      exprKind_eq expr' v (by simp [hk]) (by simp [hk])]
    exact (exprs_deepens hE kind.parts s).rebuild _

theorem clause_deepens (es : List Expr) (s : σ) :
    (v.clause expr es s).Deepens (v.clause expr' es s) := by
  unfold clause
  split
  · exact .refl _
  · exact specified_deepens (exprs_deepens hE) es s

theorem contract_deepens (c : Contract) (s : σ) :
    (v.contract expr c s).Deepens (v.contract expr' c s) :=
  ((((clause_deepens hE c.requires s).both (clause_deepens hE c.ensures)).both
    (clause_deepens hE c.frame)).both (clause_deepens hE c.decreases)).rebuild _

/-- A target that is settled is not walked, so only those count that the hook lets the walk into. -/
theorem targets_deepens (es : List Expr) (s : σ) :
    (v.targets expr es s).Deepens (v.targets expr' es s) := by
  induction es generalizing s with
  | nil => exact .refl _
  | cons e es ih =>
    unfold targets
    obtain ⟨answer, s'⟩ := v.target e s
    cases answer with
    | halt e => exact .refl _
    | settle e => exact (ih s').rebuild _
    | descend e =>
      simp only
      obtain ⟨a, cut⟩ | same := hE e s'
      · rw [cut]
        exact .cut _ _
      · rw [same]
        cases expr e s' with
        | go r => exact (ih r.2).rebuild _
        | halt _ | cut _ => exact .refl _

theorem values_deepens (u : Update) (s : σ) :
    (v.values expr u s).Deepens (v.values expr' u s) :=
  ((exprs_deepens hE u.values s).rebuild _).ending

/-- An assignment is walked deeper: its targets first, then its values. -/
theorem update_deepens (u : Update) (s : σ) :
    (v.update expr u s).Deepens (v.update expr' u s) := by
  unfold update
  obtain ⟨a, cut⟩ | same := targets_deepens (v := v) hE u.targets s
  · rw [cut]
    exact .cut _ _
  · rw [same]
    obtain r | ⟨⟨targets, inside⟩, s'⟩ | r := v.targets expr u.targets s
    · exact values_deepens hE _ r.2
    · cases inside <;> exact .refl _
    · exact .refl _

theorem varDecl_deepens (d : VarDecl) (s : σ) :
    (v.varDecl expr d s).Deepens (v.varDecl expr' d s) := by
  unfold varDecl
  cases d.init with
  | none => exact .refl _
  | some init => exact (values_deepens hE init s).rebuild _

omit hE
include hS

/-- An element that gives way is not walked, so a deeper walk differs in those that are kept. -/
theorem elements_deepens (list : List Stmt) (s : σ) :
    (v.elements stmt list s).Deepens (v.elements stmt' list s) := by
  induction list generalizing s with
  | nil => exact .refl _
  | cons st list ih =>
    refine .choose _ ?_ ((ih s).rebuild _)
    obtain ⟨offer, s'⟩ := v.offer st s
    refine .choose _ (following_deepens s' ih) ?_
    obtain ⟨a, cut⟩ | same := hS offer.left s'
    · rw [cut]
      exact .cut _ _
    · rw [same]
      cases stmt offer.left s' with
      | go r => exact following_deepens _ ih
      | halt _ | cut _ => exact .refl _

/-- A statement list is walked deeper when each statement is. -/
theorem stmts_deepens (list : List Stmt) (s : σ) :
    (v.stmts stmt list s).Deepens (v.stmts stmt' list s) :=
  listed_deepens (elements_deepens hS) list s

theorem block_deepens (b : Block) (s : σ) : (v.block stmt b s).Deepens (v.block stmt' b s) :=
  .gated _ (around_deepens (k := .block) (fun b s => (stmts_deepens hS b.stmts s).rebuild _) b s)

/-- The cases of a `match` are walked deeper when each statement is. -/
theorem matchCases_deepens (cases : List MatchCase) (s : σ) :
    (v.matchCases stmt cases s).Deepens (v.matchCases stmt' cases s) := by
  induction cases generalizing s with
  | nil => exact .refl _
  | cons c cases ih =>
    have first : (v.matchCase stmt c s).Deepens (v.matchCase stmt' c s) :=
      .gated _ (around_deepens (k := .case) (fun c s => (stmts_deepens hS c.body s).rebuild _) c s)
    exact (first.both ih).rebuild _

theorem stmtOpt_deepens (st : Option Stmt) (s : σ) :
    (stmtOpt stmt st s).Deepens (stmtOpt stmt' st s) := by
  cases st with
  | none => exact .refl _
  | some st => exact (hS st s).rebuild _

theorem blockOpt_deepens (b : Option Block) (s : σ) :
    (v.blockOpt stmt b s).Deepens (v.blockOpt stmt' b s) := by
  cases b with
  | none => exact .refl _
  | some b => exact (block_deepens hS b s).rebuild _

include hE

/-- The parts of a statement are walked deeper when each expression and each statement is. -/
theorem stmtKind_deepens (kind : StmtKind) (s : σ) :
    (v.stmtKind expr stmt kind s).Deepens (v.stmtKind expr' stmt' kind s) := by
  unfold stmtKind
  cases kind with
  | varDecl d => exact (varDecl_deepens hE d s).rebuild _
  | update u => exact (update_deepens hE u s).rebuild _
  | expr e | assert e | assume e => exact (hE e s).rebuild _
  | ret es | print es => exact (exprs_deepens hE es s).rebuild _
  | ifElse guard thenBranch elseBranch =>
    exact (((exprOpt_deepens hE guard s).both (block_deepens hS thenBranch)).both
      (stmtOpt_deepens hS elseBranch)).rebuild _
  | whileLoop guard invariants decreases body =>
    exact ((((exprOpt_deepens hE guard s).both (clause_deepens hE invariants)).both
      (clause_deepens hE decreases)).both (block_deepens hS body)).rebuild _
  | forLoop index start stop ascending invariants body =>
    exact ((((hE start s).both (exprOpt_deepens hE stop)).both
      (clause_deepens hE invariants)).both (block_deepens hS body)).rebuild _
  | breakLoop | continueLoop => exact .refl _
  | block b => exact (block_deepens hS b s).rebuild _
  | matchOn source cases => exact ((hE source s).both (matchCases_deepens hS cases)).rebuild _

end

variable (v) {depth deeper : Nat} (h : depth ≤ deeper)

include h

/-- A walk of an expression that has not been cut off is the same at every greater depth. -/
theorem expr_deepens (e : Expr) (s : σ) : (v.expr depth e s).Deepens (v.expr deeper e s) := by
  induction depth generalizing deeper e s with
  | zero => exact .cut _ _
  | succ depth ih =>
    obtain ⟨deeper, rfl⟩ := Nat.exists_eq_add_one.2 (Nat.lt_of_lt_of_le (Nat.succ_pos _) h)
    have parts := exprKind_deepens (v := v) (ih (Nat.le_of_succ_le_succ h))
    exact .gated _ (around_deepens (k := .expr) (fun e s => (parts e.kind s).rebuild _) e s)

/-- A walk of a statement that has not been cut off is the same at every greater depth. -/
theorem stmt_deepens (st : Stmt) (s : σ) : (v.stmt depth st s).Deepens (v.stmt deeper st s) := by
  induction depth generalizing deeper st s with
  | zero => exact .cut _ _
  | succ depth ih =>
    obtain ⟨deeper, rfl⟩ := Nat.exists_eq_add_one.2 (Nat.lt_of_lt_of_le (Nat.succ_pos _) h)
    have below := Nat.le_of_succ_le_succ h
    have parts := stmtKind_deepens (v := v) (v.expr_deepens below) (ih below)
    exact .gated _ (within_deepens _
      (around_deepens (k := .stmt) fun st s => (parts st.kind s).rebuild _) st s)

/-- Contracts and bodies of members are walked to the depth of the walk. -/
theorem memberKind_deepens (m : Member) (s : σ) :
    (v.memberKind depth m s).Deepens (v.memberKind deeper m s) := by
  cases m with
  | field f => exact .refl _
  | method m =>
    refine (around_deepens (k := .method) (fun m s => ?_) m s).rebuild _
    exact ((contract_deepens (v.expr_deepens h) m.contract s).both
      (blockOpt_deepens (v.stmt_deepens h) m.body)).rebuild _
  | function f =>
    refine (around_deepens (k := .function) (fun f s => ?_) f s).rebuild _
    exact ((contract_deepens (v.expr_deepens h) f.contract s).both
      (exprOpt_deepens (v.expr_deepens h) f.body)).rebuild _

theorem member_deepens (m : Member) (s : σ) :
    (v.member depth m s).Deepens (v.member deeper m s) :=
  .gated _ (within_deepens _ (v.memberKind_deepens h) m s)

/-- The members of a declaration are walked deeper one after another. -/
theorem eachMember_deepens (ms : List Member) (s : σ) :
    (v.eachMember depth ms s).Deepens (v.eachMember deeper ms s) := by
  induction ms generalizing s with
  | nil => exact .refl _
  | cons m ms ih =>
    unfold eachMember
    obtain ⟨a, cut⟩ | same := v.member_deepens h m s
    · rw [cut]
      exact .cut _ _
    · rw [same]
      cases v.member depth m s with
      | go r => exact following_deepens _ ih
      | halt _ | cut _ => exact .refl _

theorem members_deepens (ms : List Member) (s : σ) :
    (v.members depth ms s).Deepens (v.members deeper ms s) :=
  listed_deepens (v.eachMember_deepens h) ms s

theorem decl_deepens (d : Decl) (s : σ) : (v.decl depth d s).Deepens (v.decl deeper d s) := by
  cases d with
  | «class» c =>
    refine Deepens.rebuild (.gated _ ?_) _
    exact around_deepens (k := .class) (fun c s => (v.members_deepens h c.members s).rebuild _) c s
  | datatype d =>
    refine Deepens.rebuild (.gated _ ?_) _
    exact around_deepens (k := .datatype)
      (fun d s => (v.members_deepens h d.members s).rebuild _) d s

theorem decls_deepens (ds : List Decl) (s : σ) :
    (v.decls depth ds s).Deepens (v.decls deeper ds s) := by
  induction ds generalizing s with
  | nil => exact .refl _
  | cons d ds ih => exact ((v.decl_deepens h d s).both ih).rebuild _

/-- A walk of a module that has not been cut off goes the same way at every greater depth. -/
theorem module_deepens (m : Module) (s : σ) :
    (v.module depth m s).Deepens (v.module deeper m s) :=
  around_deepens (k := .module) (fun m s => (v.decls_deepens h m.decls s).rebuild _) m s

end Revision

/-! ### A depth that is enough -/

/-- The size of a node of a sort. -/
def NodeSort.size : (k : NodeSort) → k.Carrier → Nat
  | .module => Module.size
  | .class => fun c => Member.sizeList c.members
  | .datatype => fun d => Member.sizeList d.members
  | .field => fun _ => 0
  | .method => fun m => (Member.method m).size
  | .function => fun f => (Member.function f).size
  | .block => Block.size
  | .stmt => Stmt.size
  | .case => fun c => Stmt.sizeList c.body
  | .expr => Expr.size

/-- The revision lets the walk into no node that it has made larger. -/
structure Revision.Modest (v : Revision σ) : Prop where
  visit : ∀ k a s b, (v.visit k a s).1 = .descend b → k.size b ≤ k.size a
  target : ∀ e s e', (v.target e s).1 = .descend e' → e'.size ≤ e.size
  reviseStmts : ∀ list s list', (v.reviseStmts list s).1 = .descend list' →
    Stmt.sizeList list' ≤ Stmt.sizeList list
  reviseMembers : ∀ list s list', (v.reviseMembers list s).1 = .descend list' →
    Member.sizeList list' ≤ Member.sizeList list
  offer : ∀ st s, (v.offer st s).1.edit.isKeep = true → (v.offer st s).1.left.size ≤ st.size

/-! ### Ways to end -/

/-- How a walk ends that does not go on. -/
inductive Ending where
  | halted
  | cut

/-- How a walk has ended, if it does not go on. -/
def Walked.ending? : Walked α → Option Ending
  | .go _ => none
  | .halt _ => some .halted
  | .cut _ => some .cut

/-- The walk does not end in this way. -/
def Walked.Avoids (x : Ending) (r : Walked α) : Prop := r.ending? ≠ some x

/-- The walk has not been cut off. -/
abbrev Walked.Uncut (r : Walked α) : Prop := r.Avoids .cut

namespace Walked

/-- A walk that has ended has not been cut off. -/
theorem Uncut.halt (a : α) : (Walked.halt a).Uncut := nofun

theorem Uncut.not_isCut {r : Walked α} (h : r.Uncut) : ¬r.IsCut := by
  rintro ⟨a, rfl⟩
  exact h rfl

variable {x : Ending}

namespace Avoids

theorem go (a : α) : (Walked.go a).Avoids x := nofun

variable {r : Walked (α × σ)}

/-- A node ends in no way in which its walked part does not end. -/
theorem rebuild (h : r.Avoids x) (f : α → β) : (r.rebuild f).Avoids x := by
  cases r <;> exact h

/-- Two walks one after the other end in no way in which neither ends. -/
theorem both {b : β} {k : σ → Walked (β × σ)} (h : r.Avoids x) (rest : ∀ s, (k s).Avoids x) :
    (r.both b k).Avoids x := by
  cases r with
  | go a => exact (rest a.2).rebuild _
  | halt _ | cut _ => exact h

/-- What follows a walk that goes on adds no way to end. -/
theorem next {k : α × σ → α × σ} (h : r.Avoids x) : (r.next fun a => .go (k a)).Avoids x := by
  cases r <;> exact h

/-- A hook that sees the end of a walk does not change how it ends. -/
theorem ending {hook : α → σ → α × σ} (h : r.Avoids x) : (r.ending hook).Avoids x := by
  cases r <;> exact h

/-- A walk that takes place on a condition ends in no new way. -/
theorem gated {r : Walked α} {a : α} (worth : Bool) (h : r.Avoids x) :
    (if worth then r else .go a).Avoids x := by
  cases worth with
  | false => exact go a
  | true => exact h

end Avoids

end Walked

namespace Revision

open Walked (Avoids)

variable {v : Revision σ} {x : Ending}

/-- The hooks of a kind of code add no way to end. -/
theorem within_avoids {inside : Walker σ α} {context : Context} {a : α}
    (h : ∀ s, (inside a s).Avoids x) (s : σ) : (v.within context inside a s).Avoids x := by
  unfold within
  split
  · exact h s
  · exact (h _).next

/-- Nor does a specification, which may be passed over. -/
theorem specified_avoids {inside : Walker σ α} {a : α} (h : ∀ s, (inside a s).Avoids x) (s : σ) :
    (v.specified inside a s).Avoids x :=
  .gated _ (within_avoids h s)

section

/-! What an expression is part of ends in no way in which the walks of its parts do not end. -/

variable {expr : Walker σ Expr}

/-- Some expressions end in no way in which none of them ends. -/
theorem exprs_avoids {es : List Expr} (each : ∀ e ∈ es, ∀ s, (expr e s).Avoids x) (s : σ) :
    (exprs expr es s).Avoids x := by
  induction es generalizing s with
  | nil => exact .go _
  | cons e es ih =>
    obtain ⟨first, others⟩ := List.forall_mem_cons.1 each
    exact ((first s).both (ih others)).rebuild _

theorem exprOpt_avoids {e : Option Expr} (each : ∀ f ∈ e.toList, ∀ s, (expr f s).Avoids x) (s : σ) :
    (exprOpt expr e s).Avoids x := by
  cases e with
  | none => exact .go _
  | some e => exact (each e (by simp) s).rebuild _

/-- The inside of an expression ends in no way in which none of its parts ends. -/
theorem exprKind_avoids {kind : ExprKind} (each : ∀ e ∈ kind.parts, ∀ s, (expr e s).Avoids x)
    (s : σ) : (v.exprKind expr kind s).Avoids x := by
  have parts := exprs_avoids each s
  cases hk : kind with
  | chain c =>
    subst hk
    exact ((parts.rebuild _).ending).rebuild _
  | old e =>
    subst hk
    exact (specified_avoids (each e (by simp [ExprKind.parts])) s).rebuild _
  | _ =>
    rw [← hk, exprKind_eq expr v (by simp [hk]) (by simp [hk])]
    exact parts.rebuild _

theorem clause_avoids {es : List Expr} (each : ∀ e ∈ es, ∀ s, (expr e s).Avoids x) (s : σ) :
    (v.clause expr es s).Avoids x := by
  unfold clause
  split
  · exact .go _
  · exact specified_avoids (exprs_avoids each) s

/-- An assignment that is brought in step still ends as its values do. -/
theorem values_avoids {u : Update} (each : ∀ e ∈ u.values, ∀ s, (expr e s).Avoids x) (s : σ) :
    (v.values expr u s).Avoids x :=
  ((exprs_avoids each s).rebuild _).ending

theorem varDecl_avoids {d : VarDecl}
    (each : ∀ init ∈ d.init, ∀ e ∈ init.values, ∀ s, (expr e s).Avoids x) (s : σ) :
    (v.varDecl expr d s).Avoids x := by
  unfold varDecl
  cases hd : d.init with
  | none => exact .go _
  | some init => exact (values_avoids (each init hd) s).rebuild _

end

theorem stmtOpt_avoids {stmt : Walker σ Stmt} {st : Option Stmt}
    (each : ∀ t ∈ st.toList, ∀ s, (stmt t s).Avoids x) (s : σ) :
    (stmtOpt stmt st s).Avoids x := by
  cases st with
  | none => exact .go _
  | some st => exact (each st (by simp) s).rebuild _

end Revision

/-! ### Walks that are not cut off -/

namespace Revision

open Walked (Avoids Uncut)

variable {v : Revision σ}

/-- A hook does not cut a walk off; only what it lets the walk into may be cut off. -/
theorem enter_uncut {answer : Reply α × σ} {inside : Walker σ α}
    (h : ∀ a, answer.1 = .descend a → ∀ s, (inside a s).Uncut) :
    (Reply.enter answer inside).Uncut := by
  obtain ⟨reply, s⟩ := answer
  cases reply with
  | descend a => exact h a rfl s
  | settle _ => exact .go _
  | halt _ => exact .halt _

/-- A revision that halts has not been cut off. -/
theorem gated_halt_uncut {r : Walked α} {a : α} (halted : Bool) (h : r.Uncut) :
    (if halted then .halt a else r).Uncut := by
  cases halted with
  | false => exact h
  | true => exact .halt a

/-- Nor is a list in which the revision halts behind the first element. -/
theorem following_uncut {first rest : List α} {k : σ → Walked (List α × σ)}
    (h : ∀ s, (k s).Uncut) (s : σ) : (v.following first rest s k).Uncut :=
  gated_halt_uncut _ ((h s).rebuild _)

section

/-! Expressions of a size of at most `n` are walked without being cut off. -/

variable {expr : Walker σ Expr} {n : Nat} (hE : ∀ e : Expr, e.size ≤ n → ∀ s, (expr e s).Uncut)

include hE

/-- Expressions that are small together are small one by one. -/
theorem each_uncut {es : List Expr} (h : Expr.sizeList es ≤ n) :
    ∀ e ∈ es, ∀ s, (expr e s).Uncut :=
  fun e he => hE e (Nat.le_trans (Expr.size_le_of_mem he) h)

theorem exprOpt_uncut {e : Option Expr} (h : Expr.sizeOpt e ≤ n) (s : σ) :
    (exprOpt expr e s).Uncut :=
  exprOpt_avoids (each_uncut hE (Expr.sizeOpt_eq e ▸ h)) s

/-- A contract that is small enough is walked without being cut off. -/
theorem contract_uncut {c : Contract} (h : c.size ≤ n) (s : σ) :
    (v.contract expr c s).Uncut := by
  unfold Contract.size at h
  have clause {es : List Expr} (small : Expr.sizeList es ≤ n) (s : σ) :
      (v.clause expr es s).Uncut := clause_avoids (each_uncut hE small) s
  exact ((((clause (by omega) s).both (clause (by omega))).both (clause (by omega))).both
    (clause (by omega))).rebuild _

theorem varDecl_uncut {d : VarDecl} (h : d.size ≤ n) (s : σ) : (v.varDecl expr d s).Uncut := by
  refine varDecl_avoids (fun init hd => each_uncut hE ?_) s
  simp only [VarDecl.size, Option.mem_def.1 hd] at h
  exact Nat.le_trans (Nat.le_add_left _ _) h

end

end Revision

namespace Revision.Modest

open Walked (Avoids Uncut)

variable {v : Revision σ} (h : v.Modest)

include h

/-- A modest revision enters nodes that are no larger than those it is given. -/
theorem around {k : NodeSort} {inside : Walker σ k.Carrier} {a : k.Carrier}
    (inner : ∀ b, k.size b ≤ k.size a → ∀ s, (inside b s).Uncut) (s : σ) :
    (v.around k inside a s).Uncut :=
  (enter_uncut fun b descends => inner b (h.visit k a s b descends)).next

/-- Targets that are small enough together are walked without being cut off. -/
theorem targets {expr : Walker σ Expr} {n : Nat}
    (hE : ∀ e : Expr, e.size ≤ n → ∀ s, (expr e s).Uncut) {es : List Expr}
    (small : Expr.sizeList es ≤ n) (s : σ) : (v.targets expr es s).Uncut := by
  induction es generalizing s with
  | nil => exact .go _
  | cons e es ih =>
    rw [Expr.sizeList] at small
    have rest := ih (by omega)
    have left := h.target e s
    unfold Revision.targets
    generalize v.target e s = reply at left
    obtain ⟨answer, s'⟩ := reply
    cases answer with
    | halt e' => exact .halt _
    | settle e' => exact (rest s').rebuild _
    | descend e' =>
      have walked := hE e' (Nat.le_trans (left e' rfl) (by omega)) s'
      simp only
      cases he : expr e' s' with
      | go r => exact (rest r.2).rebuild _
      | halt _ => exact .halt _
      | cut r => exact absurd (he ▸ rfl) walked

/-- So is an assignment. -/
theorem update {expr : Walker σ Expr} {n : Nat}
    (hE : ∀ e : Expr, e.size ≤ n → ∀ s, (expr e s).Uncut) {u : Update} (small : u.size ≤ n) (s : σ) :
    (v.update expr u s).Uncut := by
  unfold Update.size at small
  have targets := h.targets hE (show Expr.sizeList u.targets ≤ n by omega) s
  unfold Revision.update
  generalize v.targets expr u.targets s = walked at targets
  obtain ⟨⟨es, inside⟩, s'⟩ | ⟨⟨es, inside⟩, s'⟩ | r := walked
  · exact values_avoids (each_uncut hE (by simp only; omega)) s'
  · cases inside <;> exact .halt _
  · exact absurd rfl targets

/-- An expression is walked to its end at the depth of its size. -/
theorem expr {depth : Nat} {e : Expr} (small : e.size ≤ depth) (s : σ) :
    (v.expr depth e s).Uncut := by
  induction depth generalizing e s with
  | zero =>
    have := e.size_pos
    omega
  | succ depth ih =>
    refine .gated _ (h.around (k := .expr) (fun e' smaller s => ?_) s)
    have fits : e'.size ≤ depth + 1 := Nat.le_trans smaller small
    rw [Expr.size_eq] at fits
    exact (exprKind_avoids (each_uncut (fun _ he => ih he) (by omega)) s).rebuild _

section

variable {stmt : Walker σ Stmt} {n : Nat} (hS : ∀ st : Stmt, st.size ≤ n → ∀ s, (stmt st s).Uncut)

include hS

/-- Elements that are kept are walked as they are left, so they are small enough too. -/
theorem elements {list : List Stmt} (small : Stmt.sizeList list ≤ n) (s : σ) :
    (v.elements stmt list s).Uncut := by
  induction list generalizing s with
  | nil => exact .go _
  | cons st list ih =>
    rw [Stmt.sizeList] at small
    have rest := ih (by omega)
    have kept := h.offer st s
    unfold Revision.elements
    generalize v.offer st s = offered at kept
    obtain ⟨offer, s'⟩ := offered
    simp only at kept
    split
    · simp only
      split
      · exact following_uncut rest _
      · next going =>
        simp only [Bool.or_eq_true, Bool.not_eq_true', not_or, Bool.not_eq_false] at going
        have walked := hS offer.left (Nat.le_trans (kept going.2) (by omega)) s'
        cases hs : stmt offer.left s' with
        | go r => exact following_uncut rest _
        | halt _ => exact .halt _
        | cut r => exact absurd (hs ▸ rfl) walked
    · exact (rest s).rebuild _

/-- A statement list that is small enough is walked without being cut off. -/
theorem stmts {list : List Stmt} (small : Stmt.sizeList list ≤ n) (s : σ) :
    (v.stmts stmt list s).Uncut :=
  enter_uncut fun list' descends s => gated_halt_uncut _
    (h.elements hS (Nat.le_trans (h.reviseStmts list _ list' descends) small) s)

theorem block {b : Block} (small : b.size ≤ n) (s : σ) : (v.block stmt b s).Uncut :=
  .gated _ (h.around (k := .block) (fun b' smaller s => by
    obtain ⟨list, span⟩ := b'
    exact (h.stmts hS (Nat.le_trans smaller small) s).rebuild _) s)

/-- So are the cases of a `match`. -/
theorem matchCases {cases : List MatchCase} (small : MatchCase.sizeList cases ≤ n) (s : σ) :
    (v.matchCases stmt cases s).Uncut := by
  induction cases generalizing s with
  | nil => exact .go _
  | cons c cases ih =>
    rw [MatchCase.sizeList_cons] at small
    have fits : NodeSort.case.size c ≤ n := Nat.le_trans (Nat.le_add_right _ _) small
    have first : (v.matchCase stmt c s).Uncut :=
      .gated _ (h.around (k := .case) (fun c' smaller s =>
        (h.stmts hS (Nat.le_trans smaller fits) s).rebuild _) s)
    exact (first.both (ih (by omega))).rebuild _

/-- The parts of a statement are small enough when they are so together. -/
theorem stmtKind {expr : Walker σ Expr} (hE : ∀ e : Expr, e.size ≤ n → ∀ s, (expr e s).Uncut)
    {kind : StmtKind} (small : kind.size ≤ n) (s : σ) : (v.stmtKind expr stmt kind s).Uncut := by
  unfold Revision.stmtKind
  cases kind <;> simp only [StmtKind.size] at small
  case varDecl d => exact (varDecl_uncut hE small s).rebuild _
  case update u => exact (h.update hE small s).rebuild _
  case expr e | assert e | assume e => exact (hE e small s).rebuild _
  case ret es | print es => exact (exprs_avoids (each_uncut hE small) s).rebuild _
  case ifElse guard thenBranch elseBranch =>
    have branch : ∀ st ∈ elseBranch.toList, ∀ s, (stmt st s).Uncut := by
      rintro st hst
      obtain rfl : elseBranch = some st := by simpa using hst
      simp only [Stmt.sizeOpt] at small
      exact hS st (by omega)
    exact (((exprOpt_uncut hE (by omega) s).both (h.block hS (by omega))).both
      (stmtOpt_avoids branch)).rebuild _
  case whileLoop guard invariants decreases body =>
    have small : Expr.sizeList invariants ≤ n ∧ Expr.sizeList decreases ≤ n := by omega
    exact ((((exprOpt_uncut hE (by omega) s).both (clause_avoids (each_uncut hE small.1))).both
      (clause_avoids (each_uncut hE small.2))).both (h.block hS (by omega))).rebuild _
  case forLoop index start stop ascending invariants body =>
    have small : Expr.sizeList invariants ≤ n := by omega
    exact ((((hE start (by omega) s).both (exprOpt_uncut hE (by omega))).both
      (clause_avoids (each_uncut hE small))).both (h.block hS (by omega))).rebuild _
  case breakLoop | continueLoop => exact .go _
  case block b => exact (h.block hS small s).rebuild _
  case matchOn source cases =>
    exact ((hE source (by omega) s).both (h.matchCases hS (by omega))).rebuild _

end

/-- A statement is walked to its end at the depth of its size. -/
theorem stmt {depth : Nat} {st : Stmt} (small : st.size ≤ depth) (s : σ) :
    (v.stmt depth st s).Uncut := by
  induction depth generalizing st s with
  | zero =>
    have := st.size_pos
    omega
  | succ depth ih =>
    refine .gated _ (within_avoids (h.around (k := .stmt) fun st' smaller s => ?_) s)
    have fits : st'.size ≤ depth + 1 := Nat.le_trans smaller small
    rw [Stmt.size_eq] at fits
    exact (h.stmtKind (fun st hst s => ih hst s) (fun e he s => h.expr he s) (by omega) s).rebuild _

section

variable {depth : Nat}

theorem blockOpt {b : Option Block} (small : b.elim 0 Block.size ≤ depth) (s : σ) :
    (v.blockOpt (v.stmt depth) b s).Uncut := by
  cases b with
  | none => exact .go _
  | some b => exact (h.block (fun _ hst s => h.stmt hst s) small s).rebuild _

/-- A member is walked to its end at the depth of its size. -/
theorem memberKind {m : Member} (small : m.size ≤ depth) (s : σ) :
    (v.memberKind depth m s).Uncut := by
  cases m with
  | field f => exact (h.around (k := .field) (fun _ _ _ => .go _) s).rebuild _
  | method m =>
    refine (h.around (k := .method) (fun m' smaller s => ?_) s).rebuild _
    have fits : (Member.method m').size ≤ depth := Nat.le_trans smaller small
    rw [Member.size] at fits
    exact ((contract_uncut (fun _ he s => h.expr he s) (by omega) s).both
      (h.blockOpt (by omega))).rebuild _
  | function f =>
    refine (h.around (k := .function) (fun f' smaller s => ?_) s).rebuild _
    have fits : (Member.function f').size ≤ depth := Nat.le_trans smaller small
    rw [Member.size] at fits
    exact ((contract_uncut (fun _ he s => h.expr he s) (by omega) s).both
      (exprOpt_uncut (fun _ he s => h.expr he s) (by omega))).rebuild _

/-- So are the members of a declaration one after another. -/
theorem eachMember {ms : List Member} (small : Member.sizeList ms ≤ depth) (s : σ) :
    (v.eachMember depth ms s).Uncut := by
  induction ms generalizing s with
  | nil => exact .go _
  | cons m ms ih =>
    rw [Member.sizeList] at small
    have first : (v.member depth m s).Uncut :=
      .gated _ (within_avoids (h.memberKind (by omega)) s)
    unfold Revision.eachMember
    cases hm : v.member depth m s with
    | go r => exact following_uncut (ih (by omega)) _
    | halt _ => exact .halt _
    | cut r => exact absurd (hm ▸ rfl) first

theorem members {ms : List Member} (small : Member.sizeList ms ≤ depth) (s : σ) :
    (v.members depth ms s).Uncut :=
  enter_uncut fun ms' descends s => gated_halt_uncut _
    (h.eachMember (Nat.le_trans (h.reviseMembers ms _ ms' descends) small) s)

theorem decl {d : Decl} (small : d.size ≤ depth) (s : σ) : (v.decl depth d s).Uncut := by
  cases d with
  | «class» c =>
    refine Avoids.rebuild (.gated _ (h.around (k := .class) (fun c' smaller s => ?_) s)) _
    exact (h.members (Nat.le_trans smaller small) s).rebuild _
  | datatype d =>
    refine Avoids.rebuild (.gated _ (h.around (k := .datatype) (fun d' smaller s => ?_) s)) _
    exact (h.members (Nat.le_trans smaller small) s).rebuild _

theorem decls {ds : List Decl} (small : Decl.sizeList ds ≤ depth) (s : σ) :
    (v.decls depth ds s).Uncut := by
  induction ds generalizing s with
  | nil => exact .go _
  | cons d ds ih =>
    rw [Decl.sizeList] at small
    exact ((h.decl (by omega) s).both (ih (by omega))).rebuild _

/-- A modest revision that is given the size of a module as depth is not cut off in it. -/
theorem module {m : Module} (small : m.size ≤ depth) (s : σ) : (v.module depth m s).Uncut :=
  h.around (k := .module) (fun _ smaller s =>
    (h.decls (Nat.le_trans smaller small) s).rebuild _) s

end

end Revision.Modest

end Mutation
