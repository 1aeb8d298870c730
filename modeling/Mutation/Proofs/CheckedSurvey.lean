import Mutation.Proofs.Checked
import Mutation.Proofs.Parts
import Mutation.Proofs.Size

/-!
# Reading walks that can break off

A reading walk goes through lists in order and never by position; what may break off are its
hooks. Such a walk carries a computation as its state, and ends when a hook breaks off. Where the
hooks do not break off and do what the hooks of a survey do, the walk comes to what the survey
comes to (`Survey.Carries.module`).
-/

namespace Mutation

/-- The answer of a hook that ends the walk when it breaks off. -/
def Checked.hook {σ : Type} (answer : Visit) (r : Checked σ) : Visit × Checked σ :=
  match r with
  | .ok s => (answer, .ok s)
  | .error b => (.stop, .error b)

/-- The size of a statement or an expression; other nodes are not measured. -/
def Node.size : Node → Nat
  | .stmt s => s.size
  | .expr e => e.size
  | _ => 0

/-- The hooks of a walk do not break off at nodes and lists that are no larger than `bound`, and do
there what the hooks of a survey do. -/
structure Survey.Carries {σ : Type} (w : Survey (Checked σ)) (v : Survey σ) (bound : Nat) :
    Prop where
  worth : ∀ s span, w.worth (.ok s) span = v.worth s span
  specifications : ∀ s, w.specifications (.ok s) = v.specifications s
  ghost : ∀ s, w.ghost (.ok s) = v.ghost s
  enter : ∀ context s, w.enter context (.ok s) = .ok (v.enter context s)
  exit : ∀ context s, w.exit context (.ok s) = .ok (v.exit context s)
  visit : ∀ node s, node.size ≤ bound →
    w.visit node (.ok s) = ((v.visit node s).1, .ok (v.visit node s).2)
  leave : ∀ node s, w.leave node (.ok s) = .ok (v.leave node s)
  target : ∀ e s, e.size ≤ bound → w.target e (.ok s) = ((v.target e s).1, .ok (v.target e s).2)
  stmtList : ∀ list s, Stmt.sizeList list ≤ bound →
    w.stmtList list (.ok s) = ((v.stmtList list s).1, .ok (v.stmtList list s).2)
  memberList : ∀ list s, Member.sizeList list ≤ bound →
    w.memberList list (.ok s) = ((v.memberList list s).1, .ok (v.memberList list s).2)

section

variable {σ : Type}

theorem Flow.value_map {τ : Type} (f : σ → τ) (r : Flow σ) : (r.map f).value = f r.value := by
  cases r <;> rfl

/-- A walk that has not broken off goes on as the plain one does. -/
theorem Flow.next_map_ok {r : Flow σ} {k : Checked σ → Flow (Checked σ)} {k' : σ → Flow σ}
    (h : ∀ s, k (.ok s) = (k' s).map .ok) : (r.map .ok).next k = (r.next k').map .ok := by
  cases r with
  | go s => exact h s
  | halt s => rfl

/-- A reply lets both walks in, or neither. -/
theorem Visit.enter_ok {answer : Visit × σ} {k : Checked σ → Flow (Checked σ)} {k' : σ → Flow σ}
    (h : ∀ s, k (.ok s) = (k' s).map .ok) :
    Visit.enter (answer.1, .ok answer.2) k = (Visit.enter answer k').map .ok := by
  obtain ⟨answer, s⟩ := answer
  cases answer with
  | proceed => exact h s
  | skip | stop => rfl

namespace Survey.Carries

variable {w : Survey (Checked σ)} {v : Survey σ} {bound : Nat} (hw : w.Carries v bound)

include hw

/-- A node that is small enough is visited and left without breaking off. -/
theorem around {node : Node} (small : node.size ≤ bound) {k : Checked σ → Flow (Checked σ)}
    {k' : σ → Flow σ} (h : ∀ s, k (.ok s) = (k' s).map .ok) (s : σ) :
    w.around node k (.ok s) = (v.around node k' s).map .ok := by
  rw [Survey.around, hw.visit node s small, Visit.enter_ok h, Survey.around]
  exact Flow.next_map_ok fun s => by rw [hw.leave]; rfl

/-- Entering and leaving a context breaks nothing off. -/
theorem within {context : Context} {k : Checked σ → Flow (Checked σ)} {k' : σ → Flow σ}
    (h : ∀ s, k (.ok s) = (k' s).map .ok) (s : σ) :
    w.within context k (.ok s) = (v.within context k' s).map .ok := by
  unfold Survey.within
  split
  · exact h s
  · rw [hw.enter, h]
    exact Flow.next_map_ok fun s => by rw [hw.exit]; rfl

/-- Nor does passing over a specification. -/
theorem specified {k : Checked σ → Flow (Checked σ)} {k' : σ → Flow σ}
    (h : ∀ s, k (.ok s) = (k' s).map .ok) (s : σ) :
    w.specified k (.ok s) = (v.specified k' s).map .ok := by
  unfold Survey.specified
  rw [hw.specifications]
  split
  · exact hw.within h s
  · rfl

/-- Both walks admit the same kinds of code. -/
theorem admits (context : Context) (s : σ) :
    w.admits context (.ok s) = v.admits context s := by
  cases context with
  | executable => rfl
  | specification => exact hw.specifications s
  | ghost => exact hw.ghost s

omit hw in
/-- A list of expressions is walked without breaking off when each of them is. -/
theorem exprs_of {es : List Expr} (h : ∀ e ∈ es, ∀ s, w.expr e (.ok s) = (v.expr e s).map .ok)
    (s : σ) : w.exprs es (.ok s) = (v.exprs es s).map .ok := by
  induction es generalizing s with
  | nil => rfl
  | cons e es ih =>
    obtain ⟨he, hes⟩ := List.forall_mem_cons.1 h
    rw [Survey.exprs, he, Survey.exprs]
    exact Flow.next_map_ok fun s => ih hes s

/-- A small expression: by induction over its parts, which are smaller. -/
theorem expr {e : Expr} (small : e.size ≤ bound) (s : σ) :
    w.expr e (.ok s) = (v.expr e s).map .ok := by
  induction e using Expr.induct generalizing s with
  | step e ih =>
    have parts : ∀ c ∈ e.kind.parts, ∀ s, w.expr c (.ok s) = (v.expr c s).map .ok :=
      fun c hc => ih c hc (Nat.le_trans (Nat.le_of_lt (Expr.size_lt_of_part hc)) small)
    obtain ⟨kind, span, ty⟩ := e
    rw [Survey.expr, Survey.expr, hw.worth]
    split
    · refine hw.around (show (Node.expr ⟨kind, span, ty⟩).size ≤ bound from small) (fun s => ?_) s
      by_cases old : ∃ x, kind = .old x
      · obtain ⟨x, rfl⟩ := old
        exact hw.specified (parts x List.mem_cons_self) s
      · rw [w.exprKind_eq fun x hx => old ⟨x, hx⟩, v.exprKind_eq fun x hx => old ⟨x, hx⟩]
        exact exprs_of parts s
    · rfl

/-- A list of small expressions. -/
theorem exprs {es : List Expr} (small : Expr.sizeList es ≤ bound) (s : σ) :
    w.exprs es (.ok s) = (v.exprs es s).map .ok :=
  exprs_of (fun _ he => hw.expr (Nat.le_trans (Expr.size_le_of_mem he) small)) s

/-- A small expression that may be absent. -/
theorem exprOpt {e : Option Expr} (small : Expr.sizeOpt e ≤ bound) (s : σ) :
    w.exprOpt e (.ok s) = (v.exprOpt e s).map .ok := by
  cases e with
  | none => rfl
  | some e => exact hw.expr small s

/-- A clause of small expressions. -/
theorem clause {es : List Expr} (small : Expr.sizeList es ≤ bound) (s : σ) :
    w.clause es (.ok s) = (v.clause es s).map .ok := by
  unfold Survey.clause
  split
  · rfl
  · exact hw.specified (hw.exprs small) s

/-- Clauses in turn. -/
theorem clauses {cs : List (List Expr)} (small : ∀ c ∈ cs, Expr.sizeList c ≤ bound) (s : σ) :
    w.clauses cs (.ok s) = (v.clauses cs s).map .ok := by
  induction cs generalizing s with
  | nil => rfl
  | cons c cs ih =>
    obtain ⟨hc, hcs⟩ := List.forall_mem_cons.1 small
    rw [Survey.clauses, hw.clause hc, Survey.clauses]
    exact Flow.next_map_ok fun s => ih hcs s

/-- Targets in turn, each after its hook. -/
theorem targets {es : List Expr} (small : Expr.sizeList es ≤ bound) (s : σ) :
    w.targets es (.ok s) = (v.targets es s).map .ok := by
  induction es generalizing s with
  | nil => rfl
  | cons e es ih =>
    rw [Expr.sizeList_cons] at small
    rw [Survey.targets, hw.target e s (by omega), Visit.enter_ok fun s => hw.expr (by omega) s,
      Survey.targets]
    exact Flow.next_map_ok fun s => ih (by omega) s

/-- Targets, then values. -/
theorem update {u : Update} (small : u.size ≤ bound) (s : σ) :
    w.update u (.ok s) = (v.update u s).map .ok := by
  unfold Update.size at small
  rw [Survey.update, hw.targets (by omega), Survey.update]
  exact Flow.next_map_ok fun s => hw.exprs (by omega) s

/-- The values of a declaration. -/
theorem varDecl {d : VarDecl} (small : d.size ≤ bound) (s : σ) :
    w.varDecl d (.ok s) = (v.varDecl d s).map .ok := by
  obtain ⟨locals, init⟩ := d
  cases init with
  | none => rfl
  | some init =>
    simp only [VarDecl.size, Update.size] at small
    exact hw.exprs (by omega) s

omit hw

mutual
/-- A small statement: by recursion over its lists and its branch. -/
theorem stmt (hw : w.Carries v bound) : (st : Stmt) → st.size ≤ bound → ∀ s : σ,
    w.stmt st (.ok s) = (v.stmt st s).map .ok
  | ⟨kind, span, ghost⟩, small, s => by
    have inside : kind.size ≤ bound := by
      rw [Stmt.size] at small
      omega
    rw [Survey.stmt, Survey.stmt, hw.admits, hw.worth]
    have node : (Node.stmt ⟨kind, span, ghost⟩).size ≤ bound := small
    split
    · exact hw.within (hw.around node fun s => hw.stmtKind kind inside s) s
    · rfl

/-- One case per form, whose parts are no larger than the form. -/
theorem stmtKind (hw : w.Carries v bound) : (kind : StmtKind) → kind.size ≤ bound → ∀ s : σ,
    w.stmtKind kind (.ok s) = (v.stmtKind kind s).map .ok
  | .varDecl d, small, s => hw.varDecl small s
  | .update u, small, s => hw.update small s
  | .expr e, small, s => hw.expr small s
  | .ret values, small, s => hw.exprs small s
  | .ifElse guard thenBranch elseBranch, small, s => by
    rw [StmtKind.size] at small
    rw [Survey.stmtKind, Survey.stmtKind, hw.exprOpt (by omega), Flow.next_map_ok
      fun s => hw.block thenBranch (by omega) s]
    exact Flow.next_map_ok fun s => hw.stmtOpt elseBranch (by omega) s
  | .whileLoop guard invariants decreases body, small, s => by
    rw [StmtKind.size] at small
    have clauses : ∀ c ∈ [invariants, decreases], Expr.sizeList c ≤ bound := by
      simp only [List.forall_mem_cons]
      exact ⟨by omega, by omega, by simp⟩
    rw [Survey.stmtKind, Survey.stmtKind, hw.exprOpt (by omega),
      Flow.next_map_ok (hw.clauses clauses)]
    exact Flow.next_map_ok fun s => hw.block body (by omega) s
  | .forLoop index start stop ascending invariants body, small, s => by
    rw [StmtKind.size] at small
    rw [Survey.stmtKind, Survey.stmtKind, hw.expr (by omega),
      Flow.next_map_ok (hw.exprOpt (by omega)), Flow.next_map_ok (hw.clause (by omega))]
    exact Flow.next_map_ok fun s => hw.block body (by omega) s
  | .breakLoop, _, s => rfl
  | .continueLoop, _, s => rfl
  | .block b, small, s => hw.block b small s
  | .matchOn source cases, small, s => by
    rw [StmtKind.size] at small
    rw [Survey.stmtKind, Survey.stmtKind, hw.expr (by omega)]
    exact Flow.next_map_ok fun s => hw.matchCases cases (by omega) s
  | .assert e, small, s => hw.expr small s
  | .assume e, small, s => hw.expr small s
  | .print args, small, s => hw.exprs small s

/-- A small block, with the hook on its list. -/
theorem block (hw : w.Carries v bound) : (b : Block) → b.size ≤ bound → ∀ s : σ,
    w.block b (.ok s) = (v.block b s).map .ok
  | ⟨list, span⟩, small, s => by
    rw [Block.size] at small
    rw [Survey.block, Survey.block, hw.worth]
    split
    · refine hw.around (Nat.zero_le _) (fun s => ?_) s
      rw [hw.stmtList list s small]
      exact Visit.enter_ok fun s => hw.elements list small s
    · rfl

/-- The statements of a small list. -/
theorem elements (hw : w.Carries v bound) : (list : List Stmt) →
    Stmt.sizeList list ≤ bound → ∀ s : σ,
    w.elements list (.ok s) = (v.elements list s).map .ok
  | [], _, s => rfl
  | st :: list, small, s => by
    rw [Stmt.sizeList] at small
    rw [Survey.elements, Survey.elements, hw.stmt st (by omega)]
    exact Flow.next_map_ok fun s => hw.elements list (by omega) s

/-- A small branch that may be absent. -/
theorem stmtOpt (hw : w.Carries v bound) : (st : Option Stmt) → Stmt.sizeOpt st ≤ bound → ∀ s : σ,
    w.stmtOpt st (.ok s) = (v.stmtOpt st s).map .ok
  | none, _, _ => rfl
  | some st, small, s => hw.stmt st small s

/-- The cases of a small match. -/
theorem matchCases (hw : w.Carries v bound) : (cases : List MatchCase) →
    MatchCase.sizeList cases ≤ bound → ∀ s : σ,
    w.matchCases cases (.ok s) = (v.matchCases cases s).map .ok
  | [], _, s => rfl
  | ⟨pattern, body, span⟩ :: cases, small, s => by
    rw [MatchCase.sizeList] at small
    have inside (s : σ) : w.elements body (.ok s) = (v.elements body s).map .ok :=
      hw.elements body (by omega) s
    have rest (s : σ) : w.matchCases cases (.ok s) = (v.matchCases cases s).map .ok :=
      hw.matchCases cases (by omega) s
    rw [Survey.matchCases, Survey.matchCases, hw.worth]
    split
    · rw [hw.around (Nat.zero_le _) fun s => by
        rw [hw.stmtList body s (by omega), Visit.enter_ok inside]]
      exact Flow.next_map_ok rest
    · exact Flow.next_map_ok (r := .go s) rest
end

include hw

/-- A small body that may be absent. -/
theorem blockOpt {b : Option Block} (small : b.elim 0 Block.size ≤ bound) (s : σ) :
    w.blockOpt b (.ok s) = (v.blockOpt b s).map .ok := by
  cases b with
  | none => rfl
  | some b => exact hw.block b small s

/-- The clauses of a contract. -/
theorem contract {c : Contract} (small : c.size ≤ bound) (s : σ) :
    w.clauses c.clauses (.ok s) = (v.clauses c.clauses s).map .ok := by
  unfold Contract.size at small
  refine hw.clauses ?_ s
  simp only [Contract.clauses, List.forall_mem_cons]
  exact ⟨by omega, by omega, by omega, by omega, by simp⟩

/-- One case per sort of member. -/
theorem memberKind {m : Member} (small : m.size ≤ bound) (s : σ) :
    w.memberKind m (.ok s) = (v.memberKind m s).map .ok := by
  cases m with
  | field f => exact hw.around (Nat.zero_le _) (fun s => rfl) s
  | method m =>
    rw [Member.size] at small
    refine hw.around (Nat.zero_le _) (fun s => ?_) s
    rw [hw.contract (by omega)]
    exact Flow.next_map_ok fun s => hw.blockOpt (by omega) s
  | function f =>
    rw [Member.size] at small
    refine hw.around (Nat.zero_le _) (fun s => ?_) s
    rw [hw.contract (by omega)]
    exact Flow.next_map_ok fun s => hw.exprOpt (by omega) s

/-- A small member. -/
theorem member {m : Member} (small : m.size ≤ bound) (s : σ) :
    w.member m (.ok s) = (v.member m s).map .ok := by
  rw [Survey.member, Survey.member, hw.admits, hw.worth]
  split
  · exact hw.within (hw.memberKind small) s
  · rfl

/-- Small members in turn. -/
theorem eachMember {ms : List Member} (small : Member.sizeList ms ≤ bound) (s : σ) :
    w.eachMember ms (.ok s) = (v.eachMember ms s).map .ok := by
  induction ms generalizing s with
  | nil => rfl
  | cons m ms ih =>
    rw [Member.sizeList] at small
    rw [Survey.eachMember, Survey.eachMember, hw.member (by omega)]
    exact Flow.next_map_ok fun s => ih (by omega) s

/-- A list of small members, after its hook. -/
theorem members {ms : List Member} (small : Member.sizeList ms ≤ bound) (s : σ) :
    w.members ms (.ok s) = (v.members ms s).map .ok := by
  rw [Survey.members, hw.memberList ms s small]
  exact Visit.enter_ok fun s => hw.eachMember small s

/-- A declaration with small members. -/
theorem decl {d : Decl} (small : Member.sizeList d.members ≤ bound) (s : σ) :
    w.decl d (.ok s) = (v.decl d s).map .ok := by
  cases d with
  | «class» c =>
    rw [Survey.decl, Survey.decl, hw.worth]
    split
    · exact hw.around (Nat.zero_le _) (hw.members small) s
    · rfl
  | datatype d =>
    rw [Survey.decl, Survey.decl, hw.worth]
    split
    · exact hw.around (Nat.zero_le _) (hw.members small) s
    · rfl

/-- The declarations of a module in turn. -/
theorem decls {ds : List Decl} (small : ∀ d ∈ ds, Member.sizeList d.members ≤ bound) (s : σ) :
    w.decls ds (.ok s) = (v.decls ds s).map .ok := by
  induction ds generalizing s with
  | nil => rfl
  | cons d ds ih =>
    obtain ⟨hd, hds⟩ := List.forall_mem_cons.1 small
    rw [Survey.decls, Survey.decls, hw.decl hd]
    exact Flow.next_map_ok fun s => ih hds s

/-- A walk whose hooks do not break off comes to what the survey comes to. -/
theorem module {m : Module} (small : m.size ≤ bound) (s : σ) :
    w.module m (.ok s) = (v.module m s).map .ok :=
  hw.around (Nat.zero_le _)
    (hw.decls fun _ hd => Nat.le_trans (Module.members_size_le hd) small) s

end Survey.Carries

end

end Mutation
