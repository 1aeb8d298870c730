import Mutation.Proofs.Nesting
import Mutation.Proofs.Slot

/-!
# One edit in a tree

`Carries` says how a piece of a tree holds another directly, and what becomes of it when only
that other piece is exchanged: a chain and an assignment are brought in step, everything else
stays. `Exchanged` is an exchange of what is at a place, at some depth; filling a slot of the
executable code is one (`Module.exchanged`). `Edited` is an exchange for what an operator answers
at the place. A property of trees that every operator keeps at its place and every `Carries` keeps
around it is kept by every search, so a proof about searches is an induction on `Exchanged`.
-/

namespace Mutation

/-- What an operator answers, apart from the node it leaves. -/
inductive Answer (α : Type) where
  /-- The node is not the target. -/
  | pass
  | done (value : α)
  | refused (reason : Refusal)

namespace Answer

variable {α β γ : Type}

/-- Changes what is done. -/
def map (f : α → β) : Answer α → Answer β
  | .pass => .pass
  | .done a => .done (f a)
  | .refused reason => .refused reason

/-- The node is not passed over. -/
def answers : Answer α → Bool
  | .pass => false
  | _ => true

@[simp] theorem map_pass (f : α → β) : (pass : Answer α).map f = .pass := rfl

@[simp] theorem map_done (f : α → β) (a : α) : (done a).map f = .done (f a) := rfl

@[simp] theorem map_refused (f : α → β) (reason : Refusal) :
    (refused reason : Answer α).map f = .refused reason := rfl

@[simp] theorem map_map (f : α → β) (g : β → γ) (r : Answer α) :
    (r.map f).map g = r.map fun a => g (f a) := by
  cases r <;> rfl

@[simp] theorem answers_pass : (pass : Answer α).answers = false := rfl

@[simp] theorem answers_done (a : α) : (done a).answers = true := rfl

@[simp] theorem answers_refused (reason : Refusal) :
    (refused reason : Answer α).answers = true := rfl

@[simp] theorem answers_map (f : α → β) (r : Answer α) : (r.map f).answers = r.answers := by
  cases r <;> rfl

end Answer

namespace Outcome

variable {ν α β γ : Type}

/-- The answer, with what is done changed. -/
def answer (f : α → β) : Outcome ν α → Answer β
  | .pass _ => .pass
  | .done a => .done (f a)
  | .refused reason _ => .refused reason

@[simp] theorem answer_pass (f : α → β) (left : ν) : (pass left).answer f = .pass := rfl

@[simp] theorem answer_done (f : α → β) (a : α) : (done a : Outcome ν α).answer f = .done (f a) :=
  rfl

@[simp] theorem answer_refused (f : α → β) (reason : Refusal) (left : ν) :
    (refused reason left).answer f = .refused reason := rfl

/-- Mapping an answer is mapping what the outcome makes of its edit. -/
@[simp] theorem map_answer (f : α → β) (g : β → γ) (r : Outcome ν α) :
    (r.answer f).map g = r.answer fun a => g (f a) := by
  cases r <;> rfl

/-- The node is not passed over. -/
def answers : Outcome ν α → Bool
  | .pass _ => false
  | _ => true

@[simp] theorem answers_pass (left : ν) : (pass left : Outcome ν α).answers = false := rfl

@[simp] theorem answers_done (a : α) : (done a : Outcome ν α).answers = true := rfl

@[simp] theorem answers_refused (reason : Refusal) (left : ν) :
    (refused reason left : Outcome ν α).answers = true := rfl

/-- Whether an operator answers does not depend on what is made of its edit. -/
@[simp] theorem answers_answer (f : α → β) (r : Outcome ν α) :
    (r.answer f).answers = r.answers := by
  cases r <;> rfl

/-- An answer is an edit exactly when the outcome is one. -/
theorem answer_eq_done_iff {f : α → β} {r : Outcome ν α} {b : β} :
    r.answer f = .done b ↔ ∃ a, r = .done a ∧ f a = b := by
  cases r <;> simp [answer]

/-- The same, where nothing is made of the edit. -/
theorem answer_id_eq_done_iff {r : Outcome ν α} {a : α} : r.answer id = .done a ↔ r = .done a := by
  rw [answer_eq_done_iff]
  simp

end Outcome

/-- A piece of a tree. -/
inductive Piece where
  | expr (expr : Expr)
  | stmt (stmt : Stmt)
  | stmts (list : List Stmt)
  | member (member : Member)
  | members (list : List Member)
  | decl (decl : Decl)
  | module (module : Module)

/-- The shape with the conjunction of a chain in step. -/
def ExprKind.resync : ExprKind → ExprKind
  | .chain c => .chain c.rebuild
  | kind => kind

/-- A chain that is made coherent again keeps its operands. -/
@[simp] theorem ExprKind.parts_resync (kind : ExprKind) : kind.resync.parts = kind.parts := by
  cases kind <;> rfl

/-- Other parts make no form a chain that was none. -/
theorem ExprKind.withParts_ne_chain {kind : ExprKind} (chain : ∀ c, kind ≠ .chain c)
    (es : List Expr) (c : Chain) : kind.withParts es ≠ .chain c := by
  cases kind with
  | chain c => exact absurd rfl (chain c)
  | _ => simp [ExprKind.withParts]

/-- Only a chain has anything to be made coherent. -/
theorem ExprKind.resync_withParts {kind : ExprKind} (chain : ∀ c, kind ≠ .chain c)
    (es : List Expr) : (kind.withParts es).resync = kind.withParts es := by
  cases kind with
  | chain c => exact absurd rfl (chain c)
  | _ => rfl

/-- `Carries spans c c' x x'`: the piece `x` holds `c` directly, inside nodes of `x` with these
spans, and is `x'` with `c'` in its place. -/
inductive Carries : List Span → Piece → Piece → Piece → Piece → Prop
  | part {kind span ty pre e e' post} (plain : ∀ x, kind ≠ .old x)
    (h : kind.parts = pre ++ e :: post) :
    Carries [span] (.expr e) (.expr e') (.expr ⟨kind, span, ty⟩)
      (.expr ⟨(kind.withParts (pre ++ e' :: post)).resync, span, ty⟩)
  /-- Only a target that is an index expression is entered. -/
  | target {pre e e' post values resolved span ghost} (index : e.isIndex) :
    Carries [span] (.expr e) (.expr e') (.stmt ⟨.update ⟨pre ++ e :: post, values, resolved⟩, span, ghost⟩)
      (.stmt ⟨.update (.make (pre ++ e' :: post) values), span, ghost⟩)
  | value {targets pre e e' post resolved span ghost} :
    Carries [span] (.expr e) (.expr e')
      (.stmt ⟨.update ⟨targets, pre ++ e :: post, resolved⟩, span, ghost⟩)
      (.stmt ⟨.update (.make targets (pre ++ e' :: post)), span, ghost⟩)
  | init {locals targets pre e e' post resolved span ghost} :
    Carries [span] (.expr e) (.expr e')
      (.stmt ⟨.varDecl ⟨locals, some ⟨targets, pre ++ e :: post, resolved⟩⟩, span, ghost⟩)
      (.stmt ⟨.varDecl ⟨locals, some (.make targets (pre ++ e' :: post))⟩, span, ghost⟩)
  | expr {e e' span ghost} :
    Carries [span] (.expr e) (.expr e') (.stmt ⟨.expr e, span, ghost⟩) (.stmt ⟨.expr e', span, ghost⟩)
  | ret {pre e e' post span ghost} :
    Carries [span] (.expr e) (.expr e') (.stmt ⟨.ret (pre ++ e :: post), span, ghost⟩)
      (.stmt ⟨.ret (pre ++ e' :: post), span, ghost⟩)
  | ifGuard {e e' body next span ghost} :
    Carries [span] (.expr e) (.expr e') (.stmt ⟨.ifElse (some e) body next, span, ghost⟩)
      (.stmt ⟨.ifElse (some e') body next, span, ghost⟩)
  | thenBranch {guard list list' area next span ghost} :
    Carries [span, area] (.stmts list) (.stmts list') (.stmt ⟨.ifElse guard ⟨list, area⟩ next, span, ghost⟩)
      (.stmt ⟨.ifElse guard ⟨list', area⟩ next, span, ghost⟩)
  | elseBranch {guard body s s' span ghost} :
    Carries [span] (.stmt s) (.stmt s') (.stmt ⟨.ifElse guard body (some s), span, ghost⟩)
      (.stmt ⟨.ifElse guard body (some s'), span, ghost⟩)
  | whileGuard {e e' invariants decreases body span ghost} :
    Carries [span] (.expr e) (.expr e')
      (.stmt ⟨.whileLoop (some e) invariants decreases body, span, ghost⟩)
      (.stmt ⟨.whileLoop (some e') invariants decreases body, span, ghost⟩)
  | whileBody {guard invariants decreases list list' area span ghost} :
    Carries [span, area] (.stmts list) (.stmts list')
      (.stmt ⟨.whileLoop guard invariants decreases ⟨list, area⟩, span, ghost⟩)
      (.stmt ⟨.whileLoop guard invariants decreases ⟨list', area⟩, span, ghost⟩)
  | forStart {index e e' stop up invariants body span ghost} :
    Carries [span] (.expr e) (.expr e') (.stmt ⟨.forLoop index e stop up invariants body, span, ghost⟩)
      (.stmt ⟨.forLoop index e' stop up invariants body, span, ghost⟩)
  | forStop {index start e e' up invariants body span ghost} :
    Carries [span] (.expr e) (.expr e')
      (.stmt ⟨.forLoop index start (some e) up invariants body, span, ghost⟩)
      (.stmt ⟨.forLoop index start (some e') up invariants body, span, ghost⟩)
  | forBody {index start stop up invariants list list' area span ghost} :
    Carries [span, area] (.stmts list) (.stmts list')
      (.stmt ⟨.forLoop index start stop up invariants ⟨list, area⟩, span, ghost⟩)
      (.stmt ⟨.forLoop index start stop up invariants ⟨list', area⟩, span, ghost⟩)
  | block {list list' area span ghost} :
    Carries [span, area] (.stmts list) (.stmts list') (.stmt ⟨.block ⟨list, area⟩, span, ghost⟩)
      (.stmt ⟨.block ⟨list', area⟩, span, ghost⟩)
  | matchSource {e e' cases span ghost} :
    Carries [span] (.expr e) (.expr e') (.stmt ⟨.matchOn e cases, span, ghost⟩)
      (.stmt ⟨.matchOn e' cases, span, ghost⟩)
  | caseBody {source pre pattern list list' area post span ghost} :
    Carries [span, area] (.stmts list) (.stmts list')
      (.stmt ⟨.matchOn source (pre ++ ⟨pattern, list, area⟩ :: post), span, ghost⟩)
      (.stmt ⟨.matchOn source (pre ++ ⟨pattern, list', area⟩ :: post), span, ghost⟩)
  | assert {e e' span ghost} :
    Carries [span] (.expr e) (.expr e') (.stmt ⟨.assert e, span, ghost⟩)
      (.stmt ⟨.assert e', span, ghost⟩)
  | assume {e e' span ghost} :
    Carries [span] (.expr e) (.expr e') (.stmt ⟨.assume e, span, ghost⟩)
      (.stmt ⟨.assume e', span, ghost⟩)
  | print {pre e e' post span ghost} :
    Carries [span] (.expr e) (.expr e') (.stmt ⟨.print (pre ++ e :: post), span, ghost⟩)
      (.stmt ⟨.print (pre ++ e' :: post), span, ghost⟩)
  | element {pre s s' post} :
    Carries [] (.stmt s) (.stmt s') (.stmts (pre ++ s :: post)) (.stmts (pre ++ s' :: post))
  | methodBody {m : Method} {list list' area} (h : m.body = some ⟨list, area⟩) :
    Carries [m.span, area] (.stmts list) (.stmts list') (.member (.method m))
      (.member (.method { m with body := some ⟨list', area⟩ }))
  | functionBody {f : Function} {e e'} (h : f.body = some e) :
    Carries [f.span] (.expr e) (.expr e') (.member (.function f))
      (.member (.function { f with body := some e' }))
  | member {pre m m' post} :
    Carries [] (.member m) (.member m') (.members (pre ++ m :: post)) (.members (pre ++ m' :: post))
  | class {c : Class} {list'} :
    Carries [c.span] (.members c.members) (.members list') (.decl (.class c))
      (.decl (.class { c with members := list' }))
  | datatype {d : Datatype} {list'} :
    Carries [d.span] (.members d.members) (.members list') (.decl (.datatype d))
      (.decl (.datatype { d with members := list' }))
  | decl {name pre d d' post} :
    Carries [] (.decl d) (.decl d') (.module ⟨name, pre ++ d :: post⟩)
      (.module ⟨name, pre ++ d' :: post⟩)

/-- `Exchanged p new spans x x'`: the piece `x` holds the place `p` inside nodes with these spans,
outermost first and that of the place last, and is `x'` with `new` at the place. -/
inductive Exchanged : (p : Place) → p.Content → List Span → Piece → Piece → Prop
  | members {list list'} : Exchanged (.members list) list' [] (.members list) (.members list')
  | stmts {list list'} : Exchanged (.stmts list) list' [] (.stmts list) (.stmts list')
  | element {pre s post} {new : List Stmt} :
    Exchanged (.element s) new [s.span] (.stmts (pre ++ s :: post)) (.stmts (pre ++ (new ++ post)))
  | expr {e e'} : Exchanged (.expr e) e' [e.span] (.expr e) (.expr e')
  | inside {p new spans inner c c' x x'} (hc : Carries spans c c' x x')
    (h : Exchanged p new inner c c') : Exchanged p new (spans ++ inner) x x'

/-- What an operator answers at a place, with the span it reports. -/
def Operator.onPlace (op : Operator) (site : Site) : Place → Answer Span
  | .members list => (op.onMembers site list).answer fun (_, span) => span
  | .stmts list => (op.onStmts site list).1.answer fun (_, span) => span
  | .element s => (op.onStmt site s).answer fun _ => Search.landing site.target s.span
  | .expr e => (op.onExpr site e).answer fun _ => e.span

/-- What an operator puts at a place, with the span it reports. -/
def Operator.answer (op : Operator) (site : Site) : (p : Place) → Answer (p.Content × Span)
  | .members list => (op.onMembers site list).answer id
  | .stmts list => (op.onStmts site list).1.answer id
  | .element s =>
    (op.onStmt site s).answer fun change =>
      (change.edit.result s, Search.landing site.target s.span)
  | .expr e => (op.onExpr site e).answer fun new => (new, e.span)

/-- What an operator puts in a place is the second half of what it answers there. -/
theorem Operator.onPlace_eq (op : Operator) (site : Site) (p : Place) :
    op.onPlace site p = (op.answer site p).map Prod.snd := by
  cases p <;> simp only [Operator.onPlace, Operator.answer, Outcome.map_answer, id]

/-- An operator makes its change at the place `p`, inside nodes with these spans. -/
def Edited (op : Operator) (site : Site) (p : Place) (spans : List Span) (x x' : Piece) : Prop :=
  ∃ new span, op.answer site p = .done (new, span) ∧ Exchanged p new spans x x'

namespace Slot

variable {α β : Type}

/-- Filling the slot of `a`, inside nodes with these spans, exchanges what is at its place,
provided that it is in executable code. -/
def Exchanges (spans : List Span) (piece : α → Piece) (a : α) (x : Slot α) : Prop :=
  x.path.within .executable = true →
    ∀ new, Exchanged x.place new (spans ++ x.path.spans) (piece a) (piece (x.fill new))

/-- A slot of a part is a slot of the whole when the whole carries the part's changes. -/
theorem Exchanges.carry {spans : List Span} {piece : α → Piece} {whole : β → Piece} {a : α} {b : β}
    {f : α → β} {x : Slot α} (h : x.Exchanges [] piece a)
    (hc : ∀ a', Carries spans (piece a) (piece a') (whole b) (whole (f a'))) :
    (x.map f).Exchanges spans whole b :=
  fun within new => .inside (hc _) (h within new)

/-- Clauses are not executable. -/
theorem Exchanges.ofClause {spans : List Span} {piece : α → Piece} {a : α} {es : List Expr}
    {x : Slot α} {y : Slot (List Expr)} (h : y ∈ Expr.clauseSlots es) (same : x.path = y.path) :
    x.Exchanges spans piece a := by
  obtain ⟨z, -, rfl⟩ := Slots.mem_along.1 h
  intro within
  simp [same, Coverage.executable] at within

end Slot

/-- A slot of a list lies in one of its expressions, the others around it. -/
theorem Expr.mem_slotsList {es : List Expr} {x : Slot (List Expr)} (h : x ∈ Expr.slotsList es) :
    ∃ pre e post, es = pre ++ e :: post ∧ ∃ y ∈ e.slots, x = y.map fun e => pre ++ e :: post := by
  induction es generalizing x with
  | nil => cases h
  | cons e es ih =>
    obtain ⟨z, hz, rfl⟩ := Slots.mem_rebuild.1 h
    rcases Slots.mem_both.1 hz with ⟨y, hy, rfl⟩ | ⟨y, hy, rfl⟩
    · exact ⟨[], e, es, rfl, y, hy, rfl⟩
    · obtain ⟨pre, c, post, rfl, u, hu, rfl⟩ := ih hy
      exact ⟨e :: pre, c, post, rfl, u, hu, rfl⟩

/-- A slot of an optional expression is a slot of the expression that is there. -/
theorem Expr.mem_slotsOpt {e : Option Expr} {x : Slot (Option Expr)} (h : x ∈ Expr.slotsOpt e) :
    ∃ c, e = some c ∧ ∃ y ∈ c.slots, x = y.map some := by
  cases e with
  | none => cases h
  | some e =>
    obtain ⟨y, hy, rfl⟩ := Slots.mem_rebuild.1 h
    exact ⟨e, rfl, y, hy, rfl⟩

/-- A slot of a display's entries lies in a key or a value. -/
theorem MapEntry.mem_slotsList {entries : List MapEntry} {x : Slot (List MapEntry)}
    (h : x ∈ MapEntry.slotsList entries) :
    ∃ pre e post, (entries.flatMap fun entry => [entry.key, entry.value]) = pre ++ e :: post ∧
      ∃ y ∈ e.slots, x = y.map fun e => MapEntry.ofParts (pre ++ e :: post) := by
  induction entries generalizing x with
  | nil => cases h
  | cons entry entries ih =>
    obtain ⟨key, value⟩ := entry
    let rest := entries.flatMap fun entry => [entry.key, entry.value]
    have whole : MapEntry.ofParts rest = entries := MapEntry.ofParts_flatMap entries
    obtain ⟨z, hz, rfl⟩ := Slots.mem_rebuild.1 h
    rcases Slots.mem_both.1 hz with ⟨u, hu, rfl⟩ | ⟨u, hu, rfl⟩
    · rcases Slots.mem_both.1 hu with ⟨y, hy, rfl⟩ | ⟨y, hy, rfl⟩
      · refine ⟨[], key, value :: rest, rfl, y, hy, ?_⟩
        change _ = y.map fun e => ⟨e, value⟩ :: MapEntry.ofParts rest
        rw [whole]
        rfl
      · refine ⟨[key], value, rest, rfl, y, hy, ?_⟩
        change _ = y.map fun e => ⟨key, e⟩ :: MapEntry.ofParts rest
        rw [whole]
        rfl
    · obtain ⟨pre, c, post, split, y, hy, rfl⟩ := ih hu
      exact ⟨key :: value :: pre, c, post, by simp [split], y, hy, rfl⟩

/-- A slot in a shape is one in a direct part, and filling it exchanges that part. -/
theorem ExprKind.mem_slots {kind : ExprKind} (plain : ∀ e, kind ≠ .old e) {x : Slot ExprKind}
    (h : x ∈ kind.slots) : ∃ pre e post, kind.parts = pre ++ e :: post ∧
      ∃ y ∈ e.slots, x = y.map fun e => (kind.withParts (pre ++ e :: post)).resync := by
  cases kind with
  | literal _ | name _ | this => cases h
  | old e => exact absurd rfl (plain e)
  | unary _ a | member a _ | tupleIndex a _ =>
    obtain ⟨y, hy, rfl⟩ := Slots.mem_rebuild.1 h
    exact ⟨[], a, [], rfl, y, hy, rfl⟩
  | binary _ a b | index a b =>
    obtain ⟨z, hz, rfl⟩ := Slots.mem_rebuild.1 h
    rcases Slots.mem_both.1 hz with ⟨y, hy, rfl⟩ | ⟨y, hy, rfl⟩
    · exact ⟨[], a, [b], rfl, y, hy, rfl⟩
    · exact ⟨[a], b, [], rfl, y, hy, rfl⟩
  | ite a b c =>
    obtain ⟨z, hz, rfl⟩ := Slots.mem_rebuild.1 h
    rcases Slots.mem_both.1 hz with ⟨u, hu, rfl⟩ | ⟨y, hy, rfl⟩
    · rcases Slots.mem_both.1 hu with ⟨y, hy, rfl⟩ | ⟨y, hy, rfl⟩
      · exact ⟨[], a, [b, c], rfl, y, hy, rfl⟩
      · exact ⟨[a], b, [c], rfl, y, hy, rfl⟩
    · exact ⟨[a, b], c, [], rfl, y, hy, rfl⟩
  | chain c =>
    obtain ⟨operands, ops, resolved⟩ := c
    obtain ⟨z, hz, rfl⟩ := Slots.mem_rebuild.1 h
    obtain ⟨u, hu, rfl⟩ := Slots.mem_rebuild.1 hz
    obtain ⟨pre, e, post, rfl, y, hy, rfl⟩ := Expr.mem_slotsList hu
    exact ⟨pre, e, post, rfl, y, hy, rfl⟩
  | display _ es | ctor _ _ es =>
    obtain ⟨z, hz, rfl⟩ := Slots.mem_rebuild.1 h
    obtain ⟨pre, e, post, rfl, y, hy, rfl⟩ := Expr.mem_slotsList hz
    exact ⟨pre, e, post, rfl, y, hy, rfl⟩
  | mapDisplay entries =>
    obtain ⟨z, hz, rfl⟩ := Slots.mem_rebuild.1 h
    obtain ⟨pre, e, post, split, y, hy, rfl⟩ := MapEntry.mem_slotsList hz
    exact ⟨pre, e, post, split, y, hy, rfl⟩
  | call a method args =>
    obtain ⟨z, hz, rfl⟩ := Slots.mem_rebuild.1 h
    rcases Slots.mem_both.1 hz with ⟨u, hu, rfl⟩ | ⟨u, hu, rfl⟩
    · cases a with
      | none => cases hu
      | some a =>
        obtain ⟨y, hy, rfl⟩ := Slots.mem_rebuild.1 hu
        exact ⟨[], a, args, rfl, y, hy, rfl⟩
    · obtain ⟨pre, e, post, rfl, y, hy, rfl⟩ := Expr.mem_slotsList hu
      cases a with
      | none => exact ⟨pre, e, post, rfl, y, hy, rfl⟩
      | some a => exact ⟨a :: pre, e, post, rfl, y, hy, rfl⟩
  | arrayAlloc ty dims init =>
    obtain ⟨z, hz, rfl⟩ := Slots.mem_rebuild.1 h
    rcases Slots.mem_both.1 hz with ⟨u, hu, rfl⟩ | ⟨u, hu, rfl⟩
    · obtain ⟨pre, e, post, rfl, y, hy, rfl⟩ := Expr.mem_slotsList hu
      refine ⟨pre, e, post ++ init.getD [], by simp [parts], y, hy, ?_⟩
      have split : ∀ e', pre ++ e' :: (post ++ init.getD []) =
          (pre ++ e' :: post) ++ init.getD [] := by
        simp
      have len : ∀ e', (pre ++ e' :: post).length = (pre ++ e :: post).length := by
        simp
      simp only [split, withParts, List.take_left' (len _), List.drop_left' (len _), resync]
      cases init <;> rfl
    · cases init with
      | none => cases hu
      | some values =>
        obtain ⟨w, hw, rfl⟩ := Slots.mem_rebuild.1 hu
        obtain ⟨pre, e, post, rfl, y, hy, rfl⟩ := Expr.mem_slotsList hw
        refine ⟨dims ++ pre, e, post, by simp [parts], y, hy, ?_⟩
        simp only [List.append_assoc, withParts, List.take_left, List.drop_left, resync]
        rfl

/-- Filling a slot in an expression exchanges what is at its place. -/
theorem Expr.exchanged (e : Expr) : ∀ x ∈ e.slots, x.Exchanges [] .expr e := by
  induction e using Expr.induct with
  | step e ih =>
    obtain ⟨kind, span, ty⟩ := e
    intro x hx inside new
    rw [Expr.slots] at hx
    obtain ⟨u, hu, rfl⟩ := Slots.mem_along.1 hx
    rcases List.mem_cons.1 hu with rfl | hu
    · exact .expr
    obtain ⟨z, hz, rfl⟩ := Slots.mem_rebuild.1 hu
    by_cases old : ∃ e, kind = .old e
    · obtain ⟨e, rfl⟩ := old
      obtain ⟨v, hv, rfl⟩ := Slots.mem_rebuild.1 hz
      obtain ⟨y, -, rfl⟩ := Slots.mem_along.1 hv
      simp [Coverage.executable] at inside
    · have plain := fun e he => old ⟨e, he⟩
      obtain ⟨pre, e, post, split, y, hy, rfl⟩ := ExprKind.mem_slots plain hz
      have within : y.path.within .executable = true := by
        simpa [Coverage.executable] using inside
      have whole : Slot.Exchanges [span] .expr ⟨kind, span, ty⟩ (y.map fun e =>
          (⟨(kind.withParts (pre ++ e :: post)).resync, span, ty⟩ : Expr)) :=
        (ih e (by simp [split]) y hy).carry fun _ => .part plain split
      exact whole within new

/-- A slot of the targets lies in one of them, below an assignment. -/
theorem Expr.mem_targetSlots {es : List Expr} {x : Slot (List Expr)} (h : x ∈ Expr.targetSlots es) :
    ∃ pre e post, es = pre ++ e :: post ∧
      ∃ y ∈ e.slots, x = (y.map fun e => pre ++ e :: post).along (.toTarget e) := by
  induction es generalizing x with
  | nil => cases h
  | cons e es ih =>
    obtain ⟨z, hz, rfl⟩ := Slots.mem_rebuild.1 h
    rcases Slots.mem_both.1 hz with ⟨u, hu, rfl⟩ | ⟨u, hu, rfl⟩
    · obtain ⟨y, hy, rfl⟩ := Slots.mem_along.1 hu
      exact ⟨[], e, es, rfl, y, hy, rfl⟩
    · obtain ⟨pre, c, post, rfl, y, hy, rfl⟩ := ih hu
      exact ⟨e :: pre, c, post, rfl, y, hy, rfl⟩

/-- A slot of an update's values lies in one of them, and the update is made again. -/
theorem Update.mem_valueSlots {u : Update} {x : Slot Update} (h : x ∈ u.valueSlots) :
    ∃ pre e post, u.values = pre ++ e :: post ∧
      ∃ y ∈ e.slots, x = (y.map fun e => Update.make u.targets (pre ++ e :: post)).along .assign := by
  obtain ⟨z, hz, rfl⟩ := Slots.mem_along.1 h
  obtain ⟨v, hv, rfl⟩ := Slots.mem_rebuild.1 hz
  obtain ⟨pre, e, post, split, y, hy, rfl⟩ := Expr.mem_slotsList hv
  exact ⟨pre, e, post, split, y, hy, rfl⟩

/-- Filling a slot in an assignment exchanges what is at its place. -/
theorem Update.exchanged {u : Update} {span : Span} {ghost : Bool} {x : Slot Update}
    (h : x ∈ u.slots) :
    x.Exchanges [span] (fun u => .stmt ⟨.update u, span, ghost⟩) u := by
  obtain ⟨targets, values, resolved⟩ := u
  rcases List.mem_append.1 h with h | h
  · obtain ⟨z, hz, rfl⟩ := Slots.mem_along.1 h
    obtain ⟨v, hv, rfl⟩ := Slots.mem_rebuild.1 hz
    obtain ⟨pre, e, post, rfl, y, hy, rfl⟩ := Expr.mem_targetSlots hv
    intro within new
    have gate : e.isIndex = true ∧ y.path.within .executable = true := by
      simpa [Coverage.executable] using within
    exact .inside (.target gate.1) (e.exchanged y hy gate.2 new)
  · obtain ⟨pre, e, post, rfl, y, hy, rfl⟩ := Update.mem_valueSlots h
    exact fun within new => .inside .value (e.exchanged y hy within new)

/-- Filling a slot in a declaration exchanges what is at its place. -/
theorem VarDecl.exchanged {d : VarDecl} {span : Span} {ghost : Bool} {x : Slot VarDecl}
    (h : x ∈ d.slots) :
    x.Exchanges [span] (fun d => .stmt ⟨.varDecl d, span, ghost⟩) d := by
  obtain ⟨locals, _ | ⟨targets, values, resolved⟩⟩ := d
  · cases h
  · obtain ⟨z, hz, rfl⟩ := Slots.mem_rebuild.1 h
    obtain ⟨pre, e, post, rfl, y, hy, rfl⟩ := Update.mem_valueSlots hz
    exact fun within new => .inside .init (e.exchanged y hy within new)

/-- A slot of a block is its list or a slot of it. -/
theorem Block.mem_slots {list : List Stmt} {area : Span} {x : Slot Block}
    (h : x ∈ (Block.mk list area).slots) : ∃ y ∈ Slot.stmts list :: Stmt.slotsList list,
      x = (y.map fun list => Block.mk list area).along (.through area) := by
  obtain ⟨z, hz, rfl⟩ := Slots.mem_along.1 h
  obtain ⟨y, hy, rfl⟩ := Slots.mem_rebuild.1 hz
  exact ⟨y, hy, rfl⟩

/-- A slot of the cases lies in one of them: its list or a slot of it. -/
theorem MatchCase.mem_slotsList {cases : List MatchCase} {x : Slot (List MatchCase)}
    (h : x ∈ MatchCase.slotsList cases) : ∃ pre pattern list area post,
      cases = pre ++ ⟨pattern, list, area⟩ :: post ∧
      ∃ y ∈ Slot.stmts list :: Stmt.slotsList list,
        x = (y.map fun list => pre ++ ⟨pattern, list, area⟩ :: post).along (.through area) := by
  induction cases generalizing x with
  | nil => cases h
  | cons c cases ih =>
    obtain ⟨pattern, list, area⟩ := c
    obtain ⟨z, hz, rfl⟩ := Slots.mem_rebuild.1 h
    rcases Slots.mem_both.1 hz with ⟨u, hu, rfl⟩ | ⟨u, hu, rfl⟩
    · obtain ⟨v, hv, rfl⟩ := Slots.mem_along.1 hu
      obtain ⟨y, hy, rfl⟩ := Slots.mem_rebuild.1 hv
      exact ⟨[], pattern, list, area, cases, rfl, y, hy, rfl⟩
    · obtain ⟨pre, p, l, a, post, rfl, y, hy, rfl⟩ := ih hu
      exact ⟨⟨pattern, list, area⟩ :: pre, p, l, a, post, rfl, y, hy, rfl⟩

/-- A slot of a list is one of its statements as an element, or lies in one. -/
theorem Stmt.mem_slotsList {list : List Stmt} {x : Slot (List Stmt)} (h : x ∈ Stmt.slotsList list) :
    ∃ pre s post, list = pre ++ s :: post ∧
      (x = (Slot.element s post).map (fun list => pre ++ list) ∨
        ∃ y ∈ s.slots, x = y.map fun s => pre ++ s :: post) := by
  induction list generalizing x with
  | nil => cases h
  | cons s list ih =>
    rcases List.mem_cons.1 h with rfl | h
    · exact ⟨[], s, list, rfl, .inl rfl⟩
    obtain ⟨z, hz, rfl⟩ := Slots.mem_rebuild.1 h
    rcases Slots.mem_both.1 hz with ⟨y, hy, rfl⟩ | ⟨u, hu, rfl⟩
    · exact ⟨[], s, list, rfl, .inr ⟨y, hy, rfl⟩⟩
    · obtain ⟨pre, t, post, rfl, rfl | ⟨y, hy, rfl⟩⟩ := ih hu
      · exact ⟨s :: pre, t, post, rfl, .inl rfl⟩
      · exact ⟨s :: pre, t, post, rfl, .inr ⟨y, hy, rfl⟩⟩

/-- Filling a slot in a list of a statement exchanges what is at its place. -/
theorem Slot.Exchanges.listed {α : Type} {outer : Span} {whole : α → Piece} {b : α}
    {f : List Stmt → α} {list : List Stmt} {area : Span} {x : Slot (List Stmt)} {z : Slot α}
    (same : z = (x.map f).along (.through area)) (h : x ∈ Slot.stmts list :: Stmt.slotsList list)
    (elements : ∀ s ∈ list, ∀ y ∈ s.slots, y.Exchanges [] .stmt s)
    (hc : ∀ list', Carries [outer, area] (.stmts list) (.stmts list') (whole b)
      (whole (f list'))) : z.Exchanges [outer] whole b := by
  subst same
  intro within new
  have inside : x.path.within .executable = true := by
    simpa [Coverage.executable] using within
  have exchanged : Exchanged x.place new x.path.spans (.stmts list) (.stmts (x.fill new)) := by
    rcases List.mem_cons.1 h with rfl | h
    · exact .stmts
    obtain ⟨pre, s, post, rfl, rfl | ⟨y, hy, rfl⟩⟩ := Stmt.mem_slotsList h
    · exact .element
    · exact .inside .element (elements s (by simp) y hy inside new)
  have held := Exchanged.inside (hc (x.fill new)) exchanged
  exact held

/-- Filling a slot in a statement exchanges what is at its place. -/
theorem Stmt.exchanged (s : Stmt) : ∀ x ∈ s.slots, x.Exchanges [] .stmt s := by
  induction s using Stmt.induct with
  | step s ihLists ihBranch =>
    obtain ⟨kind, span, ghost⟩ := s
    suffices parts : ∀ x ∈ kind.slots,
        x.Exchanges [span] (fun kind => .stmt ⟨kind, span, ghost⟩) kind by
      intro x hx within new
      rw [Stmt.slots] at hx
      obtain ⟨z, hz, rfl⟩ := Slots.mem_along.1 hx
      obtain ⟨y, hy, rfl⟩ := Slots.mem_rebuild.1 hz
      have inside : y.path.within .executable = true := by
        simp only [Slot.path_along, Path.within_toStmt, Bool.and_eq_true] at within
        exact within.2
      exact parts y hy inside new
    intro x hx
    cases kind with
    | breakLoop | continueLoop => cases hx
    | varDecl d =>
      obtain ⟨y, hy, rfl⟩ := Slots.mem_rebuild.1 hx
      exact VarDecl.exchanged hy
    | update u =>
      obtain ⟨y, hy, rfl⟩ := Slots.mem_rebuild.1 hx
      exact Update.exchanged hy
    | expr e =>
      obtain ⟨y, hy, rfl⟩ := Slots.mem_rebuild.1 hx
      exact (e.exchanged y hy).carry fun _ => .expr
    | assert e =>
      obtain ⟨y, hy, rfl⟩ := Slots.mem_rebuild.1 hx
      exact (e.exchanged y hy).carry fun _ => .assert
    | assume e =>
      obtain ⟨y, hy, rfl⟩ := Slots.mem_rebuild.1 hx
      exact (e.exchanged y hy).carry fun _ => .assume
    | ret values =>
      obtain ⟨z, hz, rfl⟩ := Slots.mem_rebuild.1 hx
      obtain ⟨pre, e, post, rfl, y, hy, rfl⟩ := Expr.mem_slotsList hz
      exact (e.exchanged y hy).carry fun _ => .ret
    | print args =>
      obtain ⟨z, hz, rfl⟩ := Slots.mem_rebuild.1 hx
      obtain ⟨pre, e, post, rfl, y, hy, rfl⟩ := Expr.mem_slotsList hz
      exact (e.exchanged y hy).carry fun _ => .print
    | ifElse guard thenBranch elseBranch =>
      obtain ⟨list, area⟩ := thenBranch
      obtain ⟨z, hz, rfl⟩ := Slots.mem_rebuild.1 hx
      rcases Slots.mem_both.1 hz with ⟨v, hv, rfl⟩ | ⟨v, hv, rfl⟩
      · rcases Slots.mem_both.1 hv with ⟨u, hu, rfl⟩ | ⟨u, hu, rfl⟩
        · obtain ⟨e, rfl, y, hy, rfl⟩ := Expr.mem_slotsOpt hu
          exact (e.exchanged y hy).carry fun _ => .ifGuard
        · obtain ⟨y, hy, rfl⟩ := Block.mem_slots hu
          exact .listed (f := fun list => .ifElse guard ⟨list, area⟩ elseBranch) rfl hy
            (ihLists (area, list) (by simp [StmtKind.lists])) fun _ => .thenBranch
      · cases elseBranch with
        | none => cases hv
        | some s =>
          obtain ⟨y, hy, rfl⟩ := Slots.mem_rebuild.1 hv
          exact (ihBranch s rfl y hy).carry fun _ => .elseBranch
    | whileLoop guard invariants decreases body =>
      obtain ⟨list, area⟩ := body
      obtain ⟨z, hz, rfl⟩ := Slots.mem_rebuild.1 hx
      rcases Slots.mem_both.1 hz with ⟨v, hv, rfl⟩ | ⟨v, hv, rfl⟩
      · rcases Slots.mem_both.1 hv with ⟨u, hu, rfl⟩ | ⟨u, hu, rfl⟩
        · rcases Slots.mem_both.1 hu with ⟨t, ht, rfl⟩ | ⟨t, ht, rfl⟩
          · obtain ⟨e, rfl, y, hy, rfl⟩ := Expr.mem_slotsOpt ht
            exact (e.exchanged y hy).carry fun _ => .whileGuard
          · exact .ofClause ht rfl
        · exact .ofClause hu rfl
      · obtain ⟨y, hy, rfl⟩ := Block.mem_slots hv
        exact .listed (f := fun list => .whileLoop guard invariants decreases ⟨list, area⟩) rfl hy
          (ihLists (area, list) (by simp [StmtKind.lists])) fun _ => .whileBody
    | forLoop index start stop ascending invariants body =>
      obtain ⟨list, area⟩ := body
      obtain ⟨z, hz, rfl⟩ := Slots.mem_rebuild.1 hx
      rcases Slots.mem_both.1 hz with ⟨v, hv, rfl⟩ | ⟨v, hv, rfl⟩
      · rcases Slots.mem_both.1 hv with ⟨u, hu, rfl⟩ | ⟨u, hu, rfl⟩
        · rcases Slots.mem_both.1 hu with ⟨y, hy, rfl⟩ | ⟨t, ht, rfl⟩
          · exact (start.exchanged y hy).carry fun _ => .forStart
          · obtain ⟨e, rfl, y, hy, rfl⟩ := Expr.mem_slotsOpt ht
            exact (e.exchanged y hy).carry fun _ => .forStop
        · exact .ofClause hu rfl
      · obtain ⟨y, hy, rfl⟩ := Block.mem_slots hv
        exact .listed (f := fun list => .forLoop index start stop ascending invariants ⟨list, area⟩) rfl hy
          (ihLists (area, list) (by simp [StmtKind.lists])) fun _ => .forBody
    | block b =>
      obtain ⟨list, area⟩ := b
      obtain ⟨z, hz, rfl⟩ := Slots.mem_rebuild.1 hx
      obtain ⟨y, hy, rfl⟩ := Block.mem_slots hz
      exact .listed (f := fun list => .block ⟨list, area⟩) rfl hy
        (ihLists (area, list) (by simp [StmtKind.lists])) fun _ => .block
    | matchOn source cases =>
      obtain ⟨z, hz, rfl⟩ := Slots.mem_rebuild.1 hx
      rcases Slots.mem_both.1 hz with ⟨y, hy, rfl⟩ | ⟨v, hv, rfl⟩
      · exact (source.exchanged y hy).carry fun _ => .matchSource
      · obtain ⟨pre, pattern, list, area, post, rfl, y, hy, rfl⟩ := MatchCase.mem_slotsList hv
        exact .listed (f := fun list => .matchOn source (pre ++ ⟨pattern, list, area⟩ :: post)) rfl hy
          (ihLists (area, list) (by simp [StmtKind.lists])) fun _ => .caseBody

/-- Contracts are not executable. -/
theorem Slot.Exchanges.ofContract {α : Type} {spans : List Span} {piece : α → Piece} {a : α}
    {c : Contract} {x : Slot α} {y : Slot Contract} (h : y ∈ c.slots) (same : x.path = y.path) :
    x.Exchanges spans piece a := by
  obtain ⟨z, hz, rfl⟩ := Slots.mem_rebuild.1 h
  rcases Slots.mem_both.1 hz with ⟨v, hv, rfl⟩ | ⟨v, hv, rfl⟩
  · rcases Slots.mem_both.1 hv with ⟨u, hu, rfl⟩ | ⟨u, hu, rfl⟩
    · rcases Slots.mem_both.1 hu with ⟨t, ht, rfl⟩ | ⟨t, ht, rfl⟩
      · exact .ofClause ht same
      · exact .ofClause ht same
    · exact .ofClause hu same
  · exact .ofClause hv same

/-- Filling a slot in a member exchanges what is at its place. -/
theorem Member.exchanged (m : Member) : ∀ x ∈ m.slots, x.Exchanges [] .member m := by
  suffices inner : ∀ x ∈ m.innerSlots, x.Exchanges [m.span] .member m by
    intro x hx within new
    obtain ⟨y, hy, rfl⟩ := Slots.mem_along.1 hx
    have inside : y.path.within .executable = true := by
      simp only [Slot.path_along, Path.within_toMember, Bool.and_eq_true] at within
      exact within.2
    exact inner y hy inside new
  intro x hx
  cases m with
  | field f => cases hx
  | method d =>
    obtain ⟨z, hz, rfl⟩ := Slots.mem_rebuild.1 hx
    rcases Slots.mem_both.1 hz with ⟨u, hu, rfl⟩ | ⟨u, hu, rfl⟩
    · exact .ofContract hu rfl
    · cases body : d.body with
      | none =>
        rw [body] at hu
        cases hu
      | some b =>
        obtain ⟨list, area⟩ := b
        rw [body] at hu
        obtain ⟨v, hv, rfl⟩ := Slots.mem_rebuild.1 hu
        obtain ⟨y, hy, rfl⟩ := Block.mem_slots hv
        have carries : ∀ list', Carries [(Member.method d).span, area] (.stmts list) (.stmts list')
            (.member (.method d)) (.member (.method { d with body := some ⟨list', area⟩ })) :=
          fun _ => .methodBody body
        exact .listed rfl hy (fun s _ => s.exchanged) carries
  | function f =>
    obtain ⟨z, hz, rfl⟩ := Slots.mem_rebuild.1 hx
    rcases Slots.mem_both.1 hz with ⟨u, hu, rfl⟩ | ⟨u, hu, rfl⟩
    · exact .ofContract hu rfl
    · obtain ⟨e, body, y, hy, rfl⟩ := Expr.mem_slotsOpt hu
      exact (e.exchanged y hy).carry fun _ => .functionBody body

/-- A slot of a member list lies in one of the members. -/
theorem Member.mem_slotsList {ms : List Member} {x : Slot (List Member)}
    (h : x ∈ Member.slotsList ms) :
    ∃ pre m post, ms = pre ++ m :: post ∧ ∃ y ∈ m.slots, x = y.map fun m => pre ++ m :: post := by
  induction ms generalizing x with
  | nil => cases h
  | cons m ms ih =>
    obtain ⟨z, hz, rfl⟩ := Slots.mem_rebuild.1 h
    rcases Slots.mem_both.1 hz with ⟨y, hy, rfl⟩ | ⟨u, hu, rfl⟩
    · exact ⟨[], m, ms, rfl, y, hy, rfl⟩
    · obtain ⟨pre, c, post, rfl, y, hy, rfl⟩ := ih hu
      exact ⟨m :: pre, c, post, rfl, y, hy, rfl⟩

/-- Filling a slot in a declaration exchanges what is at its place. -/
theorem Decl.exchanged (d : Decl) : ∀ x ∈ d.slots, x.Exchanges [] .decl d := by
  intro x hx within new
  obtain ⟨z, hz, rfl⟩ := Slots.mem_along.1 hx
  obtain ⟨y, hy, rfl⟩ := Slots.mem_rebuild.1 hz
  have inside : y.path.within .executable = true := by
    simpa [Coverage.executable] using within
  have exchanged : Exchanged y.place new y.path.spans (.members d.members)
      (.members (y.fill new)) := by
    rcases List.mem_cons.1 hy with rfl | hy
    · exact .members
    obtain ⟨pre, m, post, split, v, hv, rfl⟩ := Member.mem_slotsList hy
    rw [split]
    exact .inside .member (m.exchanged v hv inside new)
  cases d with
  | «class» c =>
    have held := Exchanged.inside .class exchanged
    exact held
  | datatype d =>
    have held := Exchanged.inside .datatype exchanged
    exact held

/-- A slot of the declarations lies in one of them. -/
theorem Decl.mem_slotsList {ds : List Decl} {x : Slot (List Decl)} (h : x ∈ Decl.slotsList ds) :
    ∃ pre d post, ds = pre ++ d :: post ∧ ∃ y ∈ d.slots, x = y.map fun d => pre ++ d :: post := by
  induction ds generalizing x with
  | nil => cases h
  | cons d ds ih =>
    obtain ⟨z, hz, rfl⟩ := Slots.mem_rebuild.1 h
    rcases Slots.mem_both.1 hz with ⟨y, hy, rfl⟩ | ⟨u, hu, rfl⟩
    · exact ⟨[], d, ds, rfl, y, hy, rfl⟩
    · obtain ⟨pre, c, post, rfl, y, hy, rfl⟩ := ih hu
      exact ⟨d :: pre, c, post, rfl, y, hy, rfl⟩

/-- Filling a slot in the executable code of a module exchanges what is at its place and nothing
else. -/
theorem Module.exchanged (m : Module) : ∀ x ∈ m.slots, x.Exchanges [] .module m := by
  obtain ⟨name, ds⟩ := m
  intro x hx
  obtain ⟨z, hz, rfl⟩ := Slots.mem_rebuild.1 hx
  obtain ⟨pre, d, post, rfl, y, hy, rfl⟩ := Decl.mem_slotsList hz
  exact (d.exchanged y hy).carry fun _ => .decl

end Mutation
