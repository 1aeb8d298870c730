import Mathlib.Data.List.Basic
import Mutation.Proofs.Brackets

/-!
# Names that are collected

Code is moved or dropped only when no name loses what it refers to, so the names in it are
collected first. A reading walk does that: it admits specifications and ghost code, enters every
node, and takes in each name that it visits (`Survey.collector`).

`Node.Mentions` says without any walk that a name stands in a node at some depth: targets of
assignments, clauses, ghost code and the inside of `old` count, resolved copies and the targets of
an initializer do not. Each piece of the walk takes in the names of its nodes, as `Expr.names` and
`Stmt.names` list them, and these are the names that the nodes mention (`Survey.Collects`). So the
walk of a whole piece comes to every name that is mentioned and to no other, in ascending order
(`Survey.collector_complete`).
-/

namespace Mutation

/-! ### Ascending lists of names -/

/-- Names put into an ascending list one after the other. -/
def insertNames (names found : List String) : List String :=
  names.foldl (fun found name => insertName name found) found

/-- Names come into a sorted list one after the other, so two lists of them come in turn. -/
theorem insertNames_append (names more found : List String) :
    insertNames (names ++ more) found = insertNames more (insertNames names found) :=
  List.foldl_append

/-- An insertion adds the one name. -/
theorem mem_insertName {n name : String} {found : List String} :
    n ∈ insertName name found ↔ n = name ∨ n ∈ found := by
  induction found with
  | nil => simp [insertName]
  | cons first found ih =>
    rw [insertName]
    split
    · next same => simp [same]
    · split
      · simp
      · rw [List.mem_cons, ih, List.mem_cons]
        exact or_left_comm

/-- And so for a list of names. -/
theorem mem_insertNames {n : String} {names found : List String} :
    n ∈ insertNames names found ↔ n ∈ names ∨ n ∈ found := by
  induction names generalizing found with
  | nil => simp [insertNames]
  | cons name names ih =>
    have rest : n ∈ insertNames (name :: names) found ↔ n ∈ names ∨ n ∈ insertName name found := ih
    rw [rest, mem_insertName, List.mem_cons, or_assoc]
    exact or_left_comm

/-- Sorting keeps the names. -/
theorem mem_sortNames {n : String} {names : List String} : n ∈ sortNames names ↔ n ∈ names := by
  induction names with
  | nil => simp [sortNames]
  | cons name names ih =>
    have rest : n ∈ sortNames (name :: names) ↔ n = name ∨ n ∈ sortNames names := mem_insertName
    rw [rest, ih, List.mem_cons]

/-- The names are in ascending order, each once. -/
def Ascending (names : List String) : Prop := names.Pairwise (· < ·)

namespace Ascending

variable {names other : List String}

/-- An insertion keeps the strict order: a name that is there is not put in again. -/
theorem insert (h : Ascending names) (name : String) : Ascending (insertName name names) := by
  induction names with
  | nil => exact List.pairwise_singleton _ _
  | cons first names ih =>
    obtain ⟨least, rest⟩ := List.pairwise_cons.1 h
    rw [insertName]
    split
    · exact h
    · next differs =>
      split
      · next before =>
        refine List.pairwise_cons.2 ⟨fun n hn => ?_, h⟩
        rcases List.mem_cons.1 hn with rfl | hn
        · exact before
        · exact String.lt_trans before (least n hn)
      · next notBefore =>
        refine List.pairwise_cons.2 ⟨fun n hn => ?_, ih rest⟩
        rcases mem_insertName.1 hn with rfl | hn
        · -- the new name is neither `first` nor in front of it
          refine Decidable.byContradiction fun notBehind => differs ?_
          exact String.le_antisymm (String.not_lt.1 notBehind) (String.not_lt.1 notBefore)
        · exact least n hn

/-- So does the insertion of a list of names. -/
theorem insertNames (h : Ascending names) (more : List String) :
    Ascending (insertNames more names) := by
  induction more generalizing names with
  | nil => exact h
  | cons name more ih => exact ih (h.insert name)

/-- Sorted names are in strict order, each of them once. -/
theorem sortNames (names : List String) : Ascending (sortNames names) := by
  induction names with
  | nil => exact List.Pairwise.nil
  | cons name names ih => exact ih.insert name

/-- In strict order nothing occurs twice. -/
theorem nodup (h : Ascending names) : names.Nodup := by
  refine List.Pairwise.imp ?_ h
  rintro n _ before rfl
  exact String.lt_irrefl n before

/-- An ascending list is determined by its members. -/
theorem ext (h : Ascending names) (h' : Ascending other) (same : ∀ n, n ∈ names ↔ n ∈ other) :
    names = other := by
  have perm : names.Perm other := (List.perm_ext_iff_of_nodup h.nodup h'.nodup).2 same
  exact perm.eq_of_pairwise (fun _ _ _ _ before after => absurd after (String.lt_asymm before)) h h'

end Ascending

/-- The order in which names are put in does not matter. -/
theorem insertNames_nil (names : List String) : insertNames names [] = sortNames names := by
  have start : Ascending [] := List.Pairwise.nil
  refine (start.insertNames names).ext (.sortNames names) fun n => ?_
  rw [mem_insertNames, mem_sortNames]
  simp

/-! ### Mentions -/

/-- A name expression for `name` stands in a node, at some depth. -/
inductive Node.Mentions (name : String) : Node → Prop
  | here {span : Span} {ty : Ty} : Mentions name (.expr ⟨.name name, span, ty⟩)
  | part {node p : Node} (h : p ∈ node.parts) (inside : p.Mentions name) : Mentions name node

/-- The node is a name. -/
def Node.isName : Node → Bool
  | .expr ⟨.name _, _, _⟩ => true
  | _ => false

/-- A bare name mentions itself and nothing else. -/
theorem Node.mentions_name {n m : String} {span : Span} {ty : Ty} :
    (Node.expr ⟨.name m, span, ty⟩).Mentions n ↔ n = m := by
  constructor
  · rintro (_ | ⟨h, -⟩)
    · rfl
    · cases h
  · rintro rfl
    exact .here

/-- A node other than a name mentions what its parts mention. -/
theorem Node.mentions_iff {n : String} {node : Node} (other : node.isName = false) :
    node.Mentions n ↔ ∃ p ∈ node.parts, p.Mentions n := by
  constructor
  · intro h
    cases h with
    | here => cases other
    | part hp inside => exact ⟨_, hp, inside⟩
  · rintro ⟨p, hp, inside⟩
    exact .part hp inside

/-! ### The walk -/

/-- The walk that collects the names it visits. -/
def Survey.collector : Survey (List String) where
  specifications _ := true
  ghost _ := true
  visit
    | .expr e, found => (.proceed, insertNames e.name?.toList found)
    | _, found => (.proceed, found)

namespace Survey

/-- The walk goes on with these names taken in, and they are those that the nodes mention. -/
structure Collects (walk : List String → Flow (List String)) (names : List String)
    (ns : List Node) : Prop where
  walked : ∀ found, walk found = .go (insertNames names found)
  mentioned : ∀ n, n ∈ names ↔ ∃ p ∈ ns, p.Mentions n

namespace Collects

variable {walk inside rest : List String → Flow (List String)} {as bs : List String}
  {ms ns : List Node}

/-- A walk that calls nothing collects nothing, of no nodes. -/
theorem pass : Collects .go [] [] where
  walked _ := rfl
  mentioned n := by simp

/-- Two walks after each other collect the names of the one and then those of the other. -/
theorem next (h : Collects walk as ms) (h' : Collects rest bs ns) :
    Collects (fun found => (walk found).next rest) (as ++ bs) (ms ++ ns) where
  walked found := by rw [h.walked, Flow.next, h'.walked, insertNames_append]
  mentioned n := by
    simp only [List.mem_append, or_and_right, exists_or]
    exact or_congr (h.mentioned n) (h'.mentioned n)

/-- A node other than a name adds nothing to its parts. -/
theorem around {node : Node} (h : Collects inside as node.parts) (other : node.isName = false) :
    Collects (collector.around node inside) as [node] where
  walked found := by
    have visited : collector.around node inside found = inside found := by
      cases node with
      | expr e =>
        obtain ⟨kind, span, ty⟩ := e
        cases kind with
        | name n => cases other
        | _ => exact Flow.next_pure _
      | _ => exact Flow.next_pure _
    rw [visited, h.walked]
  mentioned n := by
    rw [h.mentioned, ← Node.mentions_iff other]
    simp

/-- Nothing is done where the kind of code changes. -/
theorem within (context : Context) (h : Collects inside as ns) :
    Collects (collector.within context inside) as ns where
  walked found := by
    unfold Survey.within
    split
    · exact h.walked found
    · rw [← h.walked]
      exact Flow.next_pure _
  mentioned := h.mentioned

/-! ### Expressions -/

/-- A list of expressions is collected when each of them is. -/
theorem exprs_of {es : List Expr}
    (each : ∀ e ∈ es, Collects (collector.expr e) e.names [.expr e]) :
    Collects (collector.exprs es) (Expr.namesList es) (es.map .expr) := by
  induction es with
  | nil => exact pass
  | cons e es ih =>
    obtain ⟨first, others⟩ := List.forall_mem_cons.1 each
    exact first.next (ih others)

/-- One case per form: the parts in the order in which the names are listed. -/
theorem exprKind {kind : ExprKind}
    (each : ∀ e ∈ kind.parts, Collects (collector.expr e) e.names [.expr e]) :
    Collects (collector.exprKind kind) (Expr.namesList kind.parts) (kind.parts.map .expr) := by
  by_cases old : ∃ x, kind = .old x
  · obtain ⟨x, rfl⟩ := old
    have operand := each x (by simp [ExprKind.parts])
    have names : Expr.namesList (ExprKind.old x).parts = x.names := by
      simp [ExprKind.parts, Expr.namesList]
    rw [names]
    exact operand.within .specification
  · have walk : collector.exprKind kind = collector.exprs kind.parts :=
      funext fun found => collector.exprKind_eq (fun x hx => old ⟨x, hx⟩) found
    rw [walk]
    exact exprs_of each

/-- The names of an expression: by induction over its parts. -/
theorem expr (e : Expr) : Collects (collector.expr e) e.names [.expr e] := by
  induction e using Expr.induct with
  | step e ih =>
    obtain ⟨kind, span, ty⟩ := e
    by_cases name : ∃ m, kind = .name m
    · obtain ⟨m, rfl⟩ := name
      exact ⟨fun found => rfl, fun n => by simp [Expr.names, ExprKind.names, Node.mentions_name]⟩
    · have names : Expr.names ⟨kind, span, ty⟩ = Expr.namesList kind.parts :=
        ExprKind.names_eq fun m hm => name ⟨m, hm⟩
      have other : (Node.expr ⟨kind, span, ty⟩).isName = false := by
        cases kind with
        | name m => exact absurd ⟨m, rfl⟩ name
        | _ => rfl
      rw [names]
      have parts : Collects (collector.exprKind kind) (Expr.namesList kind.parts)
          (Node.parts (.expr ⟨kind, span, ty⟩)) := exprKind ih
      exact parts.around other

/-- The names of a list. -/
theorem exprs (es : List Expr) :
    Collects (collector.exprs es) (Expr.namesList es) (es.map .expr) :=
  exprs_of fun e _ => expr e

/-- Those of an expression that may be absent. -/
theorem exprOpt (e : Option Expr) :
    Collects (collector.exprOpt e) (Expr.namesOpt e) (e.toList.map .expr) := by
  cases e with
  | none => exact pass
  | some e => exact expr e

/-- Those of a clause: a collector walks specifications. -/
theorem clause (es : List Expr) :
    Collects (collector.clause es) (Expr.namesList es) (es.map .expr) := by
  cases es with
  | nil => exact pass
  | cons e es => exact (exprs (e :: es)).within .specification

/-- Those of the targets, which are walked as expressions. -/
theorem targets (es : List Expr) :
    Collects (collector.targets es) (Expr.namesList es) (es.map .expr) := by
  induction es with
  | nil => exact pass
  | cons e es ih => exact (expr e).next ih

/-- Targets come before values. -/
theorem update (u : Update) :
    Collects (collector.update u) u.names (u.targets.map .expr ++ u.values.map .expr) :=
  (targets u.targets).next (exprs u.values)

/-- Of a declaration only the values are collected; the names it declares are not mentioned by it.
-/
theorem varDecl (d : VarDecl) :
    Collects (collector.varDecl d) d.valueNames (d.values.map .expr) := by
  obtain ⟨locals, init⟩ := d
  cases init with
  | none => exact pass
  | some init => exact exprs init.values

/-! ### Statements -/

/-- The names of the statements of a list. -/
theorem elements {list : List Stmt}
    (each : ∀ s ∈ list, Collects (collector.stmt s) s.names [.stmt s]) :
    Collects (collector.elements list) (Stmt.namesList list) (list.map .stmt) := by
  induction list with
  | nil => exact pass
  | cons s list ih =>
    obtain ⟨first, others⟩ := List.forall_mem_cons.1 each
    exact first.next (ih others)

/-- Those of a block. -/
theorem block {b : Block} (each : ∀ s ∈ b.stmts, Collects (collector.stmt s) s.names [.stmt s]) :
    Collects (collector.block b) b.names [.block b] := by
  obtain ⟨list, span⟩ := b
  have parts : Collects (collector.elements list) (Stmt.namesList list)
      (Node.parts (.block ⟨list, span⟩)) := elements each
  exact parts.around rfl

/-- Those of the bodies of cases; patterns bind and mention nothing. -/
theorem matchCases {cases : List MatchCase}
    (each : ∀ c ∈ cases, ∀ s ∈ c.body, Collects (collector.stmt s) s.names [.stmt s]) :
    Collects (collector.matchCases cases) (MatchCase.namesList cases) (cases.map .case) := by
  induction cases with
  | nil => exact pass
  | cons c cases ih =>
    obtain ⟨pattern, body, span⟩ := c
    obtain ⟨here, others⟩ := List.forall_mem_cons.1 each
    have parts : Collects (collector.elements body) (Stmt.namesList body)
        (Node.parts (.case ⟨pattern, body, span⟩)) := elements here
    exact (parts.around rfl).next (ih others)

/-- Those of a branch that may be absent. -/
theorem stmtOpt {s : Option Stmt}
    (each : ∀ t ∈ s, Collects (collector.stmt t) t.names [.stmt t]) :
    Collects (collector.stmtOpt s) (Stmt.namesOpt s) (s.toList.map .stmt) := by
  cases s with
  | none => exact pass
  | some s => exact each s rfl

/-- One case per form: its expressions, its lists and its branch. -/
theorem stmtKind {s : Stmt}
    (lists : ∀ b ∈ s.kind.lists, ∀ t ∈ b.2, Collects (collector.stmt t) t.names [.stmt t])
    (branch : ∀ t ∈ s.elseBranch?, Collects (collector.stmt t) t.names [.stmt t]) :
    Collects (collector.stmtKind s.kind) s.kind.names s.kind.nodes := by
  obtain ⟨kind, span, ghost⟩ := s
  cases kind with
  | varDecl d => exact varDecl d
  | update u => exact update u
  | expr e | assert e | assume e => exact expr e
  | ret es | print es => exact exprs es
  | breakLoop | continueLoop => exact pass
  | block b => exact block (lists (b.span, b.stmts) (by simp [StmtKind.lists]))
  | ifElse guard b elseBranch =>
    have body := block (lists (b.span, b.stmts) (by simp [StmtKind.lists]))
    exact ((exprOpt guard).next body).next (stmtOpt branch)
  | whileLoop guard invariants decreases b =>
    have body := block (lists (b.span, b.stmts) (by simp [StmtKind.lists]))
    have clauses := (clause invariants).next ((clause decreases).next pass)
    simp only [List.append_nil] at clauses
    rw [← List.map_append] at clauses
    rw [StmtKind.names, List.append_assoc (Expr.namesOpt guard)]
    exact ((exprOpt guard).next clauses).next body
  | forLoop index start stop ascending invariants b =>
    have body := block (lists (b.span, b.stmts) (by simp [StmtKind.lists]))
    exact (((expr start).next (exprOpt stop)).next (clause invariants)).next body
  | matchOn source cases =>
    have bodies := matchCases fun c hc =>
      lists (c.span, c.body) (by simpa [StmtKind.lists] using ⟨c, hc, rfl, rfl⟩)
    exact (expr source).next bodies

/-- The names of a statement: by induction over its lists and its branch. -/
theorem stmt (s : Stmt) : Collects (collector.stmt s) s.names [.stmt s] := by
  induction s using Stmt.induct with
  | step s lists branch =>
    obtain ⟨kind, span, ghost⟩ := s
    have walk : collector.stmt ⟨kind, span, ghost⟩ =
        collector.within (Stmt.context ⟨kind, span, ghost⟩)
          (collector.around (.stmt ⟨kind, span, ghost⟩) (collector.stmtKind kind)) := by
      -- every statement is admitted, and worth entering
      funext found
      cases h : Stmt.context ⟨kind, span, ghost⟩ <;> rw [Survey.stmt, h] <;> rfl
    have parts : Collects (collector.stmtKind kind) kind.names
        (Node.parts (.stmt ⟨kind, span, ghost⟩)) := stmtKind lists branch
    rw [walk]
    exact (parts.around rfl).within _

/-- The names of a list of statements. -/
theorem stmts (list : List Stmt) :
    Collects (collector.stmts list) (Stmt.namesList list) (list.map .stmt) :=
  elements fun s _ => stmt s

end Collects

end Survey

/-- The names of an expression are those that some bare name in it mentions. -/
theorem Expr.mem_names_iff {e : Expr} {n : String} : n ∈ e.names ↔ (Node.expr e).Mentions n := by
  simpa using (Survey.Collects.expr e).mentioned n

/-- The names of a list are those that one of its statements mentions. -/
theorem Stmt.mem_namesList_iff {list : List Stmt} {n : String} :
    n ∈ Stmt.namesList list ↔ ∃ s ∈ list, (Node.stmt s).Mentions n := by
  simpa using (Survey.Collects.stmts list).mentioned n

/-- The test for one name decides whether the expression mentions it. -/
theorem Expr.mentions_iff {e : Expr} {n : String} :
    e.mentions n = true ↔ (Node.expr e).Mentions n := by
  rw [mentions, List.contains_iff_mem, mem_names_iff]

/-- The test for some names decides whether a statement of the list mentions one of them. -/
theorem Stmt.mentionAny_iff {list : List Stmt} {names : List String} :
    Stmt.mentionAny list names = true ↔ ∃ n ∈ names, ∃ s ∈ list, (Node.stmt s).Mentions n := by
  simp only [mentionAny, List.any_eq_true, List.contains_iff_mem, mem_namesList_iff]

/-- The collecting walk goes to its end, and what it comes to is, in ascending order, every name
that is mentioned and no other. -/
theorem Survey.collector_complete :
    (∀ list : List Stmt,
      collector.stmts list [] = .go (sortNames (Stmt.namesList list)) ∧
        ∀ n, n ∈ sortNames (Stmt.namesList list) ↔ ∃ s ∈ list, (Node.stmt s).Mentions n) ∧
    ∀ e : Expr,
      collector.expr e [] = .go (sortNames e.names) ∧
        ∀ n, n ∈ sortNames e.names ↔ (Node.expr e).Mentions n := by
  refine ⟨fun list => ⟨?_, fun n => ?_⟩, fun e => ⟨?_, fun n => ?_⟩⟩
  · rw [(Collects.stmts list).walked, insertNames_nil]
  · rw [mem_sortNames, Stmt.mem_namesList_iff]
  · rw [(Collects.expr e).walked, insertNames_nil]
  · rw [mem_sortNames, Expr.mem_names_iff]

/-- In `ghost var x := old(y); while (z < y) invariant w { v := y; }` all but `x` is mentioned. -/
example :
    let name (n : String) : Expr := ⟨.name n, default, .int⟩
    let old : Expr := ⟨.old (name "y"), default, .int⟩
    let guard : Expr := ⟨.binary .lt (name "z") (name "y"), default, .bool⟩
    let body : Stmt := ⟨.update (.make [name "v"] [name "y"]), default, false⟩
    Survey.collector.stmts
      [⟨.varDecl (.withInit [⟨"x", .int, default, true⟩] [old]), default, true⟩,
        ⟨.whileLoop (some guard) [name "w"] [] ⟨[body], default⟩, default, false⟩] [] =
      .go ["v", "w", "y", "z"] := by
  rfl

end Mutation
