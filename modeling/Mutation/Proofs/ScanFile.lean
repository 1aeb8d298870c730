import Mutation.Proofs.Agreement
import Mutation.Proofs.Course
import Mutation.Proofs.Records

/-!
# Scans in candidate files

Scans append their candidates to a file, and the file is read back as all of them in order
(`Module.read_scan`). Nothing is assumed of the texts in a module or of the sentinel: a literal
stands in an argument as it is written in a program, with escapes for line breaks. Names stand in
arguments as they are, so they must be free of line breaks, and a range that is read must not be
inverted (`Module.Writable`).

What a scan keeps is that the names in scope are free of line breaks and that every candidate so
far is writable (`Scan.Clear`).
-/

namespace Mutation

open Text

/-! ### Texts of literals -/

/-- Part of a text without line ends and commas has none either. -/
theorem Text.Unbroken.subset {cs ds : List Char} (h : Unbroken ds) (sub : cs ⊆ ds) : Unbroken cs :=
  fun c hc => h c (sub hc)

theorem Text.unbroken_replicate_zero (n : Nat) : Unbroken (List.replicate n '0') := by
  intro c hc
  obtain rfl := List.eq_of_mem_replicate hc
  rfl

/-- A numeral has neither a line end nor a comma. -/
theorem Text.unbroken_intChars (v : Int) : Unbroken (intChars v) := by
  cases v with
  | ofNat n => exact unbroken_natChars n
  | negSucc n => exact (unbroken_natChars _).cons rfl

/-- Nor has the positional form of a number. -/
theorem RealFormat.unbroken_positional {ds : List Char} (h : Unbroken ds) (k : Int) :
    Unbroken (positional ds k) := by
  unfold positional
  split
  · exact .cons rfl (.cons rfl ((unbroken_replicate_zero _).append h))
  · have whole : Unbroken (ds.take k.toNat ++ List.replicate (k.toNat - ds.length) '0') :=
      (h.subset (List.take_subset _ _)).append (unbroken_replicate_zero _)
    dsimp only
    split
    · exact whole.append (by decide)
    · rename_i rest _ _
      exact whole.append (.cons rfl (h.subset (List.drop_subset _ _)))

/-- Nor has its scientific form. -/
theorem RealFormat.unbroken_scientific (f : RealFormat) {ds : List Char} (h : Unbroken ds)
    (e : Int) : Unbroken (f.scientific ds e) := by
  have power : Unbroken (f.power e) := by
    unfold power
    split
    · exact .cons rfl (.cons rfl (unbroken_intChars e))
    · exact .cons rfl (unbroken_intChars e)
  unfold scientific
  split
  · exact unbroken_nil
  · exact .cons (h _ List.mem_cons_self) power
  · obtain ⟨first, rest⟩ := List.forall_mem_cons.1 h
    exact .cons first (.append (.cons rfl rest) power)

/-- So a real number is written without either. -/
theorem Literal.unbroken_real (x : Double) : Unbroken (realFormat.write x).toList := by
  unfold RealFormat.write
  split
  · decide
  · split
    · rw [String.toList_ofList, RealFormat.writeDecimal]
      refine Unbroken.append ?_ ?_
      · split <;> decide
      · split
        · exact RealFormat.unbroken_positional (unbroken_natChars _) _
        · exact RealFormat.unbroken_scientific _ (unbroken_natChars _) _
    · split <;> decide

/-- An escaped character holds no line end: the line ends have escapes of their own. -/
theorem Literal.unbroken_escapeChar (c : Char) : Unbroken (escapeChar c) := by
  by_cases ends : Candidate.isLineEnd c = true
  · rw [Candidate.isLineEnd, Bool.or_eq_true, beq_iff_eq, beq_iff_eq] at ends
    rcases ends with rfl | rfl <;> decide
  · have plain : Unbroken [c] := List.forall_mem_singleton.2 (Bool.eq_false_iff.2 ends)
    unfold escapeChar
    repeat (split; · decide)
    exact plain

/-- So an escaped text can stand in a record. -/
theorem Literal.unbroken_escape (cs : List Char) : Unbroken (escape cs) := by
  intro c hc
  obtain ⟨d, -, hc⟩ := List.mem_flatMap.1 hc
  exact unbroken_escapeChar d c hc

/-- A literal is written without line breaks, whatever it holds. -/
theorem Literal.unbroken_text (l : Literal) : Unbroken l.text.toList := by
  rw [text, String.toList_ofList]
  cases l with
  | int v => exact unbroken_intChars _
  | real x => exact unbroken_real x
  | bool b => cases b <;> decide
  | char c => exact .cons rfl ((unbroken_escapeChar c).append (by decide))
  | string s => exact .cons rfl ((unbroken_escape _).append (by decide))
  | null => decide

/-! ### Modules whose names and ranges can be written -/

/-- No range in the expression is inverted. -/
inductive Expr.Writable : Expr → Prop
  | intro {e : Expr} (ordered : e.span.start ≤ e.span.stop)
    (parts : ∀ c ∈ e.kind.parts, Expr.Writable c) : Expr.Writable e

/-- The names in the statement are free of line breaks, and its ranges are not inverted. -/
inductive Stmt.Writable : Stmt → Prop
  | intro {s : Stmt} (names : ∀ n ∈ s.kind.naming, Unbroken n.toList)
    (ordered : s.span.start ≤ s.span.stop) (exprs : ∀ e ∈ s.kind.exprs .executable, e.Writable)
    (lists : ∀ b ∈ s.kind.lists, ∀ t ∈ b.2, Stmt.Writable t)
    (branch : ∀ t ∈ s.elseBranch?, Stmt.Writable t) : Stmt.Writable s

/-- The names in the member are free of line breaks, and its ranges are not inverted. -/
structure Member.Writable (x : Member) : Prop where
  name : Unbroken x.name.toList
  formals : ∀ v ∈ x.formals, Unbroken v.name.toList
  ordered : x.span.start ≤ x.span.stop
  block : ∀ d, x = .method d → ∀ b ∈ d.body, ∀ s ∈ b.stmts, s.Writable
  value : ∀ f, x = .function f → ∀ e ∈ f.body, e.Writable

/-- The names in the module are free of line breaks, and its ranges are not inverted. -/
structure Module.Writable (m : Module) : Prop where
  members : ∀ d ∈ m.decls, ∀ x ∈ d.members, x.Writable
  ctors : ∀ d ∈ m.datatypes, ∀ c ∈ d.ctors, Unbroken c.name.toList

/-- A span that can be written starts no later than it stops. -/
theorem Expr.Writable.ordered {e : Expr} (h : e.Writable) : e.span.start ≤ e.span.stop := by
  cases h
  assumption

namespace Stmt.Writable

variable {s : Stmt}

/-- The names that a statement declares can stand in a record. -/
theorem names (h : s.Writable) : ∀ n ∈ s.kind.naming, Unbroken n.toList := by
  cases h
  assumption

theorem ordered (h : s.Writable) : s.span.start ≤ s.span.stop := by
  cases h
  assumption

/-- A statement that can be written has an `else` branch that can be. -/
theorem branch (h : s.Writable) : ∀ t ∈ s.elseBranch?, t.Writable := by
  cases h
  assumption

end Stmt.Writable

/-- That spans and names can be written is handed down to all parts. -/
theorem hereditary_writable : Hereditary Member.Writable Stmt.Writable Expr.Writable where
  block := fun d h => h.block d rfl
  value := fun f h => h.value f rfl
  exprs := fun s h => by
    cases h
    assumption
  lists := fun s h => by
    cases h
    assumption
  branch := fun _ h => h.branch
  parts := fun e h => by
    cases h
    assumption

namespace Module.Writable

variable {m : Module} {n : String}

/-- The name of a member of some declaration can stand in a record. -/
theorem member (h : m.Writable) (hn : ∃ d ∈ m.decls, ∃ x ∈ d.members, x.name = n) :
    Unbroken n.toList := by
  obtain ⟨d, hd, x, hx, rfl⟩ := hn
  exact (h.members d hd x hx).name

/-- So can the name of a constructor of some datatype. -/
theorem ctor (h : m.Writable) (hn : ∃ d ∈ m.datatypes, ∃ c ∈ d.ctors, c.name = n) :
    Unbroken n.toList := by
  obtain ⟨d, hd, c, hc, rfl⟩ := hn
  exact h.ctors d hd c hc

end Module.Writable

/-! ### Proposals -/

section

variable {m : Module} {v : View} {e : Expr} {kind : Kind}

/-- A candidate at an anchor can be written when its argument can. -/
theorem View.atAnchor_writable {as : List String} (h : ∀ a ∈ as, Unbroken a.toList) :
    ∀ c ∈ View.atAnchor e kind as, c.Writable := by
  intro c hc
  obtain ⟨a, ha, rfl⟩ := List.mem_map.1 hc
  exact ⟨trivial, h a ha⟩

/-- A candidate at a range can be written when the range is ordered and its argument can. -/
theorem View.atRange_writable {span : Span} (ordered : span.start ≤ span.stop) {as : List String}
    (h : ∀ a ∈ as, Unbroken a.toList) : ∀ c ∈ View.atRange span kind as, c.Writable := by
  intro c hc
  obtain ⟨a, ha, rfl⟩ := List.mem_map.1 hc
  exact ⟨ordered, h a ha⟩

/-- An argument that is given on a condition needs to be written only then. -/
theorem View.argumentIf_unbroken {condition : Bool} {a : String}
    (h : condition = true → Unbroken a.toList) :
    ∀ b ∈ View.argumentIf condition a, Unbroken b.toList := by
  intro b hb
  obtain ⟨holds, rfl⟩ := View.mem_argumentIf.1 hb
  exact h holds

theorem Text.unbroken_natText (n : Nat) : Unbroken (natText n).toList := by
  rw [natText, String.toList_ofList]
  exact unbroken_natChars n

/-- The texts of literals can stand in a record. -/
theorem Text.unbroken_texts {as : List String} {ls : List Literal} (h : as = ls.map Literal.text) :
    ∀ a ∈ as, Unbroken a.toList := by
  intro a ha
  subst h
  obtain ⟨l, -, rfl⟩ := List.mem_map.1 ha
  exact l.unbroken_text

/-- The name of an operator can stand in a record. -/
theorem UnaryOp.unbroken_name (op : UnaryOp) : Unbroken op.name.toList := by
  cases op <;> decide

theorem BinaryOp.unbroken_name (op : BinaryOp) : Unbroken op.name.toList := by
  cases op <;> decide

theorem InitForm.unbroken_name (form : InitForm) : Unbroken form.name.toList := by
  cases form <;> decide

/-- The names that a view knows are free of line breaks. -/
structure View.Clear (m : Module) (v : View) : Prop where
  declarations : v.declarations = m.declarations
  scope : ∀ b ∈ v.scope.bindings, Unbroken b.name.toList

namespace View

/-- A name that is found in scope can stand in a record. -/
theorem Clear.found (h : v.Clear m) {n : String} {b : Binding} (found : v.scope.lookup n = some b) :
    Unbroken n.toList := by
  have mem := List.mem_of_find?_eq_some found
  have same : (b.name == n) = true := List.find?_some (p := fun b : Binding => b.name == n) found
  exact beq_iff_eq.1 same ▸ h.scope b mem

/-- The replacements for a name are names in scope or of members, so they can be written. -/
theorem name_writable (h : v.Clear m) (n : String) : ∀ c ∈ v.name e n, c.Writable := by
  refine List.forall_mem_append.2 ⟨List.forall_mem_append.2 ⟨?_, ?_⟩, ?_⟩
  · refine atAnchor_writable fun a ha => ?_
    obtain ⟨op, -, rfl⟩ := List.mem_map.1 ha
    exact op.unbroken_name
  · refine atAnchor_writable fun a ha => ?_
    obtain ⟨b, hb, rfl⟩ := List.mem_map.1 ha
    exact h.scope b (Scope.mem_firsts (List.mem_filter.1 hb).1)
  · refine atAnchor_writable (argumentIf_unbroken fun hides => ?_)
    simp only [hidesField, Bool.and_eq_true] at hides
    obtain ⟨b, found⟩ := Option.isSome_iff_exists.1 hides.1.2
    exact h.found found

/-- The replacements for a binary expression can be written: operators, sides and constants. -/
theorem binary_writable (op : BinaryOp) (l r : Expr) : ∀ c ∈ View.binary e op l r, c.Writable := by
  refine List.forall_mem_append.2 ⟨List.forall_mem_append.2 ⟨?_, ?_⟩, ?_⟩
  · refine atAnchor_writable fun a ha => ?_
    obtain ⟨new, -, rfl⟩ := List.mem_map.1 ha
    exact new.unbroken_name
  · refine atAnchor_writable ?_
    split <;> decide
  · exact atAnchor_writable (List.forall_mem_append.2
      ⟨argumentIf_unbroken fun _ => by decide, argumentIf_unbroken fun _ => by decide⟩)

/-- The replacements for a field are fields of its class. -/
theorem member_writable (h : v.Clear m) (writable : m.Writable) (r : Expr) (field : String) :
    ∀ c ∈ v.member e r field, c.Writable := by
  refine List.forall_mem_append.2 ⟨?_, ?_⟩
  · refine atAnchor_writable (argumentIf_unbroken fun hidden => ?_)
    obtain ⟨b, found, -⟩ := (Option.any_eq_true _ _).1 (Bool.and_eq_true_iff.1 hidden).2
    exact h.found found
  · refine atAnchor_writable fun a ha => ?_
    rw [h.declarations] at ha
    split at ha
    · exact writable.member (Declarations.exists_field ha).2
    · cases ha

/-- The replacements for a call are callables of its class and positions of arguments. -/
theorem call_writable (h : v.Clear m) (writable : m.Writable) (ordered : e.span.start ≤ e.span.stop)
    (r : Option Expr) (method : String) (args : List Expr) :
    ∀ c ∈ v.call e r method args, c.Writable := by
  refine List.forall_mem_append.2 ⟨List.forall_mem_append.2 ⟨List.forall_mem_append.2
    ⟨?_, ?_⟩, ?_⟩, ?_⟩ <;> refine atRange_writable ordered ?_
  · intro a ha
    split at ha
    · obtain ⟨i, -, rfl⟩ := List.mem_map.1 ha
      exact unbroken_natText _
    · cases ha
  · exact argumentIf_unbroken fun _ => unbroken_nil
  · intro a ha
    rw [h.declarations] at ha
    split at ha
    · exact writable.member (Declarations.exists_callable ha).2
    · cases ha
  · intro a ha
    obtain ⟨i, j, -, -, -, -, -, -, rfl⟩ := View.mem_equalPairs ha
    rw [String.toList_append, String.toList_append]
    exact ((unbroken_natText i).append (by decide)).append (unbroken_natText j)

/-- What is proposed for an expression can be written. -/
theorem expr_writable (h : v.Clear m) (writable : m.Writable) (he : e.Writable) :
    ∀ c ∈ v.expr e, c.Writable := by
  refine List.forall_mem_append.2 ⟨?_, ?_⟩
  · unfold View.shape
    split
    · exact atAnchor_writable (unbroken_texts rfl)
    · exact name_writable h _
    · exact binary_writable _ _ _
    · exact atAnchor_writable (argumentIf_unbroken fun _ => unbroken_nil)
    · exact member_writable h writable _ _
    · refine atAnchor_writable fun a ha => ?_
      split at ha
      · unfold View.otherComponents at ha
        split at ha
        · cases ha
        · obtain ⟨i, -, rfl⟩ := List.mem_map.1 ha
          exact unbroken_natText _
      · cases ha
    · exact call_writable h writable he.ordered _ _ _
    · refine atRange_writable he.ordered fun a ha => ?_
      obtain ⟨form, -, rfl⟩ := List.mem_map.1 ha
      exact form.unbroken_name
    · refine atRange_writable he.ordered fun a ha => ?_
      obtain ⟨form, -, rfl⟩ := List.mem_map.1 ha
      exact form.unbroken_name
    · refine atAnchor_writable fun a ha => ?_
      rw [h.declarations] at ha
      exact writable.ctor (Declarations.exists_ctor ha).2
    · exact List.forall_mem_nil _
  · unfold View.default
    split
    · exact atRange_writable he.ordered (unbroken_texts rfl)
    · exact List.forall_mem_nil _

end View

end

section

variable {s : Stmt}

/-- The ranges along an `else if` chain are not inverted. -/
theorem Stmt.Writable.ifSpans (h : s.Writable) : ∀ span ∈ s.ifSpans, span.start ≤ span.stop := by
  induction s using Stmt.induct with
  | step s _ ih =>
    have ordered := h.ordered
    have branch := h.branch
    obtain ⟨kind, span, ghost⟩ := s
    cases kind with
    | ifElse guard thenBranch elseBranch =>
      refine List.forall_mem_cons.2 ⟨ordered, ?_⟩
      cases elseBranch with
      | none => exact List.forall_mem_nil _
      | some t => exact ih t rfl (branch t rfl)
    | _ => exact List.forall_mem_nil _

/-- Values joined by semicolons can stand in a record. -/
theorem Literal.unbroken_join (ls : List Literal) :
    Unbroken (joinWith ";" (ls.map text)).toList := by
  rw [toList_joinWith]
  have each (l : Literal) : Unbroken l.chars := by
    simpa only [text, String.toList_ofList] using l.unbroken_text
  induction ls with
  | nil => exact unbroken_nil
  | cons l ls ih =>
    cases ls with
    | nil => simpa using each l
    | cons next ls =>
      rw [List.map_cons, List.map_cons, List.intercalate_cons_cons]
      exact ((each l).append (by decide)).append ih

/-- So the values that a `return` may be given can be written. -/
theorem Stmt.returnText?_unbroken {values : List Expr} {a : String}
    (h : Stmt.returnText? values = some a) : Unbroken a.toList := by
  simp only [Stmt.returnText?, Option.bind_eq_bind, Option.bind_eq_some_iff] at h
  obtain ⟨defaults, -, h⟩ := h
  split at h
  · cases h
  · cases h
    exact Literal.unbroken_join defaults

/-- The cases of a `match` are named by constructors or by positions. -/
theorem Stmt.matchProposals_writable {span : Span} (ordered : span.start ≤ span.stop)
    {cases : List MatchCase}
    (names : ∀ c ∈ cases, ∀ n ∈ c.pattern.ctor?, Unbroken n.toList) :
    ∀ c ∈ Stmt.matchProposals span cases, c.Writable := by
  refine List.forall_mem_append.2 ⟨View.atRange_writable ordered fun a ha => ?_,
    View.atRange_writable ordered fun a ha => ?_⟩
  · split at ha
    · obtain ⟨⟨c, i⟩, mem, named⟩ := List.mem_filterMap.1 ha
      dsimp only at named
      split at named
      · rename_i found
        split at named
        · cases named
          exact names c (List.mem_of_getElem? (List.mem_zipIdx_iff_getElem?.1 mem)) _ found
        · cases named
      · cases named
    · cases ha
  · obtain ⟨i, -, rfl⟩ := List.mem_map.1 ha
    exact unbroken_natText _

/-- What is proposed for an element of a list can be written. -/
theorem Stmt.proposals_writable (h : s.Writable) : ∀ c ∈ s.proposals, c.Writable := by
  have ordered := h.ordered
  have names := h.names
  have links := h.ifSpans
  have plain {kind : Kind} {span : Span} (ordered : span.start ≤ span.stop) :
      ∀ c ∈ View.atRange span kind [""], c.Writable :=
    View.atRange_writable ordered (List.forall_mem_singleton.2 unbroken_nil)
  have word {kind : Kind} {a : String} (fixed : Unbroken a.toList) :
      ∀ c ∈ View.atRange s.span kind [a], c.Writable :=
    View.atRange_writable ordered (List.forall_mem_singleton.2 fixed)
  refine List.forall_mem_append.2 ⟨?_, ?_⟩
  · split
    · exact List.forall_mem_nil _
    · exact plain ordered
  · obtain ⟨kind, span, ghost⟩ := s
    cases kind with
    | varDecl d =>
      refine View.atRange_writable ordered fun a ha => ?_
      obtain ⟨v, hv, rfl⟩ := List.mem_map.1 ha
      exact names _ (List.mem_map_of_mem (List.mem_filter.1 hv).1)
    | ret values =>
      refine View.atRange_writable ordered fun a ha => ?_
      exact Stmt.returnText?_unbroken (Option.mem_toList.1 ha)
    | ifElse guard thenBranch elseBranch =>
      refine List.forall_mem_append.2 ⟨List.forall_mem_append.2 ⟨word (by decide), ?_⟩, ?_⟩
      · split
        · exact List.forall_mem_append.2 ⟨word (by decide), plain ordered⟩
        · exact List.forall_mem_nil _
      · intro c hc
        obtain ⟨link, mem, hc⟩ := List.mem_flatMap.1 hc
        exact plain (links link (List.mem_cons_of_mem _ mem)) c hc
    | whileLoop | forLoop => exact plain ordered
    | matchOn source cases =>
      refine Stmt.matchProposals_writable ordered fun c hc n hn => names n ?_
      exact List.mem_flatMap.2 ⟨c, hc, List.mem_append_left _ (Option.mem_toList.2 hn)⟩
    | _ => exact List.forall_mem_nil _

/-- Two declarations are exchanged by the range of the second. -/
theorem Stmt.exchanges_writable {list : List Stmt} (h : ∀ s ∈ list, s.Writable) :
    ∀ c ∈ Stmt.exchanges list, c.Writable := by
  intro c hc
  obtain ⟨s, t, -, -, sub, -, -, -, rfl⟩ := Stmt.mem_exchanges hc
  refine ⟨(h s (sub.subset List.mem_cons_self)).ordered, ?_⟩
  rw [Location.text, String.toList_ofList]
  exact Location.unbroken_chars _

/-- Two methods are exchanged by the name of the second. -/
theorem Member.exchanges_writable {list : List Member} (h : ∀ x ∈ list, x.Writable) :
    ∀ c ∈ Member.exchanges list, c.Writable := by
  have method {d : Method} (hd : d ∈ list.filterMap Member.method?) : Member.Writable (.method d) := by
    obtain ⟨x, hx, same⟩ := List.mem_filterMap.1 hd
    cases x <;> cases same
    exact h _ hx
  intro c hc
  obtain ⟨a, b, sub, -, -, -, rfl⟩ := Member.mem_exchanges hc
  exact ⟨(method (sub.subset List.mem_cons_self)).ordered,
    (method (sub.subset (List.mem_cons_of_mem _ List.mem_cons_self))).name⟩

end

/-! ### Scans -/

namespace Scan

/-- The names that a scan knows are free of line breaks, and its candidates can be written. -/
structure Clear (m : Module) (s : Scan) : Prop where
  view : s.view.Clear m
  index : ∀ v ∈ s.index, Unbroken v.name.toList
  candidates : ∀ c ∈ s.candidates, c.Writable

namespace Clear

variable {m : Module} {o : ScanOptions} {s : Scan}

/-- Proposals that can be written keep a scan writable. -/
theorem emit (h : s.Clear m) {new : List Candidate} (writable : ∀ c ∈ new, c.Writable) :
    (s.emit o new).Clear m :=
  ⟨⟨h.view.declarations, h.view.scope⟩, h.index, List.forall_mem_append.2
    ⟨h.candidates, fun c hc => writable c (List.mem_filter.1 hc).1⟩⟩

/-- Binding a name that can be written keeps it so. -/
theorem bind (h : s.Clear m) {b : Binding} (hb : Unbroken b.name.toList) : (s.bind b).Clear m :=
  ⟨⟨h.view.declarations, List.forall_mem_cons.2 ⟨hb, h.view.scope⟩⟩, h.index, h.candidates⟩

theorem declare (h : s.Clear m) (origin : Origin) {vars : List Variable}
    (hv : ∀ v ∈ vars, Unbroken v.name.toList) : (s.declare origin vars).Clear m := by
  have kept : ∀ v ∈ vars.filter fun v => !v.ghost, Unbroken v.name.toList :=
    fun v mem => hv v (List.mem_filter.1 mem).1
  unfold Scan.declare
  generalize vars.filter (fun v => !v.ghost) = kept' at kept
  induction kept' generalizing s with
  | nil => exact h
  | cons v vars ih =>
    obtain ⟨first, rest⟩ := List.forall_mem_cons.1 kept
    exact ih (h.bind first) rest

theorem bindAll (h : s.Clear m) {bindings : List (String × Ty)}
    (hb : ∀ b ∈ bindings, Unbroken b.1.toList) :
    (bindings.foldl (fun s (name, ty) => s.bind ⟨name, ty, .patternVar⟩) s).Clear m := by
  induction bindings generalizing s with
  | nil => exact h
  | cons b bindings ih =>
    obtain ⟨first, rest⟩ := List.forall_mem_cons.1 hb
    exact ih (h.bind first) rest

theorem openScope (h : s.Clear m) : s.openScope.Clear m := ⟨h.view, h.index, h.candidates⟩

/-- Closing a scope only takes names away. -/
theorem closeScope (h : s.Clear m) : s.closeScope.Clear m := by
  unfold Scan.closeScope
  split
  · exact h
  · exact ⟨⟨h.view.declarations, fun b hb => h.view.scope b (List.mem_of_mem_drop hb)⟩, h.index,
      h.candidates⟩

theorem enterStmt (h : s.Clear m) {st : Stmt} (hs : st.Writable) : (s.enterStmt st).Clear m := by
  have names := hs.names
  obtain ⟨kind, span, ghost⟩ := st
  cases kind with
  | ifElse guard thenBranch elseBranch =>
    cases elseBranch <;> exact ⟨h.view, h.index, h.candidates⟩
  | forLoop index start stop ascending invariants body =>
    refine ⟨h.view, fun v hv => ?_, h.candidates⟩
    cases hv
    exact names _ List.mem_cons_self
  | expr e => exact ⟨⟨h.view.declarations, h.view.scope⟩, h.index, h.candidates⟩
  | _ => exact h

/-- Entering a node that can be written proposes what can be written. -/
theorem enter (h : s.Clear m) (writable : m.Writable) {node : Node}
    (hn : node.All Member.Writable Stmt.Writable Expr.Writable) : (s.enter o node).Clear m := by
  have opened (b : Bool) :
      Clear m { s.openScope with view := { s.openScope.view with inStatic := b } } :=
    ⟨⟨h.view.declarations, h.view.scope⟩, h.index, h.candidates⟩
  cases node with
  | module | field => exact h
  | «class» | datatype => exact ⟨⟨h.view.declarations, h.view.scope⟩, h.index, h.candidates⟩
  | method d =>
    obtain ⟨params, outs⟩ := List.forall_mem_append.1 hn.formals
    exact ((opened d.isStatic).declare .param params).declare .out outs
  | function f => exact (opened f.isStatic).declare .param hn.formals
  | block b =>
    have declared : (s.openScope.declare .loopIndex s.index.toList).Clear m :=
      h.openScope.declare .loopIndex fun v hv => h.index v (Option.mem_toList.1 hv)
    exact ⟨declared.view, nofun, declared.candidates⟩
  | stmt st =>
    simp only [Scan.enter]
    split
    · exact h.enterStmt hn
    · exact (h.enterStmt hn).emit (Stmt.proposals_writable hn)
  | case c =>
    obtain ⟨st, source, cases, hs, same, mem⟩ := hn
    refine h.openScope.bindAll fun b hb => hs.names _ ?_
    rw [same]
    exact List.mem_flatMap.2 ⟨c, mem, List.mem_append_right _ (List.mem_map_of_mem hb)⟩
  | expr e => exact h.emit (View.expr_writable h.view writable hn)

/-- Leaving a node may declare its names, and proposes nothing. -/
theorem leave (h : s.Clear m) {node : Node}
    (hn : node.All Member.Writable Stmt.Writable Expr.Writable) : (s.leave node).Clear m := by
  have closed : Clear m { s.closeScope with view := { s.closeScope.view with inStatic := false } } :=
    ⟨⟨h.closeScope.view.declarations, h.closeScope.view.scope⟩, h.closeScope.index,
      h.closeScope.candidates⟩
  cases node with
  | module | field | expr => exact h
  | «class» | datatype => exact ⟨⟨h.view.declarations, h.view.scope⟩, h.index, h.candidates⟩
  | method | function => exact closed
  | block | case => exact h.closeScope
  | stmt st =>
    have names := Stmt.Writable.names hn
    obtain ⟨kind, span, ghost⟩ := st
    cases kind with
    | varDecl d => exact h.declare .local fun v hv => names _ (List.mem_map_of_mem hv)
    | expr e => exact ⟨⟨h.view.declarations, h.view.scope⟩, h.index, h.candidates⟩
    | _ => exact h

/-- Each hook call of a scan keeps it writable. -/
theorem step (h : s.Clear m) (writable : m.Writable) {e : Event}
    (he : e.All Member.Writable Stmt.Writable Expr.Writable) : (s.step o e).Clear m := by
  cases e with
  | visit node => exact h.enter writable he
  | leave node => exact h.leave he
  | stmtList list => exact h.emit (Stmt.exchanges_writable he)
  | memberList list => exact h.emit (Member.exchanges_writable he)
  | _ => exact h

end Clear

end Scan

/-- Every candidate of a scan can be written. -/
theorem Module.scan_writable {m : Module} (writable : m.Writable) (o : ScanOptions) :
    ∀ c ∈ m.scan o, c.Writable := by
  have start : (m.startScan o).Clear m := ⟨⟨rfl, List.forall_mem_nil _⟩, nofun, List.forall_mem_nil _⟩
  have course := hereditary_writable.course writable.members
  have last : ((m.startScan o).follow o m.course).Clear m :=
    Scan.follow_invariant (fun e he s hs => hs.step writable (course e he)) start
  rw [Module.scan_eq_course]
  exact last.candidates

/-- What candidate files hold: at first nothing, later what scans have appended. -/
inductive CandidateFile.Gathered : List Char → Prop
  | empty : Gathered []
  | append {content : List Char} {m : Module} (before : Gathered content) (writable : m.Writable)
      (o : ScanOptions) : Gathered (content ++ chars (m.scan o))

/-- What has been gathered in a file is the text of some candidates that can be written. -/
theorem CandidateFile.Gathered.exists_chars {content : List Char} (h : Gathered content) :
    ∃ list : List Candidate, (∀ c ∈ list, c.Writable) ∧ content = chars list := by
  induction h with
  | empty => exact ⟨[], List.forall_mem_nil _, rfl⟩
  | append _ writable o ih =>
    obtain ⟨list, all, rfl⟩ := ih
    exact ⟨list ++ _, List.forall_mem_append.2 ⟨all, Module.scan_writable writable o⟩,
      (chars_append _ _).symm⟩

/-- A file that holds what scans have appended can be read, and after a further scan it is read as
the same candidates, followed by those of the scan. -/
theorem Module.read_scan {m : Module} {content : List Char}
    (gathered : CandidateFile.Gathered content) (writable : m.Writable) (o : ScanOptions)
    (path : String) :
    ∃ before, CandidateFile.read path content = .ok before ∧
      CandidateFile.read path (content ++ CandidateFile.chars (m.scan o)) =
        .ok (before ++ m.scan o) := by
  obtain ⟨before, all, rfl⟩ := gathered.exists_chars
  have both := List.forall_mem_append.2 ⟨all, Module.scan_writable writable o⟩
  refine ⟨before, CandidateFile.read_chars all path, ?_⟩
  rw [← CandidateFile.chars_append, CandidateFile.read_chars both path]

/-- A method that prints an empty text and one with a line break, a comma and a quote. -/
def Module.quoting : Module :=
  ⟨"m", [.class
    { name := "C"
      span := .range 0 20
      members := [.method
        { name := "f"
          params := []
          span := .range 1 19
          body := some ⟨[⟨.print [⟨.literal (.string ""), .range 5 5, .string⟩,
            ⟨.literal (.string "a\r\n,\""), .range 7 7, .string⟩], .range 4 8, false⟩],
            .range 3 18⟩ }] }]⟩

/-- The literal of the module is escaped when it is proposed. -/
theorem Module.quoting_writable : quoting.Writable where
  members := by
    intro d hd x hx
    obtain rfl := List.mem_singleton.1 hd
    obtain rfl := List.mem_singleton.1 hx
    refine ⟨by decide, List.forall_mem_nil _, by decide, ?_, nofun⟩
    rintro _ ⟨rfl⟩ _ ⟨rfl⟩ s hs
    obtain rfl := List.mem_singleton.1 hs
    refine .intro (List.forall_mem_nil _) (by decide) ?_ (List.forall_mem_nil _) nofun
    exact List.forall_mem_cons.2 ⟨.intro (by decide) (List.forall_mem_nil _),
      List.forall_mem_singleton.2 (.intro (by decide) (List.forall_mem_nil _))⟩
  ctors := List.forall_mem_nil _

/-- The file of a scan is read after a second scan, whose sentinel is a line break. -/
theorem Module.quoting_read :
    CandidateFile.Gathered ([] ++ CandidateFile.chars (quoting.scan {})) ∧ quoting.Writable ∧
      ∃ before,
        CandidateFile.read "c" ([] ++ CandidateFile.chars (quoting.scan {})) = .ok before ∧
          CandidateFile.read "c" ([] ++ CandidateFile.chars (quoting.scan {}) ++
            CandidateFile.chars (quoting.scan { sentinel := "\r\n" })) =
              .ok (before ++ quoting.scan { sentinel := "\r\n" }) := by
  have first : CandidateFile.Gathered ([] ++ CandidateFile.chars (quoting.scan {})) :=
    .append .empty quoting_writable {}
  exact ⟨first, quoting_writable, Module.read_scan first quoting_writable _ "c"⟩

end Mutation
