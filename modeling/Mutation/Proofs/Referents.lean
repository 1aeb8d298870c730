import Mutation.Proofs.Course
import Mutation.Proofs.FirstSlot
import Mutation.Proofs.FreeNames
import Mutation.Proofs.Scoping

/-!
# What a name refers to

`Module.scoping` is the scoping of a module, with the ranges of names and variables for places:
parameters and results are in scope in their member, a local behind its declaration up to the end
of its list, an index in its loop and the variables of a pattern in their case. Ghost variables and
specifications count, and a name that nothing binds is a field.

Six kinds of operators end statements, take them out or move them: `Kind.restructures`. What they
put in the place of a statement is the statement, pruned (`Operator.prunes_onStmt`), by one lemma
for each operator. A body that declares locals stays a block, so what it declares stays in it; a
body that declares none may be opened; and a case loses the variables of its pattern only when it
uses none of them. Pruning an element prunes the tree around it (`Exchanged.prunes`), so every name
that is left in the module refers to what it referred to (`Module.mutate_referents`).
-/

namespace Mutation

namespace Expr

/-- The nodes of an expression are the expression and the nodes of its parts. -/
theorem nodes_eq (e : Expr) : e.nodes = e :: e.kind.parts.flatMap nodes := by
  obtain ⟨kind, span, ty⟩ := e
  have parts : (placesList .everything kind.parts).filterMap Place.expr? =
      kind.parts.flatMap nodes := by
    induction kind.parts with
    | nil => rfl
    | cons e es ih => rw [placesList, List.filterMap_append, ih, List.flatMap_cons, nodes]
  have worth : Coverage.everything.worth span = true := rfl
  rw [nodes, places_mk, if_pos worth, List.filterMap_cons, Place.expr?]
  dsimp only
  congr 1
  rw [ExprKind.places_everything, parts]

/-- The uses of names in an expression, with their ranges. -/
def uses (e : Expr) : List (Span × String) :=
  e.nodes.filterMap fun x => x.name?.map fun name => (x.span, name)

/-- So are the names it uses, each with its span. -/
theorem uses_eq (e : Expr) :
    e.uses = (e.name?.map fun name => (e.span, name)).toList ++ e.kind.parts.flatMap uses := by
  have parts (es : List Expr) : ((es.flatMap nodes).filterMap fun x =>
      x.name?.map fun name => (x.span, name)) = es.flatMap uses := by
    induction es with
    | nil => rfl
    | cons e es ih => rw [List.flatMap_cons, List.filterMap_append, ih, List.flatMap_cons, uses]
  rw [uses, nodes_eq, ← parts, List.filterMap_cons]
  cases e.name? <;> rfl

/-- These are the names that occur in it. -/
theorem map_uses (e : Expr) : e.uses.map (·.2) = e.names := by
  induction e using Expr.induct with
  | step e ih =>
    obtain ⟨kind, span, ty⟩ := e
    rw [uses_eq]
    by_cases name : ∃ n, kind = .name n
    · obtain ⟨n, rfl⟩ := name
      rfl
    · have notName := fun n hn => name ⟨n, hn⟩
      have none : (Expr.mk kind span ty).name? = none := by
        cases kind with
        | name n => exact absurd rfl (notName n)
        | _ => rfl
      rw [none, Expr.names, ExprKind.names_eq notName, namesList_eq]
      simp only [Option.map_none, Option.toList_none, List.nil_append, List.map_flatMap]
      exact List.flatMap_congr fun c hc => ih c hc

/-- The names used, spans aside, are the names listed. -/
theorem map_flatMap_uses (es : List Expr) : (es.flatMap uses).map (·.2) = namesList es := by
  rw [List.map_flatMap, namesList_eq]
  exact List.flatMap_congr fun c _ => c.map_uses

/-- The scoping of expressions: uses only. -/
def scoping (es : List Expr) : Scoping Span := .ofUses (es.flatMap uses)

/-- What expressions use is what they name. -/
@[simp] theorem names_scoping (es : List Expr) : (scoping es).names = namesList es := by
  rw [scoping, Scoping.names_ofUses, map_flatMap_uses]

/-- Expressions bind nothing. -/
@[simp] theorem binders_scoping (es : List Expr) : (scoping es).binders = [] :=
  Scoping.binders_ofUses _

end Expr

/-- Variables that are bound one after the other. -/
def Variable.scoping (origin : Origin) (vars : List Variable) : Scoping Span :=
  .ofBinders origin (vars.map fun v => (v.span, v.name))

/-- A declaration binds its variables. -/
@[simp] theorem Variable.binders_scoping (origin : Origin) (vars : List Variable) :
    (Variable.scoping origin vars).binders = vars.map (·.name) := by
  simp [Variable.scoping, Function.comp_def]

mutual
/-- The scoping of a statement. The locals of a declaration are in scope behind its values. -/
def Stmt.scoping : Stmt → Scoping Span
  | ⟨kind, _, _⟩ => kind.scoping

def StmtKind.scoping : StmtKind → Scoping Span
  | .varDecl d => Expr.scoping d.values ++ Variable.scoping .local d.locals
  | .update u => Expr.scoping (u.targets ++ u.values)
  | .expr e | .assert e | .assume e => Expr.scoping [e]
  | .ret es | .print es => Expr.scoping es
  | .ifElse guard thenBranch elseBranch =>
    Expr.scoping guard.toList ++ thenBranch.scoping ++ Stmt.scopingElse elseBranch
  | .whileLoop guard invariants decreases body =>
    Expr.scoping (guard.toList ++ invariants ++ decreases) ++ body.scoping
  | .forLoop index start stop _ invariants body =>
    Expr.scoping (start :: stop.toList) ++
      .scope (.bind index.span .loopIndex index.name (Expr.scoping invariants ++ body.scoping)) .done
  | .breakLoop | .continueLoop => .done
  | .block b => b.scoping
  | .matchOn source cases => Expr.scoping [source] ++ MatchCase.scopingList cases

/-- The scoping of a block: what is declared in it stays in it. -/
def Block.scoping : Block → Scoping Span
  | ⟨list, _⟩ => .scope (Stmt.scopingList list) .done

def Stmt.scopingList : List Stmt → Scoping Span
  | [] => .done
  | s :: list => s.scoping ++ Stmt.scopingList list

/-- The scoping of an `else` branch. -/
def Stmt.scopingElse : Option Stmt → Scoping Span
  | none => .done
  | some branch => .scope branch.scoping .done

/-- The scoping of the cases of a match, each with the variables of its pattern. -/
def MatchCase.scopingList : List MatchCase → Scoping Span
  | [] => .done
  | ⟨pattern, body, span⟩ :: cases =>
    .scope (.ofBinders .patternVar (pattern.names.map fun n => (span, n)) ++ Stmt.scopingList body)
      (MatchCase.scopingList cases)
end

/-- The scoping of a member: its parameters and results are in scope in its contract and its
body. -/
def Member.scoping : Member → Scoping Span
  | .field _ => .done
  | .method m =>
    .scope (Variable.scoping .param m.params ++ Variable.scoping .out m.outs ++
      Expr.scoping m.contract.clauses.flatten ++ (m.body.map Block.scoping).getD .done) .done
  | .function f =>
    .scope (Variable.scoping .param f.params ++
      Expr.scoping (f.contract.clauses.flatten ++ f.body.toList)) .done

/-- The scoping of some members. -/
def Member.scopingList : List Member → Scoping Span
  | [] => .done
  | x :: members => x.scoping ++ Member.scopingList members

/-- The scoping of some declarations. -/
def Decl.scopingList : List Decl → Scoping Span
  | [] => .done
  | d :: decls => Member.scopingList d.members ++ Decl.scopingList decls

/-- The scoping of a module. -/
def Module.scoping (m : Module) : Scoping Span := Decl.scopingList m.decls

/-- The uses and binders of two lists put together. -/
theorem Stmt.scopingList_append (list list' : List Stmt) :
    scopingList (list ++ list') = scopingList list ++ scopingList list' := by
  induction list with
  | nil => rfl
  | cons s list ih => simp only [List.cons_append, scopingList, ih, Scoping.append_assoc]

theorem MatchCase.scopingList_append (cases cases' : List MatchCase) :
    scopingList (cases ++ cases') = scopingList cases ++ scopingList cases' := by
  induction cases with
  | nil => rfl
  | cons c cases ih =>
    obtain ⟨pattern, body, span⟩ := c
    simp only [List.cons_append, scopingList, ih, Scoping.scope_append]

theorem Member.scopingList_append (members members' : List Member) :
    scopingList (members ++ members') = scopingList members ++ scopingList members' := by
  induction members with
  | nil => rfl
  | cons x members ih => simp only [List.cons_append, scopingList, ih, Scoping.append_assoc]

theorem Decl.scopingList_append (decls decls' : List Decl) :
    scopingList (decls ++ decls') = scopingList decls ++ scopingList decls' := by
  induction decls with
  | nil => rfl
  | cons d decls ih => simp only [List.cons_append, scopingList, ih, Scoping.append_assoc]

/-- A block binds nothing for what comes behind it. -/
@[simp] theorem Block.binders_scoping (b : Block) : b.scoping.binders = [] := by
  cases b
  rfl

/-- What a branch binds does not reach past it. -/
@[simp] theorem Stmt.binders_scopingElse (s : Option Stmt) : (scopingElse s).binders = [] := by
  cases s <;> rfl

/-- Nor does what a case binds. -/
@[simp] theorem MatchCase.binders_scopingList (cases : List MatchCase) :
    (scopingList cases).binders = [] := by
  induction cases with
  | nil => rfl
  | cons c cases ih =>
    obtain ⟨pattern, body, span⟩ := c
    exact ih

/-- A statement binds the names that it declares. -/
@[simp] theorem Stmt.binders_scoping (s : Stmt) : s.scoping.binders = s.declares := by
  obtain ⟨kind, span, ghost⟩ := s
  cases kind <;>
    simp [Stmt.scoping, StmtKind.scoping, Stmt.declares, VarDecl.names, Scoping.binders]

/-- A list binds what its own statements declare, nested ones not. -/
@[simp] theorem Stmt.binders_scopingList (list : List Stmt) :
    (scopingList list).binders = list.flatMap declares := by
  induction list with
  | nil => rfl
  | cons s list ih => rw [scopingList, Scoping.binders_append, ih, binders_scoping, List.flatMap_cons]

mutual
/-- The names that are used in a statement are those that occur in it. -/
@[simp] theorem Stmt.names_scoping : (s : Stmt) → s.scoping.names = s.names
  | ⟨kind, _, _⟩ => kind.names_scoping

/-- One case per form: the names used in it are the names listed. -/
theorem StmtKind.names_scoping : (kind : StmtKind) → kind.scoping.names = kind.names
  | .varDecl d => by
    obtain ⟨locals, init⟩ := d
    cases init <;>
      simp [StmtKind.scoping, StmtKind.names, Variable.scoping, VarDecl.values, VarDecl.valueNames,
        Expr.namesList]
  | .update u => by
    simp [StmtKind.scoping, StmtKind.names, Update.names, Expr.namesList_eq]
  | .expr e | .assert e | .assume e => by
    simp [StmtKind.scoping, StmtKind.names, Expr.namesList]
  | .ret es | .print es => Expr.names_scoping es
  | .ifElse guard thenBranch elseBranch => by
    cases guard <;>
      simp [StmtKind.scoping, StmtKind.names, thenBranch.names_scoping,
        Stmt.names_scopingElse elseBranch, Expr.namesList, Expr.namesOpt]
  | .whileLoop guard invariants decreases body => by
    cases guard <;>
      simp [StmtKind.scoping, StmtKind.names, body.names_scoping, Expr.namesList_eq, Expr.namesOpt]
  | .forLoop index start stop _ invariants body => by
    cases stop <;>
      simp [StmtKind.scoping, StmtKind.names, Scoping.names, body.names_scoping, Expr.namesList,
        Expr.namesOpt]
  | .breakLoop | .continueLoop => rfl
  | .block b => b.names_scoping
  | .matchOn source cases => by
    simp [StmtKind.scoping, StmtKind.names, MatchCase.names_scopingList cases, Expr.namesList]

/-- The same of a block. -/
theorem Block.names_scoping : (b : Block) → b.scoping.names = b.names
  | ⟨list, _⟩ => by
    simp [Block.scoping, Block.names, Scoping.names, Stmt.names_scopingList list]

/-- The same of a list. -/
theorem Stmt.names_scopingList : (list : List Stmt) →
    (Stmt.scopingList list).names = Stmt.namesList list
  | [] => rfl
  | s :: list => by
    rw [Stmt.scopingList, Scoping.names_append, s.names_scoping, Stmt.names_scopingList list,
      Stmt.namesList]

/-- The same of a branch that may be absent. -/
theorem Stmt.names_scopingElse : (s : Option Stmt) →
    (Stmt.scopingElse s).names = Stmt.namesOpt s
  | none => rfl
  | some branch => by
    simp [Stmt.scopingElse, Stmt.namesOpt, Scoping.names, branch.names_scoping]

/-- The same of the cases of a match. -/
theorem MatchCase.names_scopingList :
    (cases : List MatchCase) → (MatchCase.scopingList cases).names = MatchCase.namesList cases
  | [] => rfl
  | ⟨pattern, body, span⟩ :: cases => by
    simp [MatchCase.scopingList, MatchCase.namesList, Scoping.names,
      Stmt.names_scopingList body, MatchCase.names_scopingList cases]
end

open Scoping

/-! ### What an operator does to the scoping -/

theorem Stmt.scopingList_amend (s t : Stmt) :
    scopingList ((Change.amend t).edit.result s) = t.scoping := append_done _

theorem Stmt.scopingList_replace (s t : Stmt) :
    scopingList ((Change.replace t).edit.result s) = t.scoping := append_done _

/-- Only declarations of locals declare locals. -/
theorem Stmt.declares_of_not_isVarDecl {s : Stmt} (h : s.isVarDecl = false) : s.declares = [] := by
  obtain ⟨kind, span, ghost⟩ := s
  cases kind with
  | varDecl d => cases h
  | _ => rfl

/-- A block that declares locals stays a block. -/
theorem Block.prunes_inPlace (b : Block) (span : Span) (s : Stmt) :
    b.scoping.Prunes (Stmt.scopingList ((b.inPlace span).edit.result s)) := by
  obtain ⟨list, area⟩ := b
  unfold Block.inPlace
  split
  · rw [Stmt.scopingList_replace]
    exact .refl _
  · rename_i none
    have closed : (Stmt.scopingList list).binders = [] := by
      rw [Stmt.binders_scopingList, List.flatMap_eq_nil_iff]
      intro t ht
      refine Stmt.declares_of_not_isVarDecl (Bool.eq_false_iff.2 fun decl => none ?_)
      exact List.any_eq_true.2 ⟨t, ht, decl⟩
    have opened := Prunes.opened closed (.refl (Stmt.scopingList list)) .done
    rwa [append_done] at opened

/-- An `else` branch in place of its `if` is opened. -/
theorem Stmt.prunes_asElement {branch : Stmt} (hb : branch.isBranch) (s : Stmt) :
    (scopingElse (some branch)).Prunes (scopingList (branch.asElement.edit.result s)) := by
  have within : branch.scoping.Prunes (scopingList (branch.asElement.edit.result s)) := by
    obtain ⟨kind, span, ghost⟩ := branch
    cases kind with
    | block b => exact b.prunes_inPlace span s
    | ifElse guard thenBranch next =>
      rw [show asElement _ = .replace _ from rfl, scopingList_replace]
      exact .refl _
    | _ => cases hb
  have closed : (scopingList (branch.asElement.edit.result s)).binders = [] := by
    rw [within.binders, binders_scoping]
    obtain ⟨kind, span, ghost⟩ := branch
    cases kind with
    | varDecl d => cases hb
    | _ => rfl
  have opened := Prunes.opened closed within .done
  rwa [append_done] at opened

/-- A deleted statement takes its uses along; it declared nothing. -/
theorem Stmt.prunes_delete {s : Stmt} {change : Change} (h : s.delete = .done change) :
    s.scoping.Prunes (scopingList (change.edit.result s)) := by
  unfold Stmt.delete at h
  split at h <;> cases h
  rename_i other
  refine .nothing ?_
  rw [binders_scoping, declares_of_not_isVarDecl (by simpa using other)]

/-- A `break` uses and binds nothing. -/
theorem Stmt.prunes_insertBreak {s : Stmt} {change : Change} (h : s.insertBreak = .done change) :
    s.scoping.Prunes (scopingList (change.edit.result s)) := by
  obtain ⟨kind, span, ghost⟩ := s
  cases kind with
  | whileLoop guard invariants decreases body | forLoop index start stop up invariants body =>
    cases h
    obtain ⟨list, area⟩ := body
    rw [scopingList_amend]
    exact .refl _
  | _ => cases h

/-- New return values are literals, so uses only go. -/
theorem Stmt.prunes_setReturn {texts : List String} {s : Stmt} {change : Change}
    (h : s.setReturn texts = .done change) :
    s.scoping.Prunes (scopingList (change.edit.result s)) := by
  obtain ⟨kind, span, ghost⟩ := s
  cases kind with
  | ret values =>
    obtain ⟨-, h⟩ := Outcome.if_refused_iff.1 h
    split at h
    case h_2 => cases h
    case h_1 values' mapped =>
      cases h
      have unused : values'.flatMap Expr.uses = [] := by
        rw [List.flatMap_eq_nil_iff]
        intro e he
        obtain ⟨x, -, hx⟩ := Expr.exists_of_mem_mapM mapped he
        simp only [Stmt.returnValue?, Option.bind_eq_bind, Option.bind_eq_some_iff] at hx
        obtain ⟨default, -, literal, -, made⟩ := hx
        cases made
        rfl
      have new : Stmt.scoping ⟨.ret values', span, ghost⟩ = .done := by
        simp only [Stmt.scoping, StmtKind.scoping, Expr.scoping, unused]
        rfl
      rw [scopingList_amend, new]
      exact .nothing (Expr.binders_scoping values)
  | _ => cases h

/-- The branch that is kept keeps its uses where nothing else was bound around them. -/
theorem Stmt.prunes_keepBranch {branch : Branch} {s : Stmt} {change : Change}
    (hs : s.Meets .branched) (h : s.keepBranch branch = .done change) :
    s.scoping.Prunes (scopingList (change.edit.result s)) := by
  obtain ⟨kind, span, ghost⟩ := s
  cases kind with
  | ifElse guard thenBranch elseBranch =>
    simp only [Stmt.scoping, StmtKind.scoping, append_assoc]
    refine .dropped (Expr.binders_scoping _) ?_
    cases branch with
    | thenBranch =>
      cases h
      have kept := (thenBranch.prunes_inPlace span ⟨.ifElse guard thenBranch elseBranch, span,
        ghost⟩).append (.nothing (Stmt.binders_scopingElse elseBranch))
      rwa [append_done] at kept
    | elseBranch =>
      cases elseBranch with
      | none => cases h
      | some next =>
        cases h
        exact .dropped (Block.binders_scoping _) (prunes_asElement (hs.2.2.1 trivial) _)
  | _ => cases h

mutual
/-- An `else if` that is taken out leaves the branch behind it in its place. -/
theorem Stmt.prunes_unlink {target : Location} : (s : Stmt) → ∀ t, s.unlink? target = some t →
    s.scoping.Prunes t.scoping
  | ⟨.ifElse guard thenBranch next, span, ghost⟩, t, h => by
    simp only [Stmt.unlink?, Option.map_eq_some_iff] at h
    obtain ⟨next', below, rfl⟩ := h
    exact .append (.refl _) (Stmt.prunes_unlinkBelow next next' below)
  | ⟨.varDecl _, _, _⟩, _, h | ⟨.update _, _, _⟩, _, h | ⟨.expr _, _, _⟩, _, h
  | ⟨.ret _, _, _⟩, _, h | ⟨.whileLoop .., _, _⟩, _, h | ⟨.forLoop .., _, _⟩, _, h
  | ⟨.breakLoop, _, _⟩, _, h | ⟨.continueLoop, _, _⟩, _, h | ⟨.block _, _, _⟩, _, h
  | ⟨.matchOn .., _, _⟩, _, h | ⟨.assert _, _, _⟩, _, h | ⟨.assume _, _, _⟩, _, h
  | ⟨.print _, _, _⟩, _, h => by simp [Stmt.unlink?] at h

/-- A link that goes takes its uses along: by induction on the links. -/
theorem Stmt.prunes_unlinkBelow {target : Location} : (s : Option Stmt) → ∀ t,
    Stmt.unlinkBelow? target s = some t → (Stmt.scopingElse s).Prunes (Stmt.scopingElse t)
  | none, _, h => by simp [Stmt.unlinkBelow?] at h
  | some branch, t, h => by
    simp only [Stmt.unlinkBelow?] at h
    split at h
    · cases h
    · split at h
      · cases h
        obtain ⟨kind, span, ghost⟩ := branch
        cases kind with
        | ifElse guard thenBranch next =>
          have within : (Stmt.scoping ⟨.ifElse guard thenBranch next, span, ghost⟩).Prunes
              (Stmt.scopingElse next) :=
            .dropped (by simp) (.refl _)
          have opened := Prunes.opened (Stmt.binders_scopingElse next) within .done
          rwa [append_done] at opened
        | _ => exact .closed .done
      · obtain ⟨branch', below, rfl⟩ := Option.map_eq_some_iff.1 h
        exact .scope (Stmt.prunes_unlink branch branch' below) .done
end

/-- The same for all three ways a branch goes. -/
theorem Stmt.prunes_deleteBranch {target : Location} {s : Stmt} {change : Change}
    (hs : s.Meets .branched) (h : s.deleteBranch target = .done change) :
    s.scoping.Prunes (scopingList (change.edit.result s)) := by
  obtain ⟨kind, span, ghost⟩ := s
  cases kind with
  | ifElse guard thenBranch next =>
    unfold Stmt.deleteBranch at h
    split at h
    case isFalse => cases h
    split at h
    · cases next with
      | none =>
        cases h
        exact .nothing (by simp [Stmt.declares])
      | some branch =>
        cases h
        exact .dropped (by simp) (prunes_asElement (hs.2.2.1 trivial) _)
    · split at h <;> cases h
      rename_i t unlinked
      rw [scopingList_amend]
      exact prunes_unlink _ t unlinked
  | _ => simp [Stmt.deleteBranch, Stmt.isIf] at h

/-- The body that is kept reads no name of its pattern; one that does is refused. -/
theorem Stmt.prunes_keepCase {index : Nat} {s : Stmt} {change : Change}
    (h : s.keepCase index = .done change) :
    s.scoping.Prunes (scopingList (change.edit.result s)) := by
  obtain ⟨kind, span, ghost⟩ := s
  cases kind with
  | matchOn source cases =>
    simp only [Stmt.keepCase] at h
    split at h
    case h_1 => cases h
    case h_2 c found =>
      split at h <;> cases h
      rename_i reads
      obtain ⟨pattern, body, area⟩ := c
      obtain ⟨pre, post, rfl⟩ := List.append_of_mem (List.mem_of_getElem? found)
      simp only [Stmt.scoping, StmtKind.scoping, MatchCase.scopingList_append]
      refine .dropped (Expr.binders_scoping _) (.dropped (MatchCase.binders_scopingList pre) ?_)
      refine .unboundAll (fun b hb used => ?_) ?_
      · obtain ⟨n, hn, rfl⟩ := List.mem_map.1 hb
        simp only [MatchCase.readsNoBinding, Stmt.mentionAny, Bool.not_eq_true', List.any_eq_false,
          List.contains_iff_mem] at reads
        rw [Stmt.names_scopingList] at used
        exact reads n hn used
      · have kept := (Block.prunes_inPlace ⟨body, area⟩ span ⟨.matchOn source (pre ++
          ⟨pattern, body, area⟩ :: post), span, ghost⟩).append
            (.nothing (MatchCase.binders_scopingList post))
        rwa [append_done] at kept
  | _ => cases h

/-- The kinds that end, take out or move whole statements. -/
def Kind.restructures : Kind → Bool
  | .statementDeletion | .breakInsertion | .returnDefaults | .branchExtraction | .branchDeletion
  | .caseExtraction => true
  | _ => false

theorem Kind.level_of_restructures {k : Kind} (h : k.restructures = true) : k.level = .element := by
  cases k <;> first | rfl | cases h

/-- What such an operator puts in the place of a statement is the statement, pruned. -/
theorem Operator.prunes_onStmt {op : Operator} {site : Site} {s : Stmt} {change : Change}
    (kind : op.kind.restructures = true) (hs : s.Meets .branched)
    (h : op.onStmt site s = .done change) :
    s.scoping.Prunes (Stmt.scopingList (change.edit.result s)) := by
  by_cases branch : op = .deleteBranch
  · subst branch
    exact Stmt.prunes_deleteBranch hs h
  · unfold Operator.onStmt at h
    split at h
    case h_1 => exact absurd rfl branch
    split at h
    · cases op with
      | deleteStmt => exact Stmt.prunes_delete h
      | insertBreak => exact Stmt.prunes_insertBreak h
      | setReturn _ => exact Stmt.prunes_setReturn h
      | keepBranch _ => exact Stmt.prunes_keepBranch hs h
      | exchangeDefault _ => cases kind
      | keepCase _ => exact Stmt.prunes_keepCase h
      | _ => cases h
    · cases h

/-! ### What an edit does to the scoping around it -/

/-- The scoping of a piece. -/
def Piece.scoping : Piece → Scoping Span
  | .expr e => Expr.scoping [e]
  | .stmt s => s.scoping
  | .stmts list => Stmt.scopingList list
  | .member m => m.scoping
  | .members list => Member.scopingList list
  | .decl d => Member.scopingList d.members
  | .module m => m.scoping

/-- A piece that is pruned prunes the piece around it. -/
theorem Carries.prunes {spans : List Span} {c c' x x' : Piece} (hc : Carries spans c c' x x')
    (code : ∀ e, c ≠ .expr e) (h : c.scoping.Prunes c'.scoping) :
    x.scoping.Prunes x'.scoping := by
  cases hc with
  | thenBranch => exact .append (.append (.refl _) (.scope h .done)) (.refl _)
  | elseBranch => exact .append (.refl _) (.scope h .done)
  | whileBody => exact .append (.refl _) (.scope h .done)
  | forBody => exact .append (.refl _) (.scope (.bind (.append (.refl _) (.scope h .done))) .done)
  | block => exact .scope h .done
  | caseBody =>
    simp only [Piece.scoping, Stmt.scoping, StmtKind.scoping, MatchCase.scopingList_append]
    exact .append (.refl _) (.append (.refl _) (.scope (.append (.refl _) h) (.refl _)))
  | element =>
    simp only [Piece.scoping, Stmt.scopingList_append]
    exact .append (.refl _) (.append h (.refl _))
  | methodBody body =>
    simp only [Piece.scoping, Member.scoping, body]
    exact .scope (.append (.refl _) (.scope h .done)) .done
  | member =>
    simp only [Piece.scoping, Member.scopingList_append]
    exact .append (.refl _) (.append h (.refl _))
  | «class» | datatype => exact h
  | decl =>
    simp only [Piece.scoping, Module.scoping, Decl.scopingList_append]
    exact .append (.refl _) (.append h (.refl _))
  | _ => exact absurd rfl (code _)

/-- What comes to a place where statements stand prunes what stood there. -/
def Place.Prunes : (p : Place) → p.Content → Prop
  | .stmts list, list' => (Stmt.scopingList list).Prunes (Stmt.scopingList list')
  | .element s, new => s.scoping.Prunes (Stmt.scopingList new)
  | .members _, _ | .expr _, _ => False

/-- It prunes the tree around it, which cannot be an expression. -/
theorem Exchanged.prunes {p : Place} {new : p.Content} {spans : List Span} {x x' : Piece}
    (h : Exchanged p new spans x x') (pruned : p.Prunes new) :
    (∀ e, x ≠ .expr e) ∧ x.scoping.Prunes x'.scoping := by
  induction h with
  | members | expr => exact pruned.elim
  | stmts => exact ⟨fun e he => Piece.noConfusion he, pruned⟩
  | element =>
    refine ⟨fun e he => Piece.noConfusion he, ?_⟩
    simp only [Piece.scoping, Stmt.scopingList_append]
    exact .append (.refl _) (.append pruned (.refl _))
  | inside hc h ih =>
    obtain ⟨code, within⟩ := ih pruned
    refine ⟨?_, hc.prunes code within⟩
    rintro e rfl
    cases hc
    exact code _ rfl

/-- An exchange of an element is one of the list that the element stands in. -/
theorem Exchanged.around {p : Place} {new : p.Content} {spans : List Span} {x x' : Piece}
    (h : Exchanged p new spans x x') {s : Stmt} {list : List Stmt} (place : p = .element s)
    (content : HEq new list) :
    ∃ pre post spans', Exchanged (.stmts (pre ++ s :: post)) (pre ++ (list ++ post)) spans' x x' := by
  induction h with
  | element =>
    cases place
    cases content
    exact ⟨_, _, _, .stmts⟩
  | inside hc h ih =>
    obtain ⟨pre, post, spans', inner⟩ := ih place content
    exact ⟨pre, post, _, .inside hc inner⟩
  | _ => cases place

/-- A request that ends, takes out or moves statements changes one list, in which an operator has
put something else in the place of one element. The list declares what it declared, and every name
that is left refers to what it referred to. The last is said of all ways to tell the names and
declarations of the module apart, on top of the ranges they have: what is left of them in the
module afterwards can be told apart in the same way, and the references are some of those that
there were. -/
theorem Module.mutate_referents {m : Module} {r : Request} {limit : Nat} {x : Mutant}
    (branched : m.Branched) (kind : r.kind.restructures = true) (ok : m.mutate r limit = .ok x)
    (applied : x.report.isApplied = true) :
    (∃ op site s change pre post spans, Operator.make r.kind r.argument = .ok op ∧
      op.onStmt site s = .done change ∧
      Exchanged (.stmts (pre ++ s :: post)) (pre ++ (change.edit.result s ++ post)) spans (.module m)
        (.module x.module) ∧
      (pre ++ (change.edit.result s ++ post)).flatMap Stmt.declares =
        (pre ++ s :: post).flatMap Stmt.declares) ∧
    ∀ (α : Type) (range : α → Span) (old : Scoping α), old.map range = m.scoping →
      ∃ new : Scoping α, new.map range = x.module.scoping ∧ old.Prunes new ∧
        (new.references []).Sublist (old.references []) := by
  cases made : Operator.make r.kind r.argument with
  | error fault =>
    rw [Module.mutate_error made] at ok
    cases ok
  | ok op =>
    obtain ⟨y, ok', ends⟩ := Module.mutate_ends made limit (m := m)
    obtain rfl : y = x := Except.ok.inj (ok'.symm.trans ok)
    cases ends with
    | missed _ _ found => simp [Report.isApplied, found] at applied
    | refused _ _ _ found => simp [Report.isApplied, found] at applied
    | @changed i at' _ _ _ edited =>
      obtain ⟨spans, new, span, done, exchanged⟩ := edited
      obtain ⟨owner, p⟩ := i
      have answer : op.answer _ p = .done (new, span) := done
      have restructures : op.kind.restructures = true := by rwa [Operator.kind_of_make made]
      have level : p.level = .element :=
        (Operator.level_of_done done).trans (Kind.level_of_restructures restructures)
      cases p with
      | element s =>
        obtain ⟨change, changed, same⟩ := Outcome.answer_eq_done_iff.1 answer
        obtain ⟨rfl, -⟩ := Prod.mk.inj same
        have here := Operator.prunes_onStmt restructures
          (Invariant.stable_branched.place exchanged branched) changed
        obtain ⟨pre, post, spans', listed⟩ := exchanged.around rfl .rfl
        refine ⟨⟨op, _, s, change, pre, post, spans', rfl, changed, listed, ?_⟩, ?_⟩
        · have kept := here.binders
          rw [Stmt.binders_scopingList, Stmt.binders_scoping] at kept
          simp only [List.flatMap_append, List.flatMap_cons, kept]
        · intro α range old same
          obtain ⟨new, mapped, left⟩ := (exchanged.prunes here).2.lift same
          exact ⟨new, mapped, left, left.references []⟩
      | members list | stmts list | expr e => cases level

/-- A method with a case whose pattern hides a parameter, and with a use of that parameter behind
the match. -/
def Module.hiding : Module :=
  ⟨"m", [.class
    { name := "C"
      span := .range 0 40
      members := [.method
        { name := "f"
          params := [{ name := "x", ty := .int, span := .token 2 },
            { name := "y", ty := .int, span := .token 3 }]
          span := .range 1 39
          body := some ⟨[
            ⟨.matchOn ⟨.name "y", .token 8, .int⟩
              [⟨.bind "x" .int, [⟨.print [⟨.name "y", .token 12, .int⟩], .range 10 14, false⟩],
                .range 9 15⟩], .range 6 18, false⟩,
            ⟨.print [⟨.name "x", .token 21, .int⟩], .range 20 24, false⟩], .range 5 38⟩ }] }]⟩

/-- The case is put in the place of the match. Both names that are left are still parameters. -/
theorem Module.hiding_mutate_case :
    ∃ x, Module.hiding.mutate ⟨.anchor 6, .caseExtraction, some "0"⟩ 64 = .ok x ∧
      x.report.isApplied = true ∧
      x.module.scoping.references [] =
        [(.token 12, "y", some (.token 3, .param)), (.token 21, "x", some (.token 2, .param))] ∧
      (x.module.scoping.references []).Sublist (Module.hiding.scoping.references []) := by
  let r : Request := ⟨.anchor 6, .caseExtraction, some "0"⟩
  have given : (Module.hiding.mutate r 64).map (fun x =>
      (x.report.isApplied, x.module.scoping.references [])) =
      .ok (true, [(.token 12, "y", some (.token 3, .param)),
        (.token 21, "x", some (.token 2, .param))]) := by rfl
  obtain ⟨x, ok, reported⟩ := exists_of_map_ok given
  obtain ⟨applied, left⟩ := Prod.mk.inj reported
  have branched : Module.hiding.Branched := by
    simp [Module.Branched, Module.hiding, Module.Meets, Decl.members, Member.Meets, Block.Meets,
      Stmt.MeetsList, Stmt.Meets, StmtKind.Meets, MatchCase.MeetsList, Contract.Meets,
      Contract.clauses, Invariant.branched]
  obtain ⟨new, mapped, -, sublist⟩ :=
    (Module.mutate_referents branched rfl ok applied).2 Span id Module.hiding.scoping (map_id _)
  rw [map_id] at mapped
  exact ⟨x, ok, applied, left, mapped ▸ sublist⟩

end Mutation
