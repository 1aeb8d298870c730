import Mutation.Operator.Literals
import Mutation.Operator.Purge

/-!
# Operators on lists

Operators that change two places at once, or a place and what depends on it, act on a whole list
of statements or members. They answer with the list afterwards and the span of the place the
request addressed.
-/

namespace Mutation

/-- The parts of a list before, at and after its first element with a property. -/
def splitAtFirst {α : Type} (p : α → Bool) : List α → Option (List α × α × List α)
  | [] => none
  | a :: as =>
    if p a then some ([], a, as)
    else (splitAtFirst p as).map fun (before, x, after) => (a :: before, x, after)

/-- The declaration with another value for its one local. -/
def Stmt.withValue (s : Stmt) (value : Expr) : Stmt :=
  match s.kind with
  | .varDecl ⟨locals, some init⟩ =>
    { s with
      kind := .varDecl ⟨locals, some (Update.sync { init with values := init.values.set 0 value })⟩ }
  | _ => s

/-- The first declaration of one local with one value at a location. -/
def Stmt.declIdx? (location : Location) (list : List Stmt) : Option Nat :=
  list.findIdx? fun s => location.matchesB s.span && s.simpleDecl?.isSome

/-- The values of two declarations exchanged. -/
def Stmt.swapInits (target other : Location) (list : List Stmt) :
    Outcome (List Stmt) (List Stmt × Span) :=
  match declIdx? target list with
  | none => .pass list
  | some i =>
    match declIdx? other list with
    | none => .refused .otherBlock list
    | some j =>
      if i = j then .refused .otherBlock list
      else
        match list[i]?, list[j]? with
        | some s, some t =>
          match s.simpleDecl?, t.simpleDecl? with
          | some (v, a), some (w, b) =>
            if v.ty = w.ty then
              .done ((list.set i (s.withValue b)).set j (t.withValue a), s.span)
            else .refused .declarationTypes list
          | _, _ => .refused .declarationTypes list
        | _, _ => .refused .otherBlock list

/-- A local deleted with what depends on it, and the notes of the deletion. The list that a
deletion leaves when it is given up is thrown away for a copy from before. -/
def Stmt.deleteVariable (site : Site) (name : String) (list : List Stmt) :
    Outcome (List Stmt) (List Stmt × Span) × List Note :=
  match splitAtFirst (fun s => site.isTarget s.span && s.declares.contains name) list with
  | none => (.pass list, [])
  | some (before, s, after) =>
    let copy := list
    let (left, p) := Purge.deleteLocal site.cascadeLimit name s after
    let list := before ++ left
    if p.exhausted then
      let list := copy
      (.refused .cascadeExhausted list, p.notes ++ [.listRestored name])
    else
      (.done (list, s.span),
        p.notes ++ [.variableDeleted name p.extent p.deleted p.collapsed p.cascaded])

/-- The bodies of two methods exchanged. -/
def Member.swapBodies (target : Location) (name : String) (list : List Member) :
    Outcome (List Member) (List Member × Span) :=
  match list.findIdx? fun m => m.method?.isSome && target.matchesB m.span with
  | none => .pass list
  | some i =>
    match list.findIdx? fun m => m.method?.isSome && m.name == name with
    | none => .refused .otherDeclaration list
    | some j =>
      if i = j then .refused .otherDeclaration list
      else
        match list[i]?.bind Member.method?, list[j]?.bind Member.method? with
        | some a, some b =>
          if a.sameFormalsAs b && a.body.isSome && b.body.isSome then
            .done ((list.set i (.method { a with body := b.body })).set j
              (.method { b with body := a.body }), a.span)
          else .refused .methodShape list
        | _, _ => .refused .otherDeclaration list

/-- What an operator answers when it is offered a statement list. -/
def Operator.onStmts (op : Operator) (site : Site) (list : List Stmt) :
    Outcome (List Stmt) (List Stmt × Span) × List Note :=
  match op with
  | .swapInits start stop => (Stmt.swapInits site.target (.range start stop) list, [])
  | .deleteVariable name => Stmt.deleteVariable site name list
  | _ => (.pass list, [])

/-- What an operator answers when it is offered a member list. -/
def Operator.onMembers (op : Operator) (site : Site) (list : List Member) :
    Outcome (List Member) (List Member × Span) :=
  match op with
  | .swapBodies name => Member.swapBodies site.target name list
  | _ => .pass list

end Mutation
