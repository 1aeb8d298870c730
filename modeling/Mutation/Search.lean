import Mutation.Candidate
import Mutation.Operator.OnExpr
import Mutation.Operator.OnList
import Mutation.Tree.Size
import Mutation.Walk.Revision

/-!
# Carrying out a request

A request names a place, a kind of operator and an argument. The search walks the executable code
in which the place may lie and offers each member list, statement list, list element and
expression to the operator. The first one at which the operator does not pass ends the search:
either it holds the operator's change then, or the operator refused and the module is as it was.
Targets of assignments are entered only when they are index expressions.
-/

namespace Mutation

/-- One mutation to carry out. -/
structure Request where
  location : Location
  kind : Kind
  argument : Option String
deriving DecidableEq

/-- The request a candidate proposes. -/
def Candidate.request (c : Candidate) : Request := ⟨c.location, c.kind, c.argument?⟩

/-- What a search has come to. -/
structure Search where
  /-- The class or datatype that was entered last. -/
  enclosing : Option String := none
  /-- The method or function that was entered last. -/
  containing : Option String := none
  found : Option Found := none
  span : Option Span := none
  refusal : Option Refusal := none
  notes : List Note := []

namespace Search

/-- The search is over. -/
def isOver (s : Search) : Bool := s.found.isSome || s.refusal.isSome

/-- The search after a change at a node with this span. -/
def find (s : Search) (found : Found) (span : Span) : Search :=
  { s with found := some found, span := some span }

/-- The search after a refusal. -/
def refuse (s : Search) (reason : Refusal) : Search := { s with refusal := some reason }

/-- The search after some notes. -/
def noting (s : Search) (notes : List Note) : Search := { s with notes := s.notes ++ notes }

/-- The search behind the start of a node. -/
def entering (node : Node) (s : Search) : Search :=
  match node with
  | .class c => { s with enclosing := some c.name }
  | .datatype d => { s with enclosing := some d.name }
  | .method m => { s with containing := some m.name }
  | .function f => { s with containing := some f.name }
  | _ => s

/-- The span of what was changed when a statement was offered: a range that is not that of the
statement lies inside it. -/
def landing (target : Location) (offered : Span) : Span :=
  match target with
  | .anchor _ => offered
  | .range start stop => if target.matchesB offered then offered else .range start stop

/-- What a hook of the search answers when the operator has answered this. The walk goes on in the
node that the operator has left; a change or a refusal ends it. -/
def settle {ν α : Type} (found : Found) (outcome : Outcome ν α) (change : α → ν × Span)
    (s : Search) : Reply ν × Search :=
  match outcome with
  | .pass left => (.descend left, s)
  | .done value => (.halt (change value).1, s.find found (change value).2)
  | .refused reason left => (.halt left, s.refuse reason)

/-- What is known at the node that is offered. -/
def site (base : Site) (s : Search) : Site := { base with enclosing := s.enclosing }

/-- The walk of a search for the target of `base`. -/
def revision (op : Operator) (base : Site) : Revision Search where
  worth _ span := base.target.mayLieIn span
  halted s := s.isOver
  visit
    | .expr, e, s => settle .expression (op.onExpr (s.site base) e) (fun new => (new, e.span)) s
    | k, node, s => (.descend node, s.entering (k.node node))
  target e s :=
    match e.kind with
    | .index .. => (.descend e, s)
    | _ => (.settle e, s)
  reviseStmts list s :=
    let (outcome, notes) := op.onStmts (s.site base) list
    settle .statement outcome id (s.noting notes)
  reviseMembers list s := settle .member (op.onMembers (s.site base) list) id s
  offer st s :=
    match op.onStmt (s.site base) st with
    | .pass left => (⟨left, .keep⟩, s)
    | .done change => (⟨st, change.edit⟩, s.find .statement (landing base.target st.span))
    | .refused reason left => (⟨left, .keep⟩, s.refuse reason)
  resyncUpdate u s :=
    if s.found = some .expression then (u.sync, { s with found := some .assignment }) else (u, s)
  resyncChain c s := if s.found.isSome then (c.rebuild, s) else (c, s)

/-- The last note of a search. -/
def verdict (s : Search) : Note :=
  match s.refusal, s.found with
  | some reason, _ => .targetRefused s.containing reason
  | none, none => .nothingFound s.containing
  | none, some found => .applied found

/-- The report of a search. -/
def report (s : Search) (r : Request) : Report :=
  ⟨r.kind, r.location, s.found, s.span, s.containing, s.refusal⟩

end Search

/-- What comes of a request: the module afterwards, the report and the log. -/
structure Mutant where
  module : Module
  report : Report
  notes : List Note

/-- How far deletions follow from one another unless the caller says otherwise. -/
def defaultCascadeLimit : Nat := 64

/-- Carries out a request on a module: what is said of it, and the module as it is left. -/
def Module.apply (m : Module) (r : Request) (cascadeLimit : Nat) :
    Except ArgumentFault (Report × List Note) × Module :=
  match Operator.make r.kind r.argument with
  | .error fault => (.error fault, m)
  | .ok op =>
    let base : Site := { target := r.location, cascadeLimit, declarations := m.declarations }
    let (after, s) := ((Search.revision op base).module m.size m {}).value
    (.ok (s.report r, s.notes ++ [s.verdict]), after)

/-- What comes of a request on a module, unless it is faulty. -/
def Module.mutate (m : Module) (r : Request) (cascadeLimit : Nat) : Except ArgumentFault Mutant :=
  let (said, after) := m.apply r cascadeLimit
  said.map fun (report, notes) => ⟨after, report, notes⟩

end Mutation
