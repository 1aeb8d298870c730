import Mutation.Walk.Survey
import Mutation.Walk.Revision

/-!
# Traces of walks

Each hook call of a walk is an event with a line of text. A script answers hooks by the text of
their events, so a walk can be steered from outside and leaves its trace behind.
-/

namespace Mutation

/-- The text of a range, `start-stop`. -/
def Span.rangeText (s : Span) : String := s.rangeLocation.text

/-- The text of a range with its anchor, `start-stop@anchor`. -/
def Span.anchoredText (s : Span) : String := s.rangeText ++ "@" ++ Text.natText s.anchor.toNat

/-- The text of a node in a trace. -/
def Node.text : Node → String
  | .module m => "module " ++ m.name
  | .class c => "class " ++ c.name
  | .datatype d => "datatype " ++ d.name
  | .field f => "field " ++ f.name
  | .method m => "method " ++ m.name
  | .function f => "function " ++ f.name
  | .block b => "block " ++ b.span.rangeText
  | .stmt s => "stmt " ++ s.span.rangeText
  | .case c => "case " ++ c.span.rangeText
  | .expr e => "expr " ++ e.span.anchoredText

/-- A hook call. -/
inductive Event where
  | enter (context : Context)
  | exit (context : Context)
  | visit (node : Node)
  | leave (node : Node)
  | target (expr : Expr)
  | stmtList (list : List Stmt)
  | memberList (list : List Member)
  | offer (stmt : Stmt)
  | resyncUpdate (update : Update)
  | resyncChain (chain : Chain)

/-- The line of text of a hook call. -/
def Event.text : Event → String
  | .enter c => "enter " ++ c.name
  | .exit c => "exit " ++ c.name
  | .visit n => "+" ++ n.text
  | .leave n => "-" ++ n.text
  | .target e => "lhs " ++ e.span.anchoredText
  | .stmtList list => "stmts " ++ Text.natText list.length
  | .memberList list => "members " ++ Text.natText list.length
  | .offer s => "offer " ++ s.span.rangeText
  | .resyncUpdate u => "resync update " ++ Text.natText u.values.length
  | .resyncChain c => "resync chain " ++ Text.natText c.operands.length

/-- The events of a walk so far, the last one first. -/
structure Trace where
  events : List Event := []
  halted : Bool := false

/-- How hooks answer, by the text of their events. -/
structure Script where
  specifications : Bool := false
  ghost : Bool := false
  /-- Only nodes in which this location may lie are entered. -/
  within : Option Location := none
  stop : List String := []
  skip : List String := []
  /-- From one of these events on, an editing walk is halted. -/
  halt : List String := []
  /-- Names an editing walk replaces. -/
  renames : List (String × String) := []
  /-- What an editing walk answers when a statement with this range is offered. -/
  edits : List (String × Edit Stmt) := []

namespace Script

variable (p : Script)

/-- Adds an event to a trace. -/
def note (e : Event) (t : Trace) : Trace :=
  ⟨e :: t.events, t.halted || p.halt.contains e.text⟩

/-- The answer to a hook with this event. -/
def answer (e : Event) : Visit :=
  if p.stop.contains e.text then .stop
  else if p.skip.contains e.text then .skip
  else .proceed

/-- A hook that adds its event and answers. -/
def hook (e : Event) (t : Trace) : Visit × Trace := (p.answer e, p.note e t)

/-- The hooks of a script that look at no node. -/
def gates : Gates Trace where
  worth _ span := p.within.all fun l => l.mayLieIn span
  specifications _ := p.specifications
  ghost _ := p.ghost
  enter c := p.note (.enter c)
  exit c := p.note (.exit c)

/-- The reading walk of a script. -/
def survey : Survey Trace where
  toGates := p.gates
  visit n := p.hook (.visit n)
  leave n := p.note (.leave n)
  target e := p.hook (.target e)
  stmtList list := p.hook (.stmtList list)
  memberList list := p.hook (.memberList list)

/-- An expression after the renames. -/
def rename (e : Expr) : Expr :=
  match e.name?.bind fun n => p.renames.lookup n with
  | some m => { e with kind := .name m }
  | none => e

/-- A hook that adds its event, answers, and leaves this node. -/
def reply {α : Type} (e : Event) (left : α) (t : Trace) : Reply α × Trace :=
  match p.hook e t with
  | (.proceed, t) => (.descend left, t)
  | (.skip, t) => (.settle left, t)
  | (.stop, t) => (.halt left, t)

/-- The editing walk of a script. -/
def revision : Revision Trace where
  toGates := p.gates
  halted t := t.halted
  visit
    | .expr, e => p.reply (.visit (.expr e)) (p.rename e)
    | k, node => p.reply (.visit (k.node node)) node
  leave k node t := (node, p.note (.leave (k.node node)) t)
  target e := p.reply (.target e) e
  reviseStmts list := p.reply (.stmtList list) list
  reviseMembers list := p.reply (.memberList list) list
  offer s t := (⟨s, (p.edits.lookup s.span.rangeText).getD .keep⟩, p.note (.offer s) t)
  resyncUpdate u t := (u.sync, p.note (.resyncUpdate u) t)
  resyncChain c t := (c.rebuild, p.note (.resyncChain c) t)

end Script

end Mutation
