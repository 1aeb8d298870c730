import Mutation.Candidate
import Mutation.Operator.Argument
import Mutation.Operator.Literals
import Mutation.Operator.OnExpr
import Mutation.Scope
import Mutation.Tree.Names

/-!
# Proposals

Which mutations a single node or list suggests, in the order in which they are proposed. A node is
judged by its type and its shape and by what is known at that point: the variables in scope, the
declarations of the module, and what the node stands in.
-/

namespace Mutation

/-- What is known at a point of the code. -/
structure View where
  declarations : Declarations := {}
  /-- The text proposed in place of an empty one. -/
  sentinel : String := "mutant"
  scope : Scope := {}
  /-- The class around the point. -/
  enclosingClass : Option String := none
  /-- The class or datatype around the point. -/
  enclosingType : Option String := none
  /-- The member around the point is static. -/
  inStatic : Bool := false
  /-- The span of the call a statement consists of. -/
  bare : Option Span := none

namespace View

variable (v : View)

/-- An expression with this span is a statement of its own. -/
def isBare (span : Span) : Bool := v.bare.any fun s => s.coincides span

/-- Proposals at the anchor of an expression. -/
def atAnchor (e : Expr) (kind : Kind) (arguments : List String) : List Candidate :=
  arguments.map fun a => ⟨e.span.anchorLocation, kind, a⟩

/-- Proposals at the range of a span. -/
def atRange (span : Span) (kind : Kind) (arguments : List String) : List Candidate :=
  arguments.map fun a => ⟨span.rangeLocation, kind, a⟩

/-- The argument `a` if the condition holds. -/
def argumentIf (condition : Bool) (a : String) : List String := if condition then [a] else []

/-- Other variables of the type of the name, the innermost first. -/
def otherVariables (name : String) (ty : Ty) : List String :=
  (v.scope.visible.filter fun b => b.name ≠ name && b.ty = ty && b.ty.isPrimitive).map (·.name)

/-- A variable with this name hides a field of the receiver with this name and type. -/
def hidesField (name : String) (ty : Ty) : Bool :=
  !v.inStatic && (v.scope.lookup name).isSome &&
    (v.enclosingClass.bind fun c => v.declarations.fieldType? c name) = some ty

/-- Proposals for a name. -/
def name (e : Expr) (name : String) : List Candidate :=
  atAnchor e .negationInsertion ((UnaryOp.forType? e.ty).toList.map UnaryOp.name) ++
    atAnchor e .variableReplacement (v.otherVariables name e.ty) ++
    atAnchor e .thisInsertion (argumentIf (v.hidesField name e.ty) name)

/-- Proposals for a binary expression. -/
def binary (e : Expr) (op : BinaryOp) (lhs rhs : Expr) : List Candidate :=
  atAnchor e .binaryReplacement ((op.replacements lhs.ty).map BinaryOp.name) ++
    atAnchor e .binaryToBool (if e.ty = .bool then ["true", "false"] else []) ++
    atAnchor e .operandOnly
      (argumentIf (lhs.ty.fits e.ty) "left" ++ argumentIf (rhs.ty.fits e.ty) "right")

/-- Proposals for a field access. -/
def member (e receiver : Expr) (field : String) : List Candidate :=
  let hidden := receiver.isThis && (v.scope.lookup field).any fun b => b.ty = e.ty
  atAnchor e .thisDeletion (argumentIf hidden field) ++
    atAnchor e .fieldReplacement
      (match receiver.ty.declared? with
        | some owner => v.declarations.siblingFields owner field
        | none => [])

/-- The other components of a tuple with the type of the component at `index`. -/
def otherComponents (items : List Ty) (index : Nat) : List String :=
  match items[index]? with
  | none => []
  | some current =>
    (items.zipIdx.filter fun (t, j) => j ≠ index && t = current).map fun (_, j) => Text.natText j

/-- The pairs of arguments with one type. -/
def equalPairs (args : List Expr) : List String :=
  args.zipIdx.flatMap fun (a, i) =>
    (args.zipIdx.filter fun (b, j) => i < j && a.ty = b.ty).map fun (_, j) =>
      Text.natText i ++ ";" ++ Text.natText j

/-- Proposals for a call; one that is a statement of its own has no value to replace. -/
def call (e : Expr) (receiver : Option Expr) (method : String) (args : List Expr) :
    List Candidate :=
  let used := !v.isBare e.span
  let fitting := (args.zipIdx.filter fun (a, _) => a.ty.fits e.ty).map fun (_, i) => Text.natText i
  let callees :=
    match Expr.calleeOwner? v.enclosingType receiver with
    | some owner => v.declarations.compatibleCallables owner method
    | none => []
  atRange e.span .argumentPropagation (if used then fitting else []) ++
    atRange e.span .receiverPropagation
      (argumentIf (used && receiver.any fun r => r.ty.fits e.ty) "") ++
    atRange e.span .calleeReplacement callees ++
    atRange e.span .argumentSwap (equalPairs args)

/-- The other form a display or an array may take. -/
def initForm? (e : Expr) : Option InitForm :=
  match e.kind with
  | .display _ (_ :: _) => some .empty
  | .display _ [] => (e.ty.element?.bind Ty.samples?).map fun _ => .samples
  | .arrayAlloc _ dims (some _) => if dims.length ≤ 1 then some .dims else none
  | .arrayAlloc t [_] none => t.samples?.map fun _ => .init
  | _ => none

/-- Proposals for a value read: the default of its type. -/
def default (e : Expr) : List Candidate :=
  if e.isValueRead && !v.isBare e.span then
    atRange e.span .defaultValue (e.ty.default?.toList.map Literal.text)
  else []

/-- Proposals by the shape of an expression. -/
def shape (e : Expr) : List Candidate :=
  match e.kind with
  | .literal l =>
    atAnchor e .literalReplacement ((l.replacements e.ty v.sentinel).map Literal.text)
  | .name n => v.name e n
  | .binary op l r => binary e op l r
  | .unary _ x => atAnchor e .negationDeletion (argumentIf (x.ty.fits e.ty) "")
  | .member r field => v.member e r field
  | .tupleIndex t i =>
    atAnchor e .componentReplacement
      (match t.ty with
        | .tuple items => otherComponents items i.toNat
        | _ => [])
  | .call r method args => v.call e r method args
  | .display .. | .arrayAlloc .. =>
    atRange e.span .initReplacement ((initForm? e).toList.map InitForm.name)
  | .ctor datatype ctor _ =>
    atAnchor e .ctorReplacement (v.declarations.siblingCtors datatype ctor)
  | _ => []

/-- Proposals for an expression. -/
def expr (e : Expr) : List Candidate := v.shape e ++ v.default e

end View

namespace Stmt

/-- The text that gives every returned value its default; none when a type has no default, when
nothing is returned, or when every value is a default already. -/
def returnText? (values : List Expr) : Option String := do
  let defaults ← values.mapM fun e => e.ty.default?
  let already := (values.zip defaults).all fun (e, d) => e.literal?.any fun l => l.same d
  if already then none else return Text.joinWith ";" (defaults.map Literal.text)

/-- Proposals for a match: first the cases that may change places with the default case, then the
cases that may take the place of the match. -/
def matchProposals (span : Span) (cases : List MatchCase) : List Candidate :=
  let named := cases.zipIdx.filterMap fun (c, i) =>
    match c.pattern.ctor? with
    | some ctor =>
      if MatchCase.ctorIdx? cases ctor = some i && c.readsNoBinding then some ctor else none
    | none => none
  let free := (MatchCase.defaultIdx? cases).bind (cases[·]?) |>.any MatchCase.readsNoBinding
  let kept := (cases.zipIdx.filter fun (c, _) => c.readsNoBinding).map fun (_, i) =>
    Text.natText i
  View.atRange span .caseReplacement (if free then named else []) ++
    View.atRange span .caseExtraction kept

/-- Proposals by the shape of a statement. -/
def shapeProposals (s : Stmt) : List Candidate :=
  match s.kind with
  | .varDecl d =>
    View.atRange s.span .variableDeletion ((d.locals.filter fun v => !v.ghost).map (·.name))
  | .ret values => View.atRange s.span .returnDefaults (returnText? values).toList
  | .ifElse _ _ elseBranch =>
    View.atRange s.span .branchExtraction ["then"] ++
      (if elseBranch.isSome then
        View.atRange s.span .branchExtraction ["else"] ++
          View.atRange s.span .branchDeletion [""]
      else []) ++
      (Stmt.elseIfSpans elseBranch).flatMap fun link => View.atRange link .branchDeletion [""]
  | .whileLoop .. | .forLoop .. => View.atRange s.span .breakInsertion [""]
  | .matchOn _ cases => matchProposals s.span cases
  | _ => []

/-- Proposals for an element of a statement list. -/
def proposals (s : Stmt) : List Candidate :=
  View.atRange s.span .statementDeletion (if s.isVarDecl then [] else [""]) ++ s.shapeProposals

/-- The initializer of a later declaration may move up to an earlier one, and the other way round.
`between` are the names declared from the earlier declaration up to the later one. -/
def mayExchange (first second : Variable × Expr) (between : List String) : Bool :=
  first.1.ty = second.1.ty && !(between.any fun n => second.2.mentions n) &&
    !first.2.mentions second.1.name

/-- The declaration can take part in an exchange of initializers. -/
def exchangeable? (s : Stmt) : Option (Variable × Expr) :=
  if s.ghost then none
  else s.simpleDecl?.filter fun (v, _) => !v.ghost && v.ty.isPrimitive

/-- Proposals to exchange the initializer of `first` with those of the statements behind it.
`between` are the names declared since. -/
def exchangesWith (span : Span) (first : Variable × Expr) :
    List String → List Stmt → List Candidate
  | _, [] => []
  | between, s :: list =>
    (match s.exchangeable? with
      | some second =>
        View.atRange span .initializerSwap
          (View.argumentIf (mayExchange first second between) s.span.rangeLocation.text)
      | none => []) ++
      exchangesWith span first (between ++ s.declares) list

/-- Proposals to exchange initializers in a list. -/
def exchanges : List Stmt → List Candidate
  | [] => []
  | s :: list =>
    (match s.exchangeable? with
      | some first => exchangesWith s.span first s.declares list
      | none => []) ++
      exchanges list

end Stmt

namespace Member

/-- The method, if its body can be exchanged. -/
def exchangeable? (m : Member) : Option Method :=
  m.method?.filter fun d => !d.ghost && d.body.isSome

/-- Proposals to exchange the bodies of methods. -/
def exchanges : List Member → List Candidate
  | [] => []
  | m :: ms =>
    (match m.exchangeable? with
      | some first =>
        View.atRange first.span .bodySwap
          (((ms.filterMap exchangeable?).filter first.sameFormalsAs).map (·.name))
      | none => []) ++
      exchanges ms

end Member

end Mutation
