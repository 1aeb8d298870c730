import Mutation.Operator.Argument
import Mutation.Operator.Literals
import Mutation.Operator.Outcome

/-!
# Operators on expressions

Each operator on expressions is a function on the expression at the target. It passes when the
expression does not have the shape it acts on; the type of the expression in that place stays
the same, or changes between `int` and `nat`.
-/

namespace Mutation

namespace Expr

/-- Another operator of the same class between the operands. -/
def setOperator (new : BinaryOp) (e : Expr) : Outcome Expr Expr :=
  match e.kind with
  | .binary old l r =>
    if new ∈ old.replacements l.ty then .done { e with kind := .binary new l r }
    else .refused .operatorClass e
  | _ => .pass e

/-- A constant in place of a condition. -/
def setBool (value : Bool) (e : Expr) : Outcome Expr Expr :=
  match e.kind with
  | .binary .. =>
    if e.ty = .bool then .done ⟨.literal (.bool value), e.span, .bool⟩ else .refused .notBoolean e
  | _ => .pass e

/-- One operand in place of both. -/
def keepOperand (side : Side) (e : Expr) : Outcome Expr Expr :=
  match e.kind with
  | .binary _ l r =>
    let operand := if side = .left then l else r
    if operand.ty.fits e.ty then .done operand else .refused .operandType e
  | _ => .pass e

/-- A negation around a name. -/
def insertNegation (op : UnaryOp) (e : Expr) : Outcome Expr Expr :=
  match e.kind with
  | .name _ =>
    if UnaryOp.forType? e.ty = some op then .done ⟨.unary op e, e.span, e.ty⟩
    else .refused .negationType e
  | _ => .pass e

/-- The operand in place of its negation. -/
def deleteNegation (e : Expr) : Outcome Expr Expr :=
  match e.kind with
  | .unary _ x => if x.ty.fits e.ty then .done x else .refused .operandType e
  | _ => .pass e

/-- Another value of the same kind in place of a literal. -/
def setLiteral (text : String) (e : Expr) : Outcome Expr Expr :=
  match e.kind with
  | .literal old =>
    match Literal.readAs old.kind text with
    | none => .refused .unreadableLiteral e
    | some new =>
      if new.same old then .refused .sameLiteral e else .done { e with kind := .literal new }
  | _ => .pass e

/-- A value of the kind of the type's default in place of a value read. -/
def setDefault (text : String) (e : Expr) : Outcome Expr Expr :=
  if e.isValueRead then
    match e.ty.default? with
    | none => .refused .noDefault e
    | some default =>
      match Literal.readAs default.kind text with
      | none => .refused .unreadableValue e
      | some value => .done { e with kind := .literal value }
  else .pass e

/-- Another name. -/
def setVariable (name : String) (e : Expr) : Outcome Expr Expr :=
  match e.kind with
  | .name old =>
    if old = name then .refused .sameName e else .done { e with kind := .name name }
  | _ => .pass e

/-- The sample values of an element type, as expressions at one place. -/
def sampleExprs? (elemTy : Ty) (span : Span) : Option (List Expr) :=
  elemTy.samples?.map fun values => values.map fun v => ⟨.literal v, span, elemTy⟩

/-- The length of an array, as an expression. -/
def lengthExpr (n : Nat) (span : Span) : Expr := ⟨.literal (.int (.clampNat n)), span, .int⟩

/-- Another form of initializer for a display or an array. -/
def setInit (form : InitForm) (e : Expr) : Outcome Expr Expr :=
  match e.kind, form with
  | .display k (_ :: _), .empty => .done { e with kind := .display k [] }
  | .display k [], .samples =>
    match e.ty.element?.bind fun t => sampleExprs? t e.span with
    | some samples => .done { e with kind := .display k samples }
    | none => .refused .noSamples e
  | .arrayAlloc t dims init, .dims =>
    -- The initializer is taken out before the dimensions are looked at, and is put back on a refusal.
    let taken : Expr := { e with kind := .arrayAlloc t dims none }
    match init with
    | some values =>
      if dims.length ≤ 1 then
        .done { taken with kind := .arrayAlloc t [lengthExpr values.length e.span] none }
      else .refused .notOneDimensional { taken with kind := .arrayAlloc t dims (some values) }
    | none => .refused .notOneDimensional { taken with kind := .arrayAlloc t dims none }
  | .arrayAlloc t [_] none, .init =>
    match sampleExprs? t e.span with
    | some samples =>
      .done { e with kind := .arrayAlloc t [lengthExpr samples.length e.span] (some samples) }
    | none => .refused .noSamples e
  | .display .., _ => .refused .sameInit e
  | .arrayAlloc .., _ => .refused .sameInit e
  | _, _ => .pass e

/-- The field of the receiver in place of a local that hides it. -/
def insertThis (enclosing : Option String) (field : String) (e : Expr) : Outcome Expr Expr :=
  match e.kind with
  | .name n =>
    if n ≠ field then .refused .otherName e
    else
      match enclosing with
      | none => .refused .noClass e
      | some c =>
        let receiver : Expr := ⟨.this, .token e.span.start, .class c⟩
        .done { e with kind := .member receiver field }
  | _ => .pass e

/-- A local in place of the field of the receiver that it hides. -/
def deleteThis (field : String) (e : Expr) : Outcome Expr Expr :=
  match e.kind with
  | .member r f =>
    if r.isThis then
      if f = field then .done { e with kind := .name field } else .refused .otherField e
    else .pass e
  | _ => .pass e

/-- Another field of the same type. -/
def setField (declarations : Declarations) (field : String) (e : Expr) : Outcome Expr Expr :=
  match e.kind with
  | .member r old =>
    if old = field then .refused .sameField e
    else
      match r.ty.declared? with
      | some owner =>
        if field ∈ declarations.siblingFields owner old then
          .done { e with kind := .member r field }
        else .refused .noSiblingField e
      | none => .refused .noSiblingField e
  | _ => .pass e

/-- Another component of the same type. -/
def setComponent (index : UInt64) (e : Expr) : Outcome Expr Expr :=
  match e.kind with
  | .tupleIndex t old =>
    match t.ty with
    | .tuple items =>
      match items[old.toNat]?, items[index.toNat]? with
      | some a, some b =>
        if old ≠ index ∧ a = b then .done { e with kind := .tupleIndex t index }
        else .refused .componentType e
      | _, _ => .refused .componentType e
    | _ => .refused .notTuple e
  | _ => .pass e

/-- Another constructor with the same parameters. -/
def setCtor (declarations : Declarations) (ctor : String) (e : Expr) : Outcome Expr Expr :=
  match e.kind with
  | .ctor datatype old args =>
    if old = ctor then .refused .sameCtor e
    else if ctor ∈ declarations.siblingCtors datatype old then
      .done { e with kind := .ctor datatype ctor args }
    else .refused .noSiblingCtor e
  | _ => .pass e

/-- An argument in place of the call. -/
def keepArgument (index : Nat) (e : Expr) : Outcome Expr Expr :=
  match e.kind with
  | .call _ _ args =>
    match args[index]? with
    | none => .refused .noSuchArgument e
    | some arg => if arg.ty.fits e.ty then .done arg else .refused .argumentType e
  | _ => .pass e

/-- The receiver in place of the call. -/
def keepReceiver (e : Expr) : Outcome Expr Expr :=
  match e.kind with
  | .call none _ _ => .refused .noReceiver e
  | .call (some r) _ _ => if r.ty.fits e.ty then .done r else .refused .receiverType e
  | _ => .pass e

/-- The declaration whose members a call with this receiver goes to. -/
def calleeOwner? (enclosing : Option String) : Option Expr → Option String
  | none => enclosing
  | some r => if r.isThis then enclosing else r.ty.declared?

/-- Another callee of the same shape. -/
def setCallee (site : Site) (method : String) (e : Expr) : Outcome Expr Expr :=
  match e.kind with
  | .call r old args =>
    if old = method then .refused .sameCallee e
    else
      match calleeOwner? site.enclosing r with
      | some owner =>
        if method ∈ site.declarations.compatibleCallables owner old then
          .done { e with kind := .call r method args }
        else .refused .calleeShape e
      | none => .refused .calleeShape e
  | _ => .pass e

/-- Two arguments of the same type exchanged. -/
def swapArguments (i j : Nat) (e : Expr) : Outcome Expr Expr :=
  match e.kind with
  | .call r method args =>
    match args[i]?, args[j]? with
    | some a, some b =>
      if a.ty = b.ty then .done { e with kind := .call r method (swapAt args i j) }
      else .refused .unequalArguments e
    | _, _ => .refused .unequalArguments e
  | _ => .pass e

end Expr

/-- What an operator answers when it is offered an expression. -/
def Operator.onExpr (op : Operator) (site : Site) (e : Expr) : Outcome Expr Expr :=
  if site.isTarget e.span then
    match op with
    | .setOperator new => e.setOperator new
    | .setBool value => e.setBool value
    | .keepOperand side => e.keepOperand side
    | .insertNegation op => e.insertNegation op
    | .deleteNegation => e.deleteNegation
    | .setLiteral text => e.setLiteral text
    | .setDefault text => e.setDefault text
    | .setVariable name => e.setVariable name
    | .setInit form => e.setInit form
    | .insertThis field => e.insertThis site.enclosing field
    | .deleteThis field => e.deleteThis field
    | .setField field => e.setField site.declarations field
    | .setComponent index => e.setComponent index
    | .setCtor ctor => e.setCtor site.declarations ctor
    | .keepArgument index => e.keepArgument index
    | .keepReceiver => e.keepReceiver
    | .setCallee method => e.setCallee site method
    | .swapArguments i j => e.swapArguments i j
    | _ => .pass e
  else .pass e

end Mutation
