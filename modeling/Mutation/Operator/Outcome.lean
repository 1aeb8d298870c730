import Mutation.Declarations
import Mutation.Walk.Edit

/-!
# What an operator answers

An operator is offered nodes. It passes over a node that is not its target. At its target it
either makes its change or refuses. It may take a node apart before it has decided, so it hands back
the node that it passes over or refuses.
-/

namespace Mutation

/-- Why an operator leaves its target as it is. -/
inductive Refusal where
  | operatorClass | notBoolean | operandType | negationType
  | unreadableLiteral | sameLiteral | noDefault | unreadableValue
  | sameName | otherName | noClass | otherField | sameField | noSiblingField
  | notTuple | componentType | sameCtor | noSiblingCtor
  | noSuchArgument | argumentType | noReceiver | receiverType | sameCallee | calleeShape
  | unequalArguments | noSamples | notOneDimensional | sameInit
  | isDeclaration | valueCount | unreadableReturn | noElse
  | noSuchCase | movedBodyReads | caseOutOfRange | caseBodyReads
  | otherBlock | declarationTypes | otherDeclaration | methodShape | cascadeExhausted
deriving DecidableEq

/-- What is said of a refusal. -/
def Refusal.message : Refusal → String
  | .operatorClass => "replacement operator is not compatible"
  | .notBoolean => "expression is not boolean"
  | .operandType => "operand type differs from expression type"
  | .negationType => "negation does not fit the operand type"
  | .unreadableLiteral => "value does not parse as the literal's kind"
  | .sameLiteral => "value equals the original literal"
  | .noDefault => "type has no default value"
  | .unreadableValue => "value does not parse as the expression's type"
  | .sameName => "name already refers to the replacement"
  | .otherName => "name differs from the field"
  | .noClass => "no enclosing class"
  | .otherField => "field differs from the argument"
  | .sameField => "field already selected"
  | .noSiblingField => "no field of the class with the same type"
  | .notTuple => "receiver is not a tuple"
  | .componentType => "component index out of range or of another type"
  | .sameCtor => "constructor already used"
  | .noSiblingCtor => "no constructor of the datatype with the same formals"
  | .noSuchArgument => "argument index out of range"
  | .argumentType => "argument type differs from call type"
  | .noReceiver => "call has no receiver"
  | .receiverType => "receiver type differs from call type"
  | .sameCallee => "call already targets the replacement"
  | .calleeShape => "replacement is not a compatible callable"
  | .unequalArguments => "arguments missing or of different types"
  | .noSamples => "element type has no sample values"
  | .notOneDimensional => "array has no one-dimensional initializer"
  | .sameInit => "initializer is already in the requested form"
  | .isDeclaration => "declarations are removed by VDL"
  | .valueCount => "value count differs from the return statement"
  | .unreadableReturn => "value does not parse as the returned type"
  | .noElse => "if has no else branch"
  | .noSuchCase => "match lacks the named case or a default case"
  | .movedBodyReads => "moved case body reads a pattern variable"
  | .caseOutOfRange => "case index out of range"
  | .caseBodyReads => "case body reads a pattern variable"
  | .otherBlock => "second declaration is not in the same block"
  | .declarationTypes => "declarations have different types"
  | .otherDeclaration => "second method is not in the same declaration"
  | .methodShape => "methods have different formals or no body"
  | .cascadeExhausted => "cascade depth exhausted"

/-- What an operator answers when it is offered a node: its change, or the node as it leaves it. -/
inductive Outcome (ν α : Type) where
  /-- The node is not the target. -/
  | pass (left : ν)
  | done (value : α)
  | refused (reason : Refusal) (left : ν)

/-- What becomes of an element of a statement list. -/
inductive Change where
  /-- The element stays, with this content. -/
  | amend (stmt : Stmt)
  | replace (stmt : Stmt)
  | remove
  | flatten (stmts : List Stmt)

/-- The edit that makes a change. -/
def Change.edit : Change → Edit Stmt
  | .amend s => .replace s
  | .replace s => .replace s
  | .remove => .remove
  | .flatten ss => .flatten ss

/-- What an operator knows about the place where it is offered a node. -/
structure Site where
  /-- Where the target is. -/
  target : Location
  /-- The class or datatype around the node. -/
  enclosing : Option String := none
  /-- How far deletions may follow from one another. -/
  cascadeLimit : Nat := 64
  declarations : Declarations := {}

/-- A node with this span is the target. -/
def Site.isTarget (site : Site) (span : Span) : Bool := site.target.matchesB span

end Mutation
