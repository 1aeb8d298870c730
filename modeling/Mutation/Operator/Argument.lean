import Mutation.Operator.Kind
import Mutation.Source.Location
import Mutation.Tree.Symbol

/-!
# Operators and their arguments

An operator is a kind together with what its argument says. Five kinds take no argument and
ignore one; for the others a blank argument counts as none.
-/

namespace Mutation

/-- A side of a binary expression. -/
inductive Side where
  | left | right
deriving DecidableEq

/-- A branch of an `if`. -/
inductive Branch where
  | thenBranch | elseBranch
deriving DecidableEq

/-- The forms an initializer may be put into. -/
inductive InitForm where
  /-- A display without elements. -/
  | empty
  /-- A display of sample values. -/
  | samples
  /-- An array by its length alone. -/
  | dims
  /-- An array of sample values. -/
  | init
deriving DecidableEq

/-- The name of a form. -/
def InitForm.name : InitForm → String
  | .empty => "empty"
  | .samples => "samples"
  | .dims => "dims"
  | .init => "init"

/-- A mutation operator with its argument. -/
inductive Operator where
  | setOperator (op : BinaryOp)
  | setBool (value : Bool)
  | keepOperand (side : Side)
  | insertNegation (op : UnaryOp)
  | deleteNegation
  | setLiteral (text : String)
  | setDefault (text : String)
  | setVariable (name : String)
  | setInit (form : InitForm)
  | insertThis (field : String)
  | deleteThis (field : String)
  | setField (field : String)
  | setComponent (index : UInt64)
  | setCtor (ctor : String)
  | keepArgument (index : Nat)
  | keepReceiver
  | setCallee (method : String)
  | swapArguments (first second : Nat)
  | setReturn (texts : List String)
  | deleteStmt
  | insertBreak
  | keepBranch (branch : Branch)
  | deleteBranch
  | exchangeDefault (ctor : String)
  | keepCase (index : Nat)
  | swapInits (start stop : Pos)
  | swapBodies (method : String)
  | deleteVariable (name : String)

/-- Why there is no operator for a kind and an argument. -/
inductive ArgumentFault where
  | missing (kind : Kind)
  | invalid (kind : Kind) (argument reason : String)
deriving DecidableEq

/-- What is said of a missing or wrong argument. -/
def ArgumentFault.message : ArgumentFault → String
  | .missing kind => "operator " ++ kind.code ++ " requires an argument"
  | .invalid kind argument reason =>
    "invalid argument '" ++ argument ++ "' for operator " ++ kind.code ++ ": " ++ reason

/-- Operators of this kind need an argument. -/
def Kind.takesArgument : Kind → Bool
  | .negationDeletion | .receiverPropagation | .statementDeletion | .breakInsertion
  | .branchDeletion => false
  | _ => true

namespace Operator

/-- The kind of an operator. -/
def kind : Operator → Kind
  | .setOperator _ => .binaryReplacement
  | .setBool _ => .binaryToBool
  | .keepOperand _ => .operandOnly
  | .insertNegation _ => .negationInsertion
  | .deleteNegation => .negationDeletion
  | .setLiteral _ => .literalReplacement
  | .setDefault _ => .defaultValue
  | .setVariable _ => .variableReplacement
  | .setInit _ => .initReplacement
  | .insertThis _ => .thisInsertion
  | .deleteThis _ => .thisDeletion
  | .setField _ => .fieldReplacement
  | .setComponent _ => .componentReplacement
  | .setCtor _ => .ctorReplacement
  | .keepArgument _ => .argumentPropagation
  | .keepReceiver => .receiverPropagation
  | .setCallee _ => .calleeReplacement
  | .swapArguments _ _ => .argumentSwap
  | .setReturn _ => .returnDefaults
  | .deleteStmt => .statementDeletion
  | .insertBreak => .breakInsertion
  | .keepBranch _ => .branchExtraction
  | .deleteBranch => .branchDeletion
  | .exchangeDefault _ => .caseReplacement
  | .keepCase _ => .caseExtraction
  | .swapInits _ _ => .initializerSwap
  | .swapBodies _ => .bodySwap
  | .deleteVariable _ => .variableDeletion

/-- The element of `table` named by the argument, blanks around it ignored. -/
def readWord? {α : Type} (table : List (String × α)) (argument : String) : Option α :=
  table.lookup (Text.trim argument)

/-- An index, blanks around it ignored. -/
def readIndex? (cs : List Char) : Option UInt64 := Text.readWord64? (Text.trimChars cs)

/-- Two different indices with `;` between them; what is wrong otherwise. -/
def readPair (argument : String) : Except String (Nat × Nat) :=
  let malformed := "expected 'i;j'"
  match Text.splitFirst ';' argument.toList with
  | none => .error malformed
  | some (left, right) =>
    match readIndex? left, readIndex? right with
    | some i, some j =>
      if i = j then .error "indices must differ" else .ok (i.toNat, j.toNat)
    | _, _ => .error malformed

/-- A range; what is wrong otherwise. -/
def readRange (argument : String) : Except String (Pos × Pos) :=
  match Location.read argument with
  | .ok (.range start stop) => .ok (start, stop)
  | _ => .error "expected the span 'start-end' of the second declaration"

/-- Values with `;` between them. -/
def readValues (argument : String) : List String :=
  (Text.splitAll ';' argument.toList).map fun cs => String.ofList (Text.trimChars cs)

/-- What was read, or what is wrong when nothing was. -/
def orElse {α β : Type} (reason : String) (f : α → β) : Option α → Except String β
  | some a => .ok (f a)
  | none => .error reason

/-- The operator of a kind with this argument; what is wrong otherwise. -/
def ofArgument (kind : Kind) (argument : String) : Except String Operator :=
  match kind with
  | .binaryReplacement =>
    orElse "not a binary operator name" .setOperator (BinaryOp.read? argument)
  | .binaryToBool =>
    orElse "expected 'true' or 'false'" .setBool
      (readWord? [("true", true), ("false", false)] argument)
  | .operandOnly =>
    orElse "expected 'left' or 'right'" .keepOperand
      (readWord? [("left", .left), ("right", .right)] argument)
  | .negationInsertion => orElse "expected 'Not' or 'Neg'" .insertNegation (UnaryOp.read? argument)
  | .negationDeletion => .ok .deleteNegation
  | .literalReplacement => .ok (.setLiteral argument)
  | .defaultValue => .ok (.setDefault argument)
  | .variableReplacement => .ok (.setVariable (Text.trim argument))
  | .initReplacement =>
    orElse "expected one of 'empty', 'samples', 'dims', 'init'" .setInit
      (readWord? ([.empty, .samples, .dims, .init].map fun f => (InitForm.name f, f)) argument)
  | .thisInsertion => .ok (.insertThis (Text.trim argument))
  | .thisDeletion => .ok (.deleteThis (Text.trim argument))
  | .fieldReplacement => .ok (.setField (Text.trim argument))
  | .componentReplacement =>
    orElse "expected a component index" .setComponent (readIndex? argument.toList)
  | .ctorReplacement => .ok (.setCtor (Text.trim argument))
  | .argumentPropagation =>
    orElse "expected an argument index" (fun i => .keepArgument i.toNat)
      (readIndex? argument.toList)
  | .receiverPropagation => .ok .keepReceiver
  | .calleeReplacement => .ok (.setCallee (Text.trim argument))
  | .argumentSwap => (readPair argument).map fun (i, j) => .swapArguments i j
  | .returnDefaults => .ok (.setReturn (readValues argument))
  | .statementDeletion => .ok .deleteStmt
  | .breakInsertion => .ok .insertBreak
  | .branchExtraction =>
    orElse "expected 'then' or 'else'" .keepBranch
      (readWord? [("then", .thenBranch), ("else", .elseBranch)] argument)
  | .branchDeletion => .ok .deleteBranch
  | .caseReplacement => .ok (.exchangeDefault (Text.trim argument))
  | .caseExtraction =>
    orElse "expected a case index" (fun i => .keepCase i.toNat) (readIndex? argument.toList)
  | .initializerSwap => (readRange argument).map fun (start, stop) => .swapInits start stop
  | .bodySwap => .ok (.swapBodies (Text.trim argument))
  | .variableDeletion => .ok (.deleteVariable (Text.trim argument))

/-- The operator for a kind and an argument. -/
def make (kind : Kind) (argument : Option String) : Except ArgumentFault Operator :=
  match if kind.takesArgument then argument.filter fun a => !Text.isBlankText a else some "" with
  | none => .error (.missing kind)
  | some a =>
    match ofArgument kind a with
    | .ok op => .ok op
    | .error reason => .error (.invalid kind a reason)

end Operator

end Mutation
