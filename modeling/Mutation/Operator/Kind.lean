import Mutation.Text.Blank

/-!
# Kinds of mutation operators

The catalogue is closed: twenty-eight kinds, each with a three-letter code. Codes are read
without regard to case or surrounding blanks.
-/

namespace Mutation

/-- A kind of mutation operator. -/
inductive Kind where
  /-- Another operator in a binary expression. -/
  | binaryReplacement
  /-- A boolean constant for a binary expression. -/
  | binaryToBool
  /-- One operand for a binary expression. -/
  | operandOnly
  /-- A negation around a name. -/
  | negationInsertion
  /-- The operand for a negation. -/
  | negationDeletion
  /-- Another value for a literal. -/
  | literalReplacement
  /-- The default of its type for an expression. -/
  | defaultValue
  /-- Another variable for a name. -/
  | variableReplacement
  /-- Another initializer for a collection or an array. -/
  | initReplacement
  /-- An inserted `this.` before a shadowed field. -/
  | thisInsertion
  /-- No `this.` before a field. -/
  | thisDeletion
  /-- A sibling field in a field access. -/
  | fieldReplacement
  /-- Another component of a tuple. -/
  | componentReplacement
  /-- A sibling constructor. -/
  | ctorReplacement
  /-- An argument for a call. -/
  | argumentPropagation
  /-- The receiver for a call. -/
  | receiverPropagation
  /-- Another callee of the same shape. -/
  | calleeReplacement
  /-- Two arguments of a call exchanged. -/
  | argumentSwap
  /-- Defaults for returned values. -/
  | returnDefaults
  /-- A statement deleted. -/
  | statementDeletion
  /-- A `break` at the start of a loop body. -/
  | breakInsertion
  /-- A branch for an `if`. -/
  | branchExtraction
  /-- One branch of an `if` chain deleted. -/
  | branchDeletion
  /-- Case bodies exchanged with the default case. -/
  | caseReplacement
  /-- A case body for a `match`. -/
  | caseExtraction
  /-- The initializers of two declarations exchanged. -/
  | initializerSwap
  /-- The bodies of two methods exchanged. -/
  | bodySwap
  /-- A variable and the code that depends on it deleted. -/
  | variableDeletion
deriving DecidableEq

/-- No operator has this code. -/
structure UnknownKind where
  text : String
deriving DecidableEq

/-- What is said of an unknown code. -/
def UnknownKind.message (u : UnknownKind) : String :=
  "unknown operator kind '" ++ u.text ++ "'"

namespace Kind

/-- The kinds in catalogue order. -/
def all : List Kind :=
  [.binaryReplacement, .binaryToBool, .operandOnly, .negationInsertion, .negationDeletion,
    .literalReplacement, .defaultValue, .variableReplacement, .initReplacement, .thisInsertion,
    .thisDeletion, .fieldReplacement, .componentReplacement, .ctorReplacement,
    .argumentPropagation, .receiverPropagation, .calleeReplacement, .argumentSwap,
    .returnDefaults, .statementDeletion, .breakInsertion, .branchExtraction, .branchDeletion,
    .caseReplacement, .caseExtraction, .initializerSwap, .bodySwap, .variableDeletion]

/-- The code of a kind. -/
def code : Kind → String
  | .binaryReplacement => "BOR"
  | .binaryToBool => "BBR"
  | .operandOnly => "ODL"
  | .negationInsertion => "UOI"
  | .negationDeletion => "UOD"
  | .literalReplacement => "LVR"
  | .defaultValue => "EVR"
  | .variableReplacement => "VER"
  | .initReplacement => "CIR"
  | .thisInsertion => "THI"
  | .thisDeletion => "THD"
  | .fieldReplacement => "FAR"
  | .componentReplacement => "TAR"
  | .ctorReplacement => "DCR"
  | .argumentPropagation => "MAP"
  | .receiverPropagation => "MNR"
  | .calleeReplacement => "MCR"
  | .argumentSwap => "SWA"
  | .returnDefaults => "MRR"
  | .statementDeletion => "SDL"
  | .breakInsertion => "LBI"
  | .branchExtraction => "IBE"
  | .branchDeletion => "IBD"
  | .caseReplacement => "CBR"
  | .caseExtraction => "CBE"
  | .initializerSwap => "SWV"
  | .bodySwap => "MBS"
  | .variableDeletion => "VDL"

/-- Two places are edited at once. -/
def isPairwise : Kind → Bool
  | .initializerSwap => true
  | .bodySwap => true
  | _ => false

/-- The place of a kind in the catalogue. -/
def position (k : Kind) : Nat := all.idxOf k

/-- The kind with exactly this code. -/
def ofCode? (code : String) : Option Kind :=
  all.find? fun k => k.code == code

/-- Reads a code; the fault quotes the text as it was given. -/
def read (s : String) : Except UnknownKind Kind :=
  match ofCode? (String.ofList ((Text.trimChars s.toList).map Text.upperChar)) with
  | some k => .ok k
  | none => .error ⟨s⟩

end Kind

end Mutation
