import Mutation.Source.Location
import Mutation.Operator.Kind

/-!
# Candidates

A candidate is a proposed mutation: where, which operator, with which argument. As a record
it is one line of text, `location,KIND,argument`; the argument is the rest of the line and may
hold commas. Line breaks at the end of a record are not part of it.
-/

namespace Mutation

/-- A proposed mutation. The argument is empty when the operator takes none. -/
structure Candidate where
  location : Location
  kind : Kind
  argument : String
deriving DecidableEq

/-- Why a text is no candidate record. -/
inductive RecordFault where
  | missingKind
  | location (fault : LocationFault)
  | kind (fault : UnknownKind)
deriving DecidableEq

/-- What is said of a text that is no candidate record. -/
def RecordFault.message : RecordFault → String
  | .missingKind => "candidate record is missing the kind field"
  | .location fault => fault.message
  | .kind fault => fault.message

namespace Candidate

/-- The argument, when there is one. -/
def argument? (c : Candidate) : Option String :=
  if c.argument.isEmpty then none else some c.argument

/-- The record of a candidate. -/
def recordChars (c : Candidate) : List Char :=
  c.location.chars ++ ',' :: (c.kind.code.toList ++ ',' :: c.argument.toList)

/-- The record of a candidate. -/
def record (c : Candidate) : String := String.ofList c.recordChars

/-- A carriage return or a line feed. -/
def isLineEnd (c : Char) : Bool := c == '\r' || c == '\n'

/-- Reads a record. A missing kind is noticed before a bad location, and that before a bad
kind. -/
def readRecordChars (line : List Char) : Except RecordFault Candidate :=
  match Text.splitFirst ',' (Text.dropEndWhile isLineEnd line) with
  | none => .error .missingKind
  | some (location, rest) =>
    let (kind, argument) := (Text.splitFirst ',' rest).getD (rest, [])
    match Location.readChars location with
    | .error fault => .error (.location fault)
    | .ok location =>
      match Kind.read (String.ofList kind) with
      | .error fault => .error (.kind fault)
      | .ok kind => .ok ⟨location, kind, String.ofList argument⟩

/-- Reads a record. -/
def readRecord (s : String) : Except RecordFault Candidate := readRecordChars s.toList

end Candidate

end Mutation
