import Mutation.Candidate
import Mutation.Operator.Argument

/-!
# Faults of the program

Why a command fails as a whole. Each fault has an exit code, a text and sometimes the file it is
about.
-/

namespace Mutation

/-- Why a command fails. -/
inductive Fault where
  /-- The caller asked for something that makes no sense. -/
  | invalid (message : String)
  /-- The tree cannot be read or decoded. -/
  | treeUnavailable (path message : String)
  /-- The result cannot be written. -/
  | apply (message : String) (file : Option String)
  /-- Something that should not happen. -/
  | internal (message : String)
deriving DecidableEq

namespace Fault

/-- The exit code of a fault. -/
def code : Fault → Nat
  | .invalid _ => 2
  | .treeUnavailable .. => 3
  | .apply .. => 4
  | .internal _ => 10

/-- What is said of a fault. -/
def text : Fault → String
  | .invalid message => "invalid arguments: " ++ message
  | .treeUnavailable path message => "cannot load program tree from " ++ path ++ ": " ++ message
  | .apply message _ => "apply error: " ++ message
  | .internal message => "internal error: " ++ message

/-- The file a fault is about. -/
def file? : Fault → Option String
  | .treeUnavailable path _ => some path
  | .apply _ file => file
  | _ => none

end Fault

/-- A location that cannot be read, as a fault. -/
def LocationFault.fault (f : LocationFault) : Fault := .invalid f.message

/-- An unknown operator code, as a fault. -/
def UnknownKind.fault (f : UnknownKind) : Fault := .invalid f.message

/-- A record that cannot be read, as a fault. -/
def RecordFault.fault (f : RecordFault) : Fault := .invalid f.message

/-- A missing or wrong argument, as a fault. -/
def ArgumentFault.fault (f : ArgumentFault) : Fault := .invalid f.message

end Mutation
