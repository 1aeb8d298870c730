import Mutation.Fault

/-!
# Candidate files

A candidate file holds one record a line. Candidates are appended; blank lines are skipped when
the file is read. A line ends at a line feed, and one carriage return before it is not part of
the line.
-/

namespace Mutation

/-- Why a candidate file cannot be read or written. -/
inductive FileFault where
  | io (path reason : String)
  | malformed (path : String) (line : Nat) (fault : RecordFault)
deriving DecidableEq

namespace FileFault

/-- What is said of a file that cannot be read or written. -/
def message : FileFault → String
  | .io path reason => "cannot write candidates to " ++ path ++ ": " ++ reason
  | .malformed path line fault =>
    "malformed candidate at " ++ path ++ ":" ++ Text.natText line ++ ": " ++ fault.message

/-- The fault of a command that needs the file. -/
def fault (f : FileFault) : Fault :=
  match f with
  | .io path _ => .apply f.message (some path)
  | .malformed .. => .invalid f.message

end FileFault

namespace CandidateFile

/-- The text appended for some candidates. -/
def chars (candidates : List Candidate) : List Char :=
  candidates.flatMap fun c => c.recordChars ++ ['\n']

/-- The text appended for some candidates. -/
def text (candidates : List Candidate) : String := String.ofList (chars candidates)

/-- A line without one carriage return at its end. -/
def dropReturn (line : List Char) : List Char :=
  if line.getLast? = some '\r' then line.dropLast else line

/-- The lines of a text; what follows the last line feed is a line unless it is empty. -/
def lines (cs : List Char) : List (List Char) :=
  let parts := Text.splitAll '\n' cs
  parts.dropLast.map dropReturn ++ parts.getLast?.toList.filter fun last => !last.isEmpty

/-- Reads the candidates of some lines, of which the first has the given number. A line that
cannot be read ends the reading, with the reason. -/
def readLines (path : String) :
    Nat → List (Except String (List Char)) → Except FileFault (List Candidate)
  | _, [] => .ok []
  | _, .error reason :: _ => .error (.io path reason)
  | n, .ok line :: lines =>
    if line.all Text.isBlank then readLines path (n + 1) lines
    else
      match Candidate.readRecordChars line with
      | .error fault => .error (.malformed path n fault)
      | .ok c => (readLines path (n + 1) lines).map fun cs => c :: cs

/-- Reads the candidates of a file with this text. -/
def read (path : String) (cs : List Char) : Except FileFault (List Candidate) :=
  readLines path 1 ((lines cs).map .ok)

end CandidateFile

end Mutation
