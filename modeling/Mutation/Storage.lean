import Mutation.Program
import Mutation.Text.Bytes

/-!
# A directory of files

A directory as a value, to carry out commands without touching a disk. Paths are relative to
it; a file may lie in a subdirectory, and subdirectories exist by the files in them. A path is
followed name by name, and each name before the last must be that of a directory. Of what lies
outside, only a device on which every write fails is known.
-/

namespace Mutation

/-- Why a file cannot be read or written. -/
inductive StorageFault where
  | missing | notDirectory | isDirectory | full | longName | nulInName | notText
deriving DecidableEq

/-- What the system says of a file that cannot be read or written. -/
def StorageFault.message : StorageFault → String
  | .missing => "No such file or directory (os error 2)"
  | .notDirectory => "Not a directory (os error 20)"
  | .isDirectory => "Is a directory (os error 21)"
  | .full => "No space left on device (os error 28)"
  | .longName => "File name too long (os error 36)"
  | .nulInName => "file name contained an unexpected NUL byte"
  | .notText => "stream did not contain valid UTF-8"

/-- Files by the parts of their paths. -/
structure Storage where
  files : List (List String × ByteArray) := []

namespace Storage

/-- The device on which every write fails. -/
def fullDevice : String := "/dev/full"

/-- How many bytes a name may have. -/
def nameLimit : Nat := 255

/-- How many bytes a path may have. -/
def pathLimit : Nat := 4095

/-- The names in a path. -/
def names (path : String) : List String :=
  ((Text.splitAll '/' path.toList).map String.ofList).filter (· ≠ "")

/-- The content of the file with these parts. -/
def content? (s : Storage) (parts : List String) : Option ByteArray := s.files.lookup parts

/-- The parts name a directory. -/
def isDirectory (s : Storage) (parts : List String) : Bool :=
  parts.isEmpty ||
    s.files.any fun (file, _) => parts.length < file.length && parts.isPrefixOf file

/-- The name is that of a directory relative to another. -/
def isRelative (name : String) : Bool := name = "." || name = ".."

/-- The parts of a name in a directory; `none` is a directory outside, in which nothing is. -/
def child (directory : Option (List String)) (name : String) :
    Except StorageFault (List String) :=
  if nameLimit < name.utf8ByteSize then .error .longName
  else
    match directory with
    | none => .error .missing
    | some parts => .ok (parts ++ [name])

/-- The directory above one. -/
def above (parts : List String) : Option (List String) :=
  if parts.isEmpty then none else some parts.dropLast

/-- The directory that a name leads to from a directory. -/
def enter (s : Storage) (directory : Option (List String)) (name : String) :
    Except StorageFault (Option (List String)) := do
  if name = "." then return directory
  else if name = ".." then return directory.bind above
  else
    let parts ← child directory name
    if s.isDirectory parts then return some parts
    else if (s.content? parts).isSome then throw .notDirectory
    else throw .missing

/-- Where a path leads: a directory, or a name in one, with a slash after it or not. -/
inductive Place where
  | directory
  | entry (directory : Option (List String)) (name : String) (slashed : Bool)

/-- Follows a path up to its last name. -/
def locate (s : Storage) (path : String) : Except StorageFault Place := do
  if path.toList.contains (Char.ofNat 0) then throw .nulInName
  else if path.isEmpty then throw .missing
  else if pathLimit < path.utf8ByteSize then throw .longName
  else
    match (names path).getLast? with
    | none => return .directory
    | some last =>
      let start := if path.startsWith "/" then none else some []
      let directory ← (names path).dropLast.foldlM s.enter start
      if isRelative last then return .directory
      else return .entry directory last (path.endsWith "/")

/-- Reads a file. -/
def read (s : Storage) (path : String) : Except StorageFault ByteArray := do
  match ← s.locate path with
  | .directory => throw .isDirectory
  | .entry directory name slashed =>
    let parts ← child directory name
    if s.isDirectory parts then throw .isDirectory
    else
      match s.content? parts with
      | none => throw .missing
      | some bytes => if slashed then throw .notDirectory else return bytes

/-- Reads a text file. -/
def readText (s : Storage) (path : String) : Except StorageFault String := do
  match String.fromUTF8? (← s.read path) with
  | some text => return text
  | none => throw .notText

/-- Reads a file that need not be text, with marks in the place of what is not. -/
def readMarked (s : Storage) (path : String) : Except StorageFault String :=
  (s.read path).map Text.decode

/-- The parts of the file that a path names, which may have to be made. -/
def target (s : Storage) (path : String) : Except StorageFault (List String) := do
  match ← s.locate path with
  | .directory => throw .isDirectory
  | .entry directory name slashed =>
    if slashed then throw .isDirectory
    else
      let parts ← child directory name
      if s.isDirectory parts then throw .isDirectory else return parts

/-- Puts a file in place. -/
def put (s : Storage) (parts : List String) (bytes : ByteArray) : Storage :=
  ⟨(parts, bytes) :: s.files.filter fun (file, _) => file ≠ parts⟩

/-- Puts a file in place with the directories on its path. -/
def install (s : Storage) (path : String) (bytes : ByteArray) : Storage :=
  s.put ((names path).filter (· ≠ ".")) bytes

/-- Changes a file; `f` gives the new content from the old one. -/
def change (s : Storage) (path : String) (isEmpty : Bool) (f : ByteArray → ByteArray) :
    Except StorageFault Storage := do
  if path = fullDevice then
    if isEmpty then return s else throw .full
  else
    let parts ← s.target path
    return s.put parts (f ((s.content? parts).getD .empty))

/-- Carries out a change to a file. -/
def perform (s : Storage) : Effect → Except StorageFault Storage
  | .append path text => s.change path text.isEmpty fun old => old ++ text.toUTF8
  | .write path text => s.change path text.isEmpty fun _ => text.toUTF8

/-- Runs a command: its response or its fault, and the files afterwards. -/
def run (s : Storage) (c : Command) : Except Fault Json × Storage :=
  match c.plan ((s.readText c.tree).mapError StorageFault.message) with
  | .error fault => (.error fault, s)
  | .ok ⟨none, response⟩ => (.ok response, s)
  | .ok ⟨some effect, response⟩ =>
    match s.perform effect with
    | .ok s => (.ok response, s)
    | .error reason => (.error (effect.fault reason.message), s)

/-- The bytes of a list up to each line feed, which stays with its line. -/
def splitLines : List UInt8 → List (List UInt8)
  | [] => []
  | b :: bs =>
    if b = 10 then [b] :: splitLines bs
    else
      match splitLines bs with
      | [] => [[b]]
      | line :: lines => (b :: line) :: lines

/-- The text of a line, without its end. -/
def lineText (bytes : List UInt8) : Except String (List Char) :=
  match String.fromUTF8? ⟨bytes.toArray⟩ with
  | none => .error StorageFault.notText.message
  | some text => .ok ((CandidateFile.lines text.toList).headD [])

/-- Reads the candidates of a file. -/
def readCandidates (s : Storage) (path : String) : Except FileFault (List Candidate) :=
  match s.read path with
  | .error reason => .error (.io path reason.message)
  | .ok bytes => CandidateFile.readLines path 1 ((splitLines bytes.toList).map lineText)

/-- Appends candidates to a file. -/
def appendCandidates (s : Storage) (path : String) (candidates : List Candidate) :
    Except FileFault Storage :=
  (s.perform (.append path (CandidateFile.text candidates))).mapError fun reason =>
    .io path reason.message

end Storage

end Mutation
