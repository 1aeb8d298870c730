import Mutation.CandidateFile
import Mutation.Json.Reader
import Mutation.Response
import Mutation.Scan
import Mutation.Tree.FromJson

/-!
# Commands

A command reads a tree from a file, and scans or mutates it. What it does beyond that is a plan:
the response to print and at most one file to write before. Deciding on a plan touches no file;
whoever carries it out reads the tree first and turns a failed write into a fault.
-/

namespace Mutation

/-- A command of the program. -/
inductive Command where
  /-- Propose mutations, and append them to a file if one is given. -/
  | scan (tree : String) (out : Option String) (only : List String)
  /-- Carry out one mutation, and write the module to a file if one is given. -/
  | mutate (tree place kind : String) (argument out : Option String) (cascadeLimit : Nat)

/-- The file a command reads its tree from. -/
def Command.tree : Command → String
  | .scan tree .. => tree
  | .mutate tree .. => tree

/-- A change to a file. -/
inductive Effect where
  | append (path text : String)
  | write (path text : String)

/-- The fault of a command whose change to a file fails for a reason. -/
def Effect.fault (e : Effect) (reason : String) : Fault :=
  match e with
  | .append path _ => (FileFault.io path reason).fault
  | .write path _ => .apply reason (some path)

/-- What a command comes to. -/
structure Plan where
  effect : Option Effect := none
  response : Json

/-- The module a text denotes. -/
def Module.ofText? (s : String) : Option Module := (Json.read? s).bind (Decoder.run Module.decoder)

/-- The module a file holds, by its text or the reason why it cannot be read. -/
def Module.load (path : String) (text : Except String String) : Except Fault Module :=
  match text with
  | .error reason => .error (.treeUnavailable path reason)
  | .ok text =>
    match Module.ofText? text with
    | some m => .ok m
    | none => .error (.treeUnavailable path "not a program tree")

/-- The kinds a scan is restricted to; none when no code is given. -/
def readKinds (codes : List String) : Except Fault (Option (List Kind)) :=
  if codes.isEmpty then .ok none
  else
    match codes.mapM Kind.read with
    | .ok kinds => .ok (some kinds)
    | .error fault => .error fault.fault

/-- Decides what a command comes to, by the text of its tree or the reason why there is none. -/
def Command.plan (c : Command) (text : Except String String) : Except Fault Plan :=
  match c with
  | .scan tree out codes => do
    let m ← Module.load tree text
    let only ← readKinds codes
    let candidates := m.scan { only }
    match out with
    | none => return { response := Response.listed m.name candidates }
    | some path =>
      return { effect := some (.append path (CandidateFile.text candidates))
               response := Response.appended m.name candidates.length path }
  | .mutate tree place code argument out cascadeLimit => do
    let location ← (Location.read place).mapError LocationFault.fault
    let kind ← (Kind.read code).mapError UnknownKind.fault
    let m ← Module.load tree text
    let mutant ← (m.mutate ⟨location, kind, argument⟩ cascadeLimit).mapError ArgumentFault.fault
    if mutant.report.isApplied then
      match out with
      | none => return { response := Response.mutated mutant.report none (some mutant.module) }
      | some path =>
        return { effect := some (.write path mutant.module.toJson.pretty)
                 response := Response.mutated mutant.report out none }
    else return { response := Response.mutated mutant.report none none }

end Mutation
