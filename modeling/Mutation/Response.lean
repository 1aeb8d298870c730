import Mutation.Fault
import Mutation.Json.Writer
import Mutation.Search
import Mutation.Tree.ToJson

/-!
# Responses

What a command prints: one JSON object with a status and the version of its shape. Parts that
are missing are left out.
-/

namespace Mutation

/-- The version of the shape of responses. -/
def schemaVersion : String := "1"

namespace Json

/-- A field that is left out when its value is missing. -/
def fieldIf {α : Type} (name : String) (f : α → Json) : Option α → List (String × Json)
  | none => []
  | some a => [(name, f a)]

end Json

/-- The JSON form of a location. -/
def Location.toJson : Location → Json
  | .anchor p => .tagged "Anchor" (.word p)
  | .range a b => .tagged "Span" (.obj [("start", .word a), ("end", .word b)])

/-- The JSON form of a kind: its code. -/
def Kind.toJson (k : Kind) : Json := .str k.code

/-- The JSON form of a candidate. -/
def Candidate.toJson (c : Candidate) : Json :=
  .obj [("location", c.location.toJson), ("kind", c.kind.toJson), ("argument", .str c.argument)]

/-- The JSON form of a report. -/
def Report.toJson (r : Report) : Json :=
  .obj ([("kind", r.kind.toJson), ("location", r.location.toJson),
      ("status", .str (if r.isApplied then "applied" else "not_found"))] ++
    Json.fieldIf "found" (fun f => .str (Found.name f)) r.found ++
    Json.fieldIf "target_span" Span.toJson r.span ++
    Json.fieldIf "containing" .str r.containing ++
    Json.fieldIf "rejected" (fun f => .str (Refusal.message f)) r.refusal)

namespace Response

/-- A response with a status. -/
def make (status : String) (fields : List (String × Json)) : Json :=
  .obj ([("status", .str status), ("schema_version", .str schemaVersion)] ++ fields)

/-- A candidate as a scan lists it. -/
def candidate (c : Candidate) : Json :=
  .obj ([("location", .str c.location.text), ("kind", c.kind.toJson)] ++
    Json.fieldIf "argument" .str c.argument?)

/-- The response to a scan whose candidates are listed. -/
def listed (moduleName : String) (candidates : List Candidate) : Json :=
  make "ok" [("module", .str moduleName), ("count", .nat candidates.length),
    ("candidates", .list candidate candidates)]

/-- The response to a scan whose candidates were appended to a file. -/
def appended (moduleName : String) (count : Nat) (path : String) : Json :=
  make "ok" [("module", .str moduleName), ("count", .nat count), ("out", .str path)]

/-- The response to a mutation, with the file the module was written to, or the module itself. -/
def mutated (report : Report) (out : Option String) (mutant : Option Module) : Json :=
  make "ok" ([("mutation", report.toJson)] ++ Json.fieldIf "out" .str out ++
    Json.fieldIf "mutant" Module.toJson mutant)

/-- The response to a command that failed. -/
def failed (f : Fault) : Json :=
  make "error" [("error", .obj ([("code", .nat f.code), ("message", .str f.text)] ++
    Json.fieldIf "file" .str f.file?))]

end Response

end Mutation
