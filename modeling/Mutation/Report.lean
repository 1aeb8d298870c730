import Mutation.Operator.Kind
import Mutation.Operator.Outcome
import Mutation.Text.Quoted

/-!
# Reports and notes

A report says what became of one request. Notes are the lines a log would hold: what a deletion
did along the way, and how a search or a scan ended.
-/

namespace Mutation

/-- What kind of place was changed. -/
inductive Found where
  /-- An expression outside any assignment. -/
  | expression
  /-- A statement, or a statement list as a whole. -/
  | statement
  /-- An expression in an assignment or declaration. -/
  | assignment
  /-- A member list. -/
  | member
deriving DecidableEq

/-- The name of a place in reports. -/
def Found.name : Found → String
  | .expression => "expression"
  | .statement => "statement"
  | .assignment => "assignment"
  | .member => "member"

/-- The title of a place in notes. -/
def Found.title : Found → String
  | .expression => "Expression"
  | .statement => "Statement"
  | .assignment => "Assignment"
  | .member => "Member"

/-- What became of a request. -/
structure Report where
  kind : Kind
  location : Location
  found : Option Found
  /-- The span of the node that was changed. -/
  span : Option Span
  /-- The last method or function the search entered. -/
  containing : Option String
  refusal : Option Refusal
deriving DecidableEq

/-- The request was carried out. -/
def Report.isApplied (r : Report) : Bool := r.found.isSome

/-- How far the deletion of a variable went. -/
inductive Extent where
  | declarationOnly | collapsed | statementsDeleted
deriving DecidableEq

/-- The name of an extent. -/
def Extent.name : Extent → String
  | .declarationOnly => "DeclarationOnly"
  | .collapsed => "Collapsed"
  | .statementsDeleted => "StatementsDeleted"

/-- A line of the log. -/
inductive Note where
  | cascadeExhausted (name : String) (depth : Nat)
  | listRestored (name : String)
  | variableDeleted (name : String) (extent : Extent) (statements expressions : Nat)
      (cascaded : List String)
  | targetRefused (containing : Option String) (reason : Refusal)
  | nothingFound (containing : Option String)
  | applied (found : Found)
  | scanned (candidates : Nat)

namespace Note

/-- The level of a line. -/
def level : Note → String
  | .targetRefused .. | .nothingFound _ => "INFO"
  | _ => "DEBUG"

/-- The message of a line. -/
def message : Note → String
  | .cascadeExhausted .. => "cascade depth exhausted"
  | .listRestored _ => "cascade cut short, list restored"
  | .variableDeleted .. => "variable deleted"
  | .targetRefused .. => "target refused the mutation"
  | .nothingFound _ => "no node at the target location"
  | .applied _ => "mutation applied"
  | .scanned _ => "scan complete"

/-- The named values of a line. -/
def fields : Note → List (String × String)
  | .cascadeExhausted name depth =>
    [("variable", name), ("depth", Text.natText depth)]
  | .listRestored name => [("variable", name)]
  | .variableDeleted name extent statements expressions cascaded =>
    [("variable", name), ("state", extent.name),
      ("deleted_statements", Text.natText statements),
      ("collapsed_expressions", Text.natText expressions),
      ("cascaded", Text.quoteAll cascaded)]
  | .targetRefused containing reason =>
    [("containing", containing.getD "-"), ("reason", reason.message)]
  | .nothingFound containing => [("containing", containing.getD "-")]
  | .applied found => [("found", "Some(" ++ found.title ++ ")")]
  | .scanned candidates => [("candidates", Text.natText candidates)]

end Note

end Mutation
