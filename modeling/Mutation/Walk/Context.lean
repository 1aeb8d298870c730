import Mutation.Tree.Module

/-!
# Executable, specification and ghost code

Only executable code is compiled. Contracts, invariants and asserted conditions are
specification; members and statements marked ghost are ghost code. A node is classified on its
own, without regard to what it stands in.
-/

namespace Mutation

/-- The kind of code a node belongs to. -/
inductive Context where
  | executable
  | specification
  | ghost
deriving DecidableEq

/-- The name of a kind of code. -/
def Context.name : Context → String
  | .executable => "Executable"
  | .specification => "Specification"
  | .ghost => "Ghost"

/-- The kind of code a statement is. -/
def Stmt.context (s : Stmt) : Context :=
  if s.ghost then .ghost
  else
    match s.kind with
    | .assert _ | .assume _ => .specification
    | _ => .executable

/-- The kind of code a member is. -/
def Member.context (m : Member) : Context :=
  if m.isGhost then .ghost else .executable

end Mutation
