import Mutation.Tree.Ty

/-!
# Scopes

A scope holds the variables that are visible at a point, the innermost first. A mark is the
depth of a scope; going back to a mark forgets what was declared since.
-/

namespace Mutation

/-- What introduces a variable. -/
inductive Origin where
  | param | out | local | loopIndex | patternVar
deriving DecidableEq

namespace Origin

/-- The name of an origin. -/
def name : Origin → String
  | .param => "Param"
  | .out => "Out"
  | .local => "Local"
  | .loopIndex => "LoopIndex"
  | .patternVar => "PatternVar"

/-- The origin with exactly this name. -/
def ofName? (s : String) : Option Origin :=
  [.param, .out, .local, .loopIndex, .patternVar].find? fun o => o.name == s

end Origin

/-- A visible variable. -/
structure Binding where
  name : String
  ty : Ty
  origin : Origin
deriving DecidableEq

/-- The variables in scope, the innermost first. -/
structure Scope where
  bindings : List Binding := []

namespace Scope

/-- How many variables are in scope, shadowed ones included. -/
def depth (s : Scope) : Nat := s.bindings.length

/-- The scope with a further variable. -/
def declare (s : Scope) (b : Binding) : Scope := ⟨b :: s.bindings⟩

/-- The scope without what was declared since its depth was `mark`. -/
def restore (s : Scope) (mark : Nat) : Scope := ⟨s.bindings.drop (s.depth - mark)⟩

/-- The innermost variable with this name. -/
def lookup (s : Scope) (name : String) : Option Binding := s.bindings.find? fun b => b.name == name

/-- The elements of a list that come before any other with the same name. -/
def firsts : List Binding → List Binding
  | [] => []
  | b :: bs => b :: (firsts bs).filter fun c => c.name ≠ b.name

/-- The variables that are not shadowed, the innermost first. -/
def visible (s : Scope) : List Binding := firsts s.bindings

end Scope

end Mutation
