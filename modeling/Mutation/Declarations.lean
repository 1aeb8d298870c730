import Mutation.Tree.Module

/-!
# What a module declares

The fields, constructors and callables of each declaration by the name of the declaration.
Declarations that share a name share their members, those of classes first. A datatype hides
the constructors of an earlier datatype of its name.
-/

namespace Mutation

/-- A method or a function. -/
inductive CallableKind where
  | method | function
deriving DecidableEq

/-- The name of a kind of callable. -/
def CallableKind.name : CallableKind → String
  | .method => "Method"
  | .function => "Function"

/-- What a call needs to know of a method or function. -/
structure Callable where
  name : String
  kind : CallableKind
  params : List Ty
  results : List Ty
  ghost : Bool
  isStatic : Bool

/-- Two callables take and give the same types. -/
def Callable.sameSignature (a b : Callable) : Bool :=
  a.params = b.params && a.results = b.results

/-- What a call needs to know of a member, if it can be called. -/
def Member.callable? : Member → Option Callable
  | .field _ => none
  | .method m =>
    some ⟨m.name, .method, m.params.map (·.ty), m.outs.map (·.ty), m.ghost, m.isStatic⟩
  | .function f =>
    some ⟨f.name, .function, f.params.map (·.ty), [f.result], f.ghost, f.isStatic⟩

/-- The field, when a member is one. -/
def Member.field? : Member → Option Variable
  | .field f => some f
  | _ => none

/-- The declarations of a module, classes before datatypes. -/
structure Declarations where
  classes : List Class := []
  datatypes : List Datatype := []

/-- The declarations of a module. -/
def Module.declarations (m : Module) : Declarations := ⟨m.classes, m.datatypes⟩

namespace Declarations

variable (d : Declarations)

/-- The members of the declarations with this name. -/
def membersOf (owner : String) : List Member :=
  ((d.classes.filter fun c => c.name == owner).flatMap (·.members)) ++
    (d.datatypes.filter fun t => t.name == owner).flatMap (·.members)

/-- The fields that are compiled, in order. -/
def fieldsOf (owner : String) : List Variable :=
  ((d.membersOf owner).filterMap Member.field?).filter fun f => !f.ghost

/-- The methods and functions, in order. -/
def callablesOf (owner : String) : List Callable := (d.membersOf owner).filterMap Member.callable?

/-- The constructors of the last datatype with this name. -/
def ctorsOf (datatype : String) : List Ctor :=
  match (d.datatypes.filter fun t => t.name == datatype).getLast? with
  | some t => t.ctors
  | none => []

/-- The type of a field. -/
def fieldType? (owner field : String) : Option Ty :=
  ((d.fieldsOf owner).find? fun f => f.name == field).map (·.ty)

/-- The other fields with the type of this one. -/
def siblingFields (owner field : String) : List String :=
  match d.fieldType? owner field with
  | none => []
  | some ty => ((d.fieldsOf owner).filter fun f => f.name ≠ field && f.ty = ty).map (·.name)

/-- The other constructors with the parameter types of this one. -/
def siblingCtors (datatype ctor : String) : List String :=
  match (d.ctorsOf datatype).find? fun c => c.name == ctor with
  | none => []
  | some current =>
    ((d.ctorsOf datatype).filter fun c =>
      c.name ≠ ctor && c.formals.map (·.ty) = current.formals.map (·.ty)).map (·.name)

/-- The first method or function with this name. -/
def callable? (owner name : String) : Option Callable :=
  (d.callablesOf owner).find? fun c => c.name == name

/-- The other methods and functions a call to this one may go to instead. -/
def compatibleCallables (owner name : String) : List String :=
  match d.callable? owner name with
  | none => []
  | some current =>
    ((d.callablesOf owner).filter fun c =>
      c.name ≠ name && !c.ghost && c.kind = current.kind && c.isStatic == current.isStatic &&
        c.sameSignature current).map (·.name)

end Declarations

end Mutation
