import Mutation.Tree.Stmt

/-!
# Declarations

A module is a list of classes and datatypes; each holds members: fields, methods, and
functions. The contract of a method or function is its specification: what it requires and
ensures, what it may touch, and what decreases.
-/

namespace Mutation

/-- The specification of a method or function. `frame` is what a method may modify or a
function may read. -/
structure Contract where
  requires : List Expr := []
  ensures : List Expr := []
  frame : List Expr := []
  decreases : List Expr := []

/-- The clauses of a contract, in source order. -/
def Contract.clauses (c : Contract) : List (List Expr) :=
  [c.requires, c.ensures, c.frame, c.decreases]

/-- A method. -/
structure Method where
  name : String
  params : List Variable
  outs : List Variable := []
  contract : Contract := {}
  body : Option Block
  span : Span
  ghost : Bool := false
  isStatic : Bool := false

/-- A function; its body is one expression. -/
structure Function where
  name : String
  params : List Variable
  result : Ty
  contract : Contract := {}
  body : Option Expr
  span : Span
  ghost : Bool := false
  isStatic : Bool := false

/-- Same names and types in the same order. -/
def sameFormals : List Variable → List Variable → Bool
  | [], [] => true
  | a :: as, b :: bs => a.name == b.name && a.ty == b.ty && sameFormals as bs
  | _, _ => false

/-- The bodies of two methods may be exchanged: parameters and results have the same names and
types. -/
def Method.sameFormalsAs (a b : Method) : Bool :=
  sameFormals a.params b.params && sameFormals a.outs b.outs

/-- A member of a class or datatype. -/
inductive Member where
  | field (field : Variable)
  | method (method : Method)
  | function (function : Function)

namespace Member

/-- The name of a member. -/
def name : Member → String
  | .field f => f.name
  | .method m => m.name
  | .function f => f.name

/-- The span of a member. -/
def span : Member → Span
  | .field f => f.span
  | .method m => m.span
  | .function f => f.span

/-- The member is not compiled. -/
def isGhost : Member → Bool
  | .field f => f.ghost
  | .method m => m.ghost
  | .function f => f.ghost

/-- The method, when the member is one. -/
def method? : Member → Option Method
  | .method m => some m
  | _ => none

end Member

/-- A class. -/
structure Class where
  name : String
  members : List Member
  span : Span
  isDefault : Bool := false

/-- A constructor of a datatype. -/
structure Ctor where
  name : String
  formals : List Variable
  span : Span

/-- A datatype. -/
structure Datatype where
  name : String
  ctors : List Ctor
  members : List Member := []
  span : Span

/-- A declaration of a module. -/
inductive Decl where
  | class (decl : Class)
  | datatype (decl : Datatype)

/-- A compilation unit. -/
structure Module where
  name : String
  decls : List Decl

namespace Module

/-- The classes of a module, in order. -/
def classes (m : Module) : List Class :=
  m.decls.filterMap fun
    | .class c => some c
    | .datatype _ => none

/-- The datatypes of a module, in order. -/
def datatypes (m : Module) : List Datatype :=
  m.decls.filterMap fun
    | .class _ => none
    | .datatype d => some d

/-- The first method with this name in the classes with this name. -/
def findMethod? (m : Module) (className name : String) : Option Method :=
  ((m.classes.filter fun c => c.name == className).flatMap fun c =>
    c.members.filterMap Member.method?).find? fun d => d.name == name

end Module

end Mutation
