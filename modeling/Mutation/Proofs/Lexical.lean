import Mutation.Proofs.Course

/-!
# What is in scope where

`Module.occurrences` lists the nodes of the executable code in walk order, each with what is around
it, by recursion on the tree. In scope at a node are the parameters and results of its member, the
locals of the declarations before it in each list around it, the index of each loop in whose body
it is, and the variables of the pattern of each case around it. What is declared further inside
hides what has the same name further outside (`Scope.mem_visible`).

All variables count, those of ghost statements too, but the ghost ones are marked. Executable code
can use the others only, which are the scope of a node (`Surroundings.scope`).
-/

namespace Mutation

/-! ### Hiding -/

namespace Scope

theorem nodup_firsts (bs : List Binding) : ((firsts bs).map (·.name)).Nodup := by
  induction bs with
  | nil => exact .nil
  | cons b bs ih =>
    refine List.nodup_cons.2 ⟨?_, (List.filter_sublist.map _).nodup ih⟩
    simp

/-- No two of them have the same name. -/
theorem nodup_visible (s : Scope) : (s.visible.map (·.name)).Nodup := nodup_firsts s.bindings

/-- A variable is hidden unless it is the innermost one of its name. -/
theorem mem_visible {s : Scope} {b : Binding} : b ∈ s.visible ↔ s.lookup b.name = some b := by
  obtain ⟨bs⟩ := s
  simp only [visible, lookup]
  induction bs with
  | nil => simp [firsts]
  | cons c bs ih =>
    rw [firsts, List.mem_cons, List.mem_filter, ih, List.find?_cons]
    by_cases same : c.name = b.name
    · simp [same, eq_comm]
    · have other : c ≠ b := fun h => same (h ▸ rfl)
      rw [beq_eq_false_iff_ne.2 same]
      simp [Ne.symm same, other.symm]

end Scope

/-! ### Surroundings -/

/-- A declared variable. A ghost variable is for specifications and ghost code only. -/
structure Declared extends Binding where
  ghost : Bool

/-- Variables that are declared together; in a ghost statement all of them are ghost. -/
def Declared.ofVars (origin : Origin) (ghost : Bool) (vars : List Variable) : List Declared :=
  vars.map fun v => ⟨⟨v.name, v.ty, origin⟩, ghost || v.ghost⟩

/-- The variables that a statement declares for those behind it in its list. -/
def Stmt.declared (s : Stmt) : List Declared :=
  match s.kind with
  | .varDecl d => Declared.ofVars .local s.ghost d.locals
  | _ => []

/-- The variables of a pattern. -/
def Pattern.declared (p : Pattern) : List Declared :=
  p.bindings.map fun (name, ty) => ⟨⟨name, ty, .patternVar⟩, false⟩

/-- What is around a node. -/
structure Surroundings where
  /-- The variables declared before the node, the innermost first. -/
  vars : List Declared := []
  /-- The class or datatype around the node. -/
  decl : Option Decl := none
  /-- The member around the node is static. -/
  isStatic : Bool := false
  /-- The span of the call that is the statement around the node. -/
  bare : Option Span := none

/-- The class, when a declaration is one. -/
def Decl.class? : Decl → Option Class
  | .class c => some c
  | .datatype _ => none

namespace Surroundings

variable (a : Surroundings)

/-- The same with further variables, the innermost last. -/
def bind (new : List Declared) : Surroundings := { a with vars := new.reverse ++ a.vars }

/-- The variables that executable code may use, hidden ones included. -/
def scope : Scope := ⟨(a.vars.filter fun v => !v.ghost).map (·.toBinding)⟩

/-- The class around the node, if it is in a class. -/
def class? : Option Class := a.decl.bind Decl.class?

/-- What is known of a node with these surroundings. -/
def view (m : Module) (o : ScanOptions) : View where
  declarations := m.declarations
  sentinel := o.sentinel
  scope := a.scope
  enclosingClass := a.class?.map (·.name)
  enclosingType := a.decl.map Decl.name
  inStatic := a.isStatic
  bare := a.bare

theorem bind_cons (v : Declared) (new : List Declared) : a.bind (v :: new) = (a.bind [v]).bind new := by
  simp [bind]

theorem bind_append (new new' : List Declared) :
    a.bind (new ++ new') = (a.bind new).bind new' := by
  simp [bind]

/-- What is declared comes before what was in scope. -/
theorem bindings_bind (new : List Declared) :
    ∃ added, (a.bind new).scope.bindings = added ++ a.scope.bindings := by
  simp [bind, scope]

/-- Ghost variables make no difference to executable code. -/
theorem view_bind_ghost (new : List Declared) (ghost : ∀ v ∈ new, v.ghost = true) (m : Module)
    (o : ScanOptions) : (a.bind new).view m o = a.view m o := by
  have none : new.reverse.filter (fun v => !v.ghost) = [] := by
    simpa [List.filter_eq_nil_iff] using ghost
  have same : (a.bind new).scope = a.scope := by
    rw [scope, bind, List.filter_append, none, List.nil_append, scope]
  simp only [view, same]
  rfl

end Surroundings

/-! ### Occurrences -/

/-- A node of the executable code with what is around it. -/
structure Occurrence where
  node : Expr
  around : Surroundings

/-- The nodes of an expression that are executed; what is inside `old` is not. -/
def Expr.executed (e : Expr) : List Expr := (e.places .executable).filterMap Place.expr?

/-- The nodes of some expressions with these surroundings. -/
def Surroundings.nodes (a : Surroundings) (es : List Expr) : List Occurrence :=
  (es.flatMap Expr.executed).map fun e => ⟨e, a⟩

/-- The subscript of an assignment target. -/
def Expr.subscript? (target : Expr) : Option Expr :=
  match target.kind with
  | .index _ i => some i
  | _ => none

mutual
/-- The nodes of the executable code in a statement. -/
def Stmt.occurrences (a : Surroundings) : Stmt → List Occurrence
  | ⟨kind, span, ghost⟩ =>
    if Stmt.context ⟨kind, span, ghost⟩ = .executable then kind.occurrences a else []

def StmtKind.occurrences (a : Surroundings) : StmtKind → List Occurrence
  | .varDecl d => a.nodes d.values
  | .update u => a.nodes (u.targets.filterMap Expr.subscript? ++ u.values)
  | .expr e => Surroundings.nodes { a with bare := some e.span } [e]
  | .assert e | .assume e => a.nodes [e]
  | .ret es | .print es => a.nodes es
  | .ifElse guard thenBranch elseBranch =>
    a.nodes guard.toList ++ thenBranch.occurrences a ++ Stmt.occurrencesOpt a elseBranch
  | .whileLoop guard _ _ body => a.nodes guard.toList ++ body.occurrences a
  | .forLoop index start stop _ _ body =>
    a.nodes (start :: stop.toList) ++ body.occurrences (a.bind (Declared.ofVars .loopIndex false [index]))
  | .breakLoop | .continueLoop => []
  | .block b => b.occurrences a
  | .matchOn source cases => a.nodes [source] ++ MatchCase.occurrences a cases

def Block.occurrences (a : Surroundings) : Block → List Occurrence
  | ⟨list, _⟩ => Stmt.occurrencesList a list

/-- The nodes of the executable code in a list, each element behind what those before it declare. -/
def Stmt.occurrencesList (a : Surroundings) : List Stmt → List Occurrence
  | [] => []
  | s :: list => s.occurrences a ++ Stmt.occurrencesList (a.bind s.declared) list

/-- The nodes of the executable code in an `else` branch. -/
def Stmt.occurrencesOpt (a : Surroundings) : Option Stmt → List Occurrence
  | none => []
  | some s => s.occurrences a

def MatchCase.occurrences (a : Surroundings) : List MatchCase → List Occurrence
  | [] => []
  | ⟨pattern, body, _⟩ :: cases =>
    Stmt.occurrencesList (a.bind pattern.declared) body ++ MatchCase.occurrences a cases
end

/-- The nodes of the executable code in a member of a declaration. -/
def Member.occurrences (d : Decl) (x : Member) : List Occurrence :=
  if x.isGhost then []
  else
    match x with
    | .field _ => []
    | .method c =>
      let a : Surroundings := { decl := some d, isStatic := c.isStatic }
      let formals := Declared.ofVars .param false c.params ++ Declared.ofVars .out false c.outs
      c.body.toList.flatMap (Block.occurrences (a.bind formals))
    | .function f =>
      let a : Surroundings := { decl := some d, isStatic := f.isStatic }
      (a.bind (Declared.ofVars .param false f.params)).nodes f.body.toList

/-- The nodes of the executable code in a declaration. -/
def Decl.occurrences (d : Decl) : List Occurrence := d.members.flatMap (Member.occurrences d)

/-- The nodes of the executable code in a module. -/
def Module.occurrences (m : Module) : List Occurrence := m.decls.flatMap Decl.occurrences

end Mutation
