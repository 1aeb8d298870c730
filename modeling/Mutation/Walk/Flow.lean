import Mutation.Walk.Context

/-!
# Hooks of a walk

A walk goes through a tree in source order. It calls a hook before and after each node, before
each list, on each target of an assignment, and around each stretch of code that is not
executable. Hooks read and change a state `σ` of their own, so what they answer may depend on
all hooks called before. A hook called before a node lets the walk go on inside the node, skip
the inside, or end.
-/

namespace Mutation

/-- What a hook answers. -/
inductive Visit where
  /-- Walk the inside. -/
  | proceed
  /-- Skip the inside and go on after it. -/
  | skip
  /-- End the walk. -/
  | stop
deriving DecidableEq

/-- The course of a walk, with what it has come to: it goes on, or it has ended. -/
inductive Flow (α : Type) where
  | go (value : α)
  | halt (value : α)

namespace Flow

/-- What the walk has come to. -/
def value {α : Type} : Flow α → α
  | .go a => a
  | .halt a => a

/-- The walk has ended. -/
def isHalt {α : Type} : Flow α → Bool
  | .go _ => false
  | .halt _ => true

/-- Changes what the walk has come to. -/
def map {α β : Type} (f : α → β) : Flow α → Flow β
  | .go a => .go (f a)
  | .halt a => .halt (f a)

/-- Continues a walk that goes on. -/
def next {α : Type} (r : Flow α) (k : α → Flow α) : Flow α :=
  match r with
  | .go a => k a
  | .halt a => .halt a

end Flow

/-- Walks the inside if the hook called before it lets the walk in. -/
def Visit.enter {σ : Type} (answer : Visit × σ) (inside : σ → Flow σ) : Flow σ :=
  match answer with
  | (.proceed, s) => inside s
  | (.skip, s) => .go s
  | (.stop, s) => .halt s

/-- A node on which hooks are called before and after its inside. -/
inductive Node where
  | module (node : Module)
  | class (node : Class)
  | datatype (node : Datatype)
  | field (node : Variable)
  | method (node : Method)
  | function (node : Function)
  | block (node : Block)
  | stmt (node : Stmt)
  | case (node : MatchCase)
  | expr (node : Expr)

/-- The hooks that look at no node. -/
structure Gates (σ : Type) where
  /-- A node with this span is worth entering. -/
  worth : σ → Span → Bool := fun _ _ => true
  /-- Specifications are walked. -/
  specifications : σ → Bool := fun _ => false
  /-- Ghost code is walked. -/
  ghost : σ → Bool := fun _ => false
  /-- Called before code that is not executable. -/
  enter : Context → σ → σ := fun _ s => s
  /-- Called after code that is not executable. -/
  exit : Context → σ → σ := fun _ s => s

/-- Code of this kind is walked. -/
def Gates.admits {σ : Type} (h : Gates σ) (context : Context) (s : σ) : Bool :=
  match context with
  | .executable => true
  | .specification => h.specifications s
  | .ghost => h.ghost s

end Mutation
