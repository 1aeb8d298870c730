import Mutation.Proofs.Place

/-!
# Slots

A slot is a place with its surroundings: the path that leads to it from the root of the tree, and
the tree with something else at the place. `slots` lists all slots of a tree in the order of a
walk, those in specifications, ghost code and targets of assignments included. Filling a slot
brings the chains and assignments around it in step and keeps everything else. The places of a
coverage are the places of the slots whose paths it lets through (`Module.places_eq_slots`).
-/

namespace Mutation

/-- What can be put at a place. An element of a list gives way to any number of statements. -/
@[reducible] def Place.Content : Place → Type
  | .members _ => List Member
  | .stmts _ => List Stmt
  | .element _ => List Stmt
  | .expr _ => Expr

/-- What is at a place. -/
def Place.content : (p : Place) → p.Content
  | .members list => list
  | .stmts list => list
  | .element s => [s]
  | .expr e => e

/-- What is entered on the way from the root of a tree to a place, outermost first. -/
structure Path where
  /-- The declaration. -/
  owner : Option String := none
  /-- The kinds of code of the members, statements, clauses and `old` operands. -/
  contexts : List Context := []
  /-- The spans of the nodes, that of the place included. -/
  spans : List Span := []
  /-- The targets of assignments. -/
  targets : List Expr := []
  /-- An assignment or the values of a declaration are entered. -/
  assigned : Bool := false

namespace Path

/-- The path from outside a declaration. -/
def of (owner : String) (p : Path) : Path := { p with owner := some owner }

/-- The path from outside some code of a kind. -/
def into (context : Context) (p : Path) : Path := { p with contexts := context :: p.contexts }

/-- The path from outside a node. -/
def through (span : Span) (p : Path) : Path := { p with spans := span :: p.spans }

/-- The path from outside a statement. -/
def toStmt (s : Stmt) (p : Path) : Path := (p.through s.span).into s.context

/-- The path from outside a member. -/
def toMember (m : Member) (p : Path) : Path := (p.through m.span).into m.context

/-- The path from outside a target of an assignment. -/
def toTarget (e : Expr) (p : Path) : Path := { p with targets := e :: p.targets }

/-- The path from outside an assignment. -/
def assign (p : Path) : Path := { p with assigned := true }

/-- The coverage lets the path through. -/
def within (w : Coverage) (p : Path) : Bool :=
  p.contexts.all w.admits && p.spans.all w.worth && p.targets.all w.target

variable {w : Coverage}

@[simp] theorem within_of (owner : String) (p : Path) : (p.of owner).within w = p.within w := rfl

/-- A path into code of a kind is within what is covered when that kind is and the rest is. -/
@[simp] theorem within_into (context : Context) (p : Path) :
    (p.into context).within w = (w.admits context && p.within w) := by
  simp [within, into, Bool.and_assoc]

/-- A path through a span is within what is covered when the span is worth entering and the rest is
within. -/
@[simp] theorem within_through (span : Span) (p : Path) :
    (p.through span).within w = (w.worth span && p.within w) := by
  simp [within, through, Bool.and_assoc, Bool.and_left_comm]

@[simp] theorem within_toStmt (s : Stmt) (p : Path) :
    (p.toStmt s).within w = ((w.admits s.context && w.worth s.span) && p.within w) := by
  rw [toStmt, within_into, within_through, Bool.and_assoc]

@[simp] theorem within_toMember (m : Member) (p : Path) :
    (p.toMember m).within w = ((w.admits m.context && w.worth m.span) && p.within w) := by
  rw [toMember, within_into, within_through, Bool.and_assoc]

@[simp] theorem within_toTarget (e : Expr) (p : Path) :
    (p.toTarget e).within w = (w.target e && p.within w) := by
  simp [within, toTarget, Bool.and_left_comm]

@[simp] theorem within_assign (p : Path) : p.assign.within w = p.within w := rfl

/-- A larger coverage lets more paths through. -/
theorem within_mono {v : Coverage} (le : v.Le w) {p : Path} (h : p.within v = true) :
    p.within w = true := by
  simp only [within, Bool.and_eq_true, List.all_eq_true] at h ⊢
  exact ⟨⟨fun c hc => le.admits c (h.1.1 c hc), fun s hs => le.worth s (h.1.2 s hs)⟩,
    fun e he => le.target e (h.2 e he)⟩

end Path

/-- A place in its surroundings. -/
structure Slot (α : Type) where
  path : Path
  place : Place
  /-- The whole with something else at the place. -/
  fill : place.Content → α

/-- Slots in the order of a walk. -/
abbrev Slots (α : Type) := List (Slot α)

namespace Slot

variable {α β : Type}

/-- The slot of something that holds the whole. -/
def map (f : α → β) (x : Slot α) : Slot β := ⟨x.path, x.place, fun new => f (x.fill new)⟩

/-- The slot seen from further out. -/
def along (g : Path → Path) (x : Slot α) : Slot α := { x with path := g x.path }

/-- What a change at the slot is reported as. -/
def found (x : Slot α) : Found :=
  match x.place with
  | .members _ => .member
  | .stmts _ | .element _ => .statement
  | .expr _ => if x.path.assigned then .assignment else .expression

/-- An expression itself. -/
def expr (e : Expr) : Slot Expr := ⟨{}, .expr e, fun new => new⟩

/-- A statement list itself. -/
def stmts (list : List Stmt) : Slot (List Stmt) := ⟨{}, .stmts list, fun new => new⟩

/-- The first element of a statement list. -/
def element (s : Stmt) (list : List Stmt) : Slot (List Stmt) :=
  ⟨Path.toStmt s {}, .element s, fun new => new ++ list⟩

/-- A member list itself. -/
def members (list : List Member) : Slot (List Member) := ⟨{}, .members list, fun new => new⟩

@[simp] theorem place_map (f : α → β) (x : Slot α) : (x.map f).place = x.place := rfl

@[simp] theorem path_map (f : α → β) (x : Slot α) : (x.map f).path = x.path := rfl

@[simp] theorem place_along (g : Path → Path) (x : Slot α) : (x.along g).place = x.place := rfl

@[simp] theorem path_along (g : Path → Path) (x : Slot α) : (x.along g).path = g x.path := rfl

@[simp] theorem found_map (f : α → β) (x : Slot α) : (x.map f).found = x.found := rfl

end Slot

namespace Slots

variable {α β γ : Type}

/-- The slots of something that holds the whole. -/
def rebuild (l : Slots α) (f : α → β) : Slots β := l.map (Slot.map f)

/-- The slots seen from further out. -/
def along (l : Slots α) (g : Path → Path) : Slots α := l.map (Slot.along g)

/-- The slots of two parts, one after the other. -/
def both (a : α) (l : Slots α) (b : β) (l' : Slots β) : Slots (α × β) :=
  l.rebuild (fun a => (a, b)) ++ l'.rebuild fun b => (a, b)

theorem rebuild_rebuild (l : Slots α) (f : α → β) (g : β → γ) :
    (l.rebuild f).rebuild g = l.rebuild fun a => g (f a) := by
  simp only [rebuild, List.map_map]
  rfl

theorem mem_rebuild {x : Slot β} {l : Slots α} {f : α → β} :
    x ∈ l.rebuild f ↔ ∃ y ∈ l, y.map f = x :=
  List.mem_map

theorem mem_along {x : Slot α} {l : Slots α} {g : Path → Path} :
    x ∈ l.along g ↔ ∃ y ∈ l, y.along g = x :=
  List.mem_map

/-- A slot of a pair is a slot of one of its parts. -/
theorem mem_both {x : Slot (α × β)} {a : α} {l : Slots α} {b : β} {l' : Slots β} :
    x ∈ both a l b l' ↔
      (∃ y ∈ l, y.map (fun a => (a, b)) = x) ∨ ∃ y ∈ l', y.map (fun b => (a, b)) = x := by
  rw [both, List.mem_append, mem_rebuild, mem_rebuild]

end Slots

mutual
/-- The slots of an expression, itself first. -/
def Expr.slots : Expr → Slots Expr
  | ⟨kind, span, ty⟩ =>
    Slots.along (.expr ⟨kind, span, ty⟩ :: kind.slots.rebuild fun kind => ⟨kind, span, ty⟩)
      (.through span)

def ExprKind.slots : ExprKind → Slots ExprKind
  | .literal _ => []
  | .name _ => []
  | .this => []
  | .binary op l r => (Slots.both l l.slots r r.slots).rebuild fun (l, r) => .binary op l r
  | .unary op x => x.slots.rebuild (.unary op)
  | .chain c => c.slots.rebuild .chain
  | .member r field => r.slots.rebuild fun r => .member r field
  | .tupleIndex t i => t.slots.rebuild fun t => .tupleIndex t i
  | .index q i => (Slots.both q q.slots i i.slots).rebuild fun (q, i) => .index q i
  | .call r method args =>
    (Slots.both r (Expr.slotsOpt r) args (Expr.slotsList args)).rebuild
      fun (r, args) => .call r method args
  | .display k es => (Expr.slotsList es).rebuild (.display k)
  | .mapDisplay entries => (MapEntry.slotsList entries).rebuild .mapDisplay
  | .arrayAlloc ty dims init =>
    (Slots.both dims (Expr.slotsList dims) init (Expr.slotsOptList init)).rebuild
      fun (dims, init) => .arrayAlloc ty dims init
  | .ctor datatype ctor args => (Expr.slotsList args).rebuild (.ctor datatype ctor)
  | .ite c t f =>
    (Slots.both (c, t) (Slots.both c c.slots t t.slots) f f.slots).rebuild
      fun ((c, t), f) => .ite c t f
  | .old x => (x.slots.along (.into .specification)).rebuild .old

def Chain.slots : Chain → Slots Chain
  | ⟨operands, ops, resolved⟩ =>
    (Expr.slotsList operands).rebuild fun operands => Chain.rebuild ⟨operands, ops, resolved⟩

def Expr.slotsList : List Expr → Slots (List Expr)
  | [] => []
  | e :: es => (Slots.both e e.slots es (Expr.slotsList es)).rebuild fun (e, es) => e :: es

def Expr.slotsOpt : Option Expr → Slots (Option Expr)
  | none => []
  | some e => e.slots.rebuild some

def Expr.slotsOptList : Option (List Expr) → Slots (Option (List Expr))
  | none => []
  | some es => (Expr.slotsList es).rebuild some

def MapEntry.slotsList : List MapEntry → Slots (List MapEntry)
  | [] => []
  | ⟨key, value⟩ :: entries =>
    (Slots.both (key, value) (Slots.both key key.slots value value.slots) entries
      (MapEntry.slotsList entries)).rebuild fun ((key, value), entries) => ⟨key, value⟩ :: entries
end

/-- The slots in the expressions of a clause. -/
def Expr.clauseSlots (es : List Expr) : Slots (List Expr) :=
  (Expr.slotsList es).along (.into .specification)

/-- The slots in the targets of an assignment. -/
def Expr.targetSlots : List Expr → Slots (List Expr)
  | [] => []
  | e :: es =>
    (Slots.both e (e.slots.along (.toTarget e)) es (Expr.targetSlots es)).rebuild
      fun (e, es) => e :: es

/-- The slots in the values of an assignment. -/
def Update.valueSlots (u : Update) : Slots Update :=
  ((Expr.slotsList u.values).rebuild fun values => .make u.targets values).along .assign

/-- The slots in an assignment. -/
def Update.slots (u : Update) : Slots Update :=
  ((Expr.targetSlots u.targets).rebuild fun targets => .make targets u.values).along .assign ++
    u.valueSlots

/-- The slots in the values of a declaration. -/
def VarDecl.slots (d : VarDecl) : Slots VarDecl :=
  match d.init with
  | some init => init.valueSlots.rebuild fun init => { d with init := some init }
  | none => []

mutual
/-- The slots inside a statement. -/
def Stmt.slots : Stmt → Slots Stmt
  | ⟨kind, span, ghost⟩ =>
    (kind.slots.rebuild fun kind => ⟨kind, span, ghost⟩).along (.toStmt ⟨kind, span, ghost⟩)

def StmtKind.slots : StmtKind → Slots StmtKind
  | .varDecl d => d.slots.rebuild .varDecl
  | .update u => u.slots.rebuild .update
  | .expr e => e.slots.rebuild .expr
  | .ret values => (Expr.slotsList values).rebuild .ret
  | .ifElse guard thenBranch elseBranch =>
    (Slots.both (guard, thenBranch)
      (Slots.both guard (Expr.slotsOpt guard) thenBranch thenBranch.slots) elseBranch
      (Stmt.slotsOpt elseBranch)).rebuild
        fun ((guard, thenBranch), elseBranch) => .ifElse guard thenBranch elseBranch
  | .whileLoop guard invariants decreases body =>
    (Slots.both ((guard, invariants), decreases)
      (Slots.both (guard, invariants)
        (Slots.both guard (Expr.slotsOpt guard) invariants (Expr.clauseSlots invariants))
        decreases (Expr.clauseSlots decreases)) body body.slots).rebuild
        fun (((guard, invariants), decreases), body) => .whileLoop guard invariants decreases body
  | .forLoop index start stop ascending invariants body =>
    (Slots.both ((start, stop), invariants)
      (Slots.both (start, stop) (Slots.both start start.slots stop (Expr.slotsOpt stop))
        invariants (Expr.clauseSlots invariants)) body body.slots).rebuild
        fun (((start, stop), invariants), body) =>
          .forLoop index start stop ascending invariants body
  | .breakLoop => []
  | .continueLoop => []
  | .block b => b.slots.rebuild .block
  | .matchOn source cases =>
    (Slots.both source source.slots cases (MatchCase.slotsList cases)).rebuild
      fun (source, cases) => .matchOn source cases
  | .assert e => e.slots.rebuild .assert
  | .assume e => e.slots.rebuild .assume
  | .print args => (Expr.slotsList args).rebuild .print

/-- The slots in a block, its list first. -/
def Block.slots : Block → Slots Block
  | ⟨list, span⟩ =>
    (Slots.rebuild (.stmts list :: Stmt.slotsList list) fun list => ⟨list, span⟩).along
      (.through span)

/-- The slots in the elements of a statement list, each element before its inside. -/
def Stmt.slotsList : List Stmt → Slots (List Stmt)
  | [] => []
  | s :: list =>
    .element s list ::
      (Slots.both s s.slots list (Stmt.slotsList list)).rebuild fun (s, list) => s :: list

def Stmt.slotsOpt : Option Stmt → Slots (Option Stmt)
  | none => []
  | some s => s.slots.rebuild some

def MatchCase.slotsList : List MatchCase → Slots (List MatchCase)
  | [] => []
  | ⟨pattern, body, span⟩ :: cases =>
    (Slots.both ⟨pattern, body, span⟩
      ((Slots.rebuild (.stmts body :: Stmt.slotsList body)
        fun body => ⟨pattern, body, span⟩).along (.through span))
      cases (MatchCase.slotsList cases)).rebuild fun (case, cases) => case :: cases
end

/-- The slots in a contract. -/
def Contract.slots (c : Contract) : Slots Contract :=
  (Slots.both ((c.requires, c.ensures), c.frame)
    (Slots.both (c.requires, c.ensures)
      (Slots.both c.requires (Expr.clauseSlots c.requires) c.ensures (Expr.clauseSlots c.ensures))
      c.frame (Expr.clauseSlots c.frame))
    c.decreases (Expr.clauseSlots c.decreases)).rebuild
      fun (((requires, ensures), frame), decreases) => ⟨requires, ensures, frame, decreases⟩

/-- The slots in a block that may be missing. -/
def Block.slotsOpt : Option Block → Slots (Option Block)
  | none => []
  | some b => b.slots.rebuild some

/-- The slots in the inside of a member. -/
def Member.innerSlots : Member → Slots Member
  | .field _ => []
  | .method m =>
    (Slots.both m.contract m.contract.slots m.body (Block.slotsOpt m.body)).rebuild
      fun (contract, body) => .method { m with contract, body }
  | .function f =>
    (Slots.both f.contract f.contract.slots f.body (Expr.slotsOpt f.body)).rebuild
      fun (contract, body) => .function { f with contract, body }

/-- The slots in a member. -/
def Member.slots (m : Member) : Slots Member :=
  m.innerSlots.along (.toMember m)

/-- The slots in the members of a declaration. -/
def Member.slotsList : List Member → Slots (List Member)
  | [] => []
  | m :: ms => (Slots.both m m.slots ms (Member.slotsList ms)).rebuild fun (m, ms) => m :: ms

/-- The declaration with other members. -/
def Decl.withMembers : Decl → List Member → Decl
  | .class c, members => .class { c with members }
  | .datatype d, members => .datatype { d with members }

/-- The slots in a declaration, its member list first. -/
def Decl.slots (d : Decl) : Slots Decl :=
  (Slots.rebuild (.members d.members :: Member.slotsList d.members) d.withMembers).along
    fun path => (path.through d.span).of d.name

/-- The slots in some declarations. -/
def Decl.slotsList : List Decl → Slots (List Decl)
  | [] => []
  | d :: ds => (Slots.both d d.slots ds (Decl.slotsList ds)).rebuild fun (d, ds) => d :: ds

/-- The slots of a module. -/
def Module.slots (m : Module) : Slots Module :=
  (Decl.slotsList m.decls).rebuild fun decls => { m with decls }


namespace Slots

variable {α β : Type} {w : Coverage}

/-- The places of the slots to which the coverage leads. -/
def places (w : Coverage) (l : Slots α) : List Place :=
  (l.filter fun x => x.path.within w).map Slot.place

@[simp] theorem places_nil : places w ([] : Slots α) = [] := rfl

/-- A slot counts when its path is within what is covered. -/
theorem places_cons (x : Slot α) (l : Slots α) :
    places w (x :: l) = if x.path.within w then x.place :: places w l else places w l := by
  simp only [places, List.filter_cons]
  split <;> rfl

@[simp] theorem places_append (l l' : Slots α) :
    places w (l ++ l') = places w l ++ places w l' := by
  simp [places]

/-- Building a node from its part moves no place. -/
@[simp] theorem places_rebuild (l : Slots α) (f : α → β) :
    places w (l.rebuild f) = places w l := by
  simp only [places, rebuild, List.filter_map, List.map_map]
  rfl

/-- The places of two parts come in order. -/
@[simp] theorem places_both (a : α) (l : Slots α) (b : β) (l' : Slots β) :
    places w (both a l b l') = places w l ++ places w l' := by
  simp [both]

/-- A step that the coverage does not let through leads to no place. -/
theorem places_along {g : Path → Path} {gate : Bool}
    (passes : ∀ p, (g p).within w = (gate && p.within w)) (l : Slots α) :
    places w (l.along g) = if gate then places w l else [] := by
  simp only [places, along, List.filter_map, Function.comp_def, Slot.path_along, passes]
  cases gate with
  | true =>
    simp only [Bool.true_and, List.map_map, if_true]
    rfl
  | false => simp

theorem places_assign (l : Slots α) : places w (l.along .assign) = places w l := by
  have open' : ∀ p : Path, p.assign.within w = (true && p.within w) := fun p => rfl
  rw [places_along open', if_pos rfl]

end Slots

section

variable {w : Coverage}

mutual
/-- The places of an expression are those of its slots. -/
theorem Expr.places_slots : (e : Expr) → e.slots.places w = e.places w
  | ⟨kind, span, ty⟩ => by
    rw [Expr.slots, Expr.places_mk, Slots.places_along (Path.within_through span),
      Slots.places_cons, Slots.places_rebuild, ExprKind.places_slots kind]
    rfl

/-- The places inside an expression are those of the slots of its parts. -/
theorem ExprKind.places_slots : (kind : ExprKind) → kind.slots.places w = kind.places w
  | .literal _ | .name _ | .this => rfl
  | .binary _ l r => by simp [ExprKind.slots, ExprKind.places, l.places_slots, r.places_slots]
  | .unary _ x => by simp [ExprKind.slots, ExprKind.places, x.places_slots]
  | .chain c => by simp [ExprKind.slots, ExprKind.places, c.places_slots]
  | .member r _ => by simp [ExprKind.slots, ExprKind.places, r.places_slots]
  | .tupleIndex t _ => by simp [ExprKind.slots, ExprKind.places, t.places_slots]
  | .index q i => by simp [ExprKind.slots, ExprKind.places, q.places_slots, i.places_slots]
  | .call r _ args => by
    simp [ExprKind.slots, ExprKind.places, Expr.places_slotsOpt r, Expr.places_slotsList args]
  | .display _ es => by simp [ExprKind.slots, ExprKind.places, Expr.places_slotsList es]
  | .mapDisplay entries => by
    simp [ExprKind.slots, ExprKind.places, MapEntry.places_slotsList entries]
  | .arrayAlloc _ dims init => by
    simp [ExprKind.slots, ExprKind.places, Expr.places_slotsList dims,
      Expr.places_slotsOptList init]
  | .ctor _ _ args => by simp [ExprKind.slots, ExprKind.places, Expr.places_slotsList args]
  | .ite c t f => by
    simp [ExprKind.slots, ExprKind.places, c.places_slots, t.places_slots, f.places_slots]
  | .old x => by
    simp [ExprKind.slots, ExprKind.places, x.places_slots,
      Slots.places_along (Path.within_into .specification)]

theorem Chain.places_slots : (c : Chain) → c.slots.places w = c.places w
  | ⟨operands, _, _⟩ => by simp [Chain.slots, Chain.places, Expr.places_slotsList operands]

theorem Expr.places_slotsList :
    (es : List Expr) → (Expr.slotsList es).places w = Expr.placesList w es
  | [] => rfl
  | e :: es => by
    simp [Expr.slotsList, Expr.placesList, e.places_slots, Expr.places_slotsList es]

theorem Expr.places_slotsOpt :
    (e : Option Expr) → (Expr.slotsOpt e).places w = Expr.placesOpt w e
  | none => rfl
  | some e => by simp [Expr.slotsOpt, Expr.placesOpt, e.places_slots]

theorem Expr.places_slotsOptList :
    (es : Option (List Expr)) → (Expr.slotsOptList es).places w = Expr.placesOptList w es
  | none => rfl
  | some es => by simp [Expr.slotsOptList, Expr.placesOptList, Expr.places_slotsList es]

theorem MapEntry.places_slotsList :
    (entries : List MapEntry) → (MapEntry.slotsList entries).places w = MapEntry.placesList w entries
  | [] => rfl
  | ⟨key, value⟩ :: entries => by
    simp [MapEntry.slotsList, MapEntry.placesList, key.places_slots, value.places_slots,
      MapEntry.places_slotsList entries]
end

/-- Slots in a clause lie in a specification, as the places there do. -/
theorem Expr.places_clauseSlots (es : List Expr) :
    (Expr.clauseSlots es).places w = Expr.clausePlaces w es := by
  rw [Expr.clauseSlots, Slots.places_along (Path.within_into .specification),
    Expr.places_slotsList, Expr.clausePlaces]

/-- Slots in a target count when the target is entered. -/
theorem Expr.places_targetSlots (es : List Expr) :
    (Expr.targetSlots es).places w = Expr.targetPlaces w es := by
  induction es with
  | nil => rfl
  | cons e es ih =>
    rw [Expr.targetSlots, Slots.places_rebuild, Slots.places_both,
      Slots.places_along (Path.within_toTarget e), Expr.places_slots, ih, Expr.targetPlaces]

theorem Update.places_valueSlots (u : Update) :
    u.valueSlots.places w = Expr.placesList w u.values := by
  rw [Update.valueSlots, Slots.places_assign, Slots.places_rebuild, Expr.places_slotsList]

/-- The targets of an assignment come before its values. -/
theorem Update.places_slots (u : Update) : u.slots.places w = u.places w := by
  rw [Update.slots, Slots.places_append, Slots.places_assign, Slots.places_rebuild,
    Expr.places_targetSlots, Update.places_valueSlots, Update.places]

theorem VarDecl.places_slots (d : VarDecl) : d.slots.places w = d.places w := by
  obtain ⟨locals, _ | init⟩ := d
  · rfl
  · exact (Slots.places_rebuild _ _).trans init.places_valueSlots

mutual
/-- The places of a statement are those of its slots. -/
theorem Stmt.places_slots : (s : Stmt) → s.slots.places w = s.places w
  | ⟨kind, span, ghost⟩ => by
    rw [Stmt.slots, Slots.places_along (Path.within_toStmt _), Slots.places_rebuild,
      StmtKind.places_slots kind, Stmt.places]

/-- The places inside a statement are those of the slots of its parts. -/
theorem StmtKind.places_slots : (kind : StmtKind) → kind.slots.places w = kind.places w
  | .varDecl d => by simp [StmtKind.slots, StmtKind.places, d.places_slots]
  | .update u => by simp [StmtKind.slots, StmtKind.places, u.places_slots]
  | .expr e | .assert e | .assume e => by simp [StmtKind.slots, StmtKind.places, e.places_slots]
  | .ret es | .print es => by simp [StmtKind.slots, StmtKind.places, Expr.places_slotsList es]
  | .ifElse guard thenBranch elseBranch => by
    simp [StmtKind.slots, StmtKind.places, Expr.places_slotsOpt guard, thenBranch.places_slots,
      Stmt.places_slotsOpt elseBranch]
  | .whileLoop guard invariants decreases body => by
    simp [StmtKind.slots, StmtKind.places, Expr.places_slotsOpt guard, body.places_slots,
      Expr.places_clauseSlots]
  | .forLoop _ start stop _ invariants body => by
    simp [StmtKind.slots, StmtKind.places, start.places_slots, Expr.places_slotsOpt stop,
      body.places_slots, Expr.places_clauseSlots]
  | .breakLoop | .continueLoop => rfl
  | .block b => by simp [StmtKind.slots, StmtKind.places, b.places_slots]
  | .matchOn source cases => by
    simp [StmtKind.slots, StmtKind.places, source.places_slots, MatchCase.places_slotsList cases]

theorem Block.places_slots : (b : Block) → b.slots.places w = b.places w
  | ⟨list, span⟩ => by
    rw [Block.slots, Slots.places_along (Path.within_through span), Slots.places_rebuild,
      Slots.places_cons, Stmt.places_slotsList list, Block.places]
    rfl

/-- An element comes before the places inside it, and those before the next element. -/
theorem Stmt.places_slotsList :
    (list : List Stmt) → (Stmt.slotsList list).places w = Stmt.placesList w list
  | [] => rfl
  | s :: list => by
    have gate : (Slot.element s list).path.within w = (w.admits s.context && w.worth s.span) :=
      (Path.within_toStmt s {}).trans (Bool.and_true _)
    rw [Stmt.slotsList, Stmt.placesList, Slots.places_cons, gate, Slots.places_rebuild,
      Slots.places_both, Stmt.places_slots s, Stmt.places_slotsList list]
    split
    · rfl
    · rename_i closed
      obtain ⟨kind, span, ghost⟩ := s
      rw [Stmt.places, if_neg closed]

theorem Stmt.places_slotsOpt :
    (s : Option Stmt) → (Stmt.slotsOpt s).places w = Stmt.placesOpt w s
  | none => rfl
  | some s => by simp [Stmt.slotsOpt, Stmt.placesOpt, s.places_slots]

theorem MatchCase.places_slotsList :
    (cases : List MatchCase) → (MatchCase.slotsList cases).places w = MatchCase.placesList w cases
  | [] => rfl
  | ⟨pattern, body, span⟩ :: cases => by
    rw [MatchCase.slotsList, Slots.places_rebuild, Slots.places_both,
      Slots.places_along (Path.within_through span), Slots.places_rebuild, Slots.places_cons,
      Stmt.places_slotsList body, MatchCase.places_slotsList cases, MatchCase.placesList]
    rfl
end

theorem Contract.places_slots (c : Contract) : c.slots.places w = c.places w := by
  simp [Contract.slots, Contract.places, Expr.places_clauseSlots]

theorem Block.places_slotsOpt (b : Option Block) :
    (Block.slotsOpt b).places w = Block.placesOpt w b := by
  cases b with
  | none => rfl
  | some b => simp [Block.slotsOpt, Block.placesOpt, b.places_slots]

theorem Member.places_innerSlots (m : Member) : m.innerSlots.places w = m.inside w := by
  cases m with
  | field f => rfl
  | method m =>
    simp [Member.innerSlots, Member.inside, Contract.places_slots, Block.places_slotsOpt]
  | function f =>
    simp [Member.innerSlots, Member.inside, Contract.places_slots, Expr.places_slotsOpt]

/-- The places of a member are those of its slots. -/
theorem Member.places_slots (m : Member) : m.slots.places w = m.places w := by
  rw [Member.slots, Slots.places_along (Path.within_toMember m), Member.places_innerSlots,
    Member.places]

/-- The places of some members come in order. -/
theorem Member.places_slotsList (ms : List Member) :
    (Member.slotsList ms).places w = Member.placesList w ms := by
  induction ms with
  | nil => rfl
  | cons m ms ih => simp [Member.slotsList, Member.placesList, m.places_slots, ih]

/-- A member list is a place of its own, before those of the members. -/
theorem Decl.places_slots (d : Decl) : d.slots.places w = d.places w := by
  have gate : ∀ p : Path, ((p.through d.span).of d.name).within w =
      (w.worth d.span && p.within w) := by
    intro p
    simp
  rw [Decl.slots, Slots.places_along gate, Slots.places_rebuild, Slots.places_cons,
    Member.places_slotsList, Decl.places]
  rfl

/-- The declaration and the place of a slot. -/
def Slot.key {α : Type} (x : Slot α) : Option String × Place := (x.path.owner, x.place)

/-- The slots in some declarations to which the coverage leads are those at their places. -/
theorem Decl.key_slotsList (ds : List Decl) :
    ((Decl.slotsList ds).filter fun x => x.path.within w).map Slot.key =
      (Decl.placesList w ds).map fun i => (some i.1, i.2) := by
  have keys : ∀ d : Decl, (d.slots.filter fun x => x.path.within w).map Slot.key =
      (d.slots.places w).map fun p => (some d.name, p) := by
    intro d
    rw [Slots.places, List.map_map]
    refine List.map_congr_left fun x hx => ?_
    obtain ⟨y, -, rfl⟩ := Slots.mem_along.1 (List.mem_filter.1 hx).1
    rfl
  have kept : ∀ {α β : Type} (l : Slots α) (f : α → β),
      ((l.rebuild f).filter fun x => x.path.within w).map Slot.key =
        (l.filter fun x => x.path.within w).map Slot.key := by
    intro α β l f
    rw [Slots.rebuild, List.filter_map, List.map_map]
    rfl
  induction ds with
  | nil => rfl
  | cons d ds ih =>
    rw [Decl.slotsList, kept, Slots.both, List.filter_append, List.map_append, kept, kept, keys,
      d.places_slots, ih, Decl.placesList, List.map_append, List.map_map]
    rfl

/-- A slot that is within what is covered is at a place of the module, in the declaration that its
path goes through. -/
theorem Module.exists_place {m : Module} {x : Slot Module} (hx : x ∈ m.slots)
    (within : x.path.within w = true) :
    ∃ i ∈ m.places w, x.path.owner = some i.1 ∧ x.place = i.2 := by
  obtain ⟨y, hy, rfl⟩ := Slots.mem_rebuild.1 hx
  have key : y.key ∈ (Decl.placesList w m.decls).map fun i => (some i.1, i.2) := by
    rw [← Decl.key_slotsList]
    exact List.mem_map_of_mem (List.mem_filter.2 ⟨hy, within⟩)
  obtain ⟨i, hi, same⟩ := List.mem_map.1 key
  exact ⟨i, hi, (congrArg Prod.fst same).symm, (congrArg Prod.snd same).symm⟩

/-- The first slot with a property to which the coverage leads is the one at the first such
place. -/
theorem Module.find?_slots (m : Module) (f : Option String × Place → Bool) :
    (m.slots.find? fun x => x.path.within w && f x.key).map Slot.key =
      ((m.places w).find? fun i => f (some i.1, i.2)).map fun i => (some i.1, i.2) := by
  have same := congrArg (List.find? f) (Decl.key_slotsList (w := w) m.decls)
  simp only [List.find?_map, List.find?_filter, Bool.decide_and, Bool.decide_eq_true] at same
  rw [Module.slots, Slots.rebuild, List.find?_map, Option.map_map]
  exact same

end

end Mutation
