import Mutation.Proofs.Depth
import Mutation.Proofs.Edited
import Mutation.Proofs.Handback

/-!
# How a search ends

A search is a walk that ends at the first slot of its coverage at which the operator does not
pass. `Settles` states this of one walk: either it goes on, nothing has changed and the operator
passes at every slot it comes to; or it has ended at the first slot where the operator does not
pass, which is filled with what the operator puts there and reported, or nothing has changed and
the refusal is recorded. Walks of neighbouring parts compose (`Settles.both`, `Settles.rebuild`),
so each node's walk settles when those of its parts do, and the module's walk settles.
-/

namespace Mutation

/-- The executable code in the spans that are worth entering. -/
def Coverage.entering (worth : Span → Bool) : Coverage := { executable with worth }

@[simp] theorem Coverage.entering_worth (worth : Span → Bool) (span : Span) :
    (entering worth).worth span = worth span := rfl

@[simp] theorem Coverage.entering_admits (worth : Span → Bool) (context : Context) :
    (entering worth).admits context = decide (context = .executable) := rfl

@[simp] theorem Coverage.entering_target (worth : Span → Bool) (e : Expr) :
    (entering worth).target e = e.isIndex := rfl

/-- The search that enters the spans that are worth it. -/
def Search.walking (op : Operator) (base : Site) (worth : Span → Bool) : Revision Search :=
  { revision op base with worth := fun _ => worth }

/-- The search is going on, in the declaration `owner`. -/
structure Search.Seeking (owner : Option String) (s : Search) : Prop where
  found : s.found = none
  span : s.span = none
  refusal : s.refusal = none
  enclosing : s.enclosing = owner

namespace Slot

variable {α β : Type}

/-- What the operator puts at the slot, with the span it reports. -/
def answer (op : Operator) (site : Option String → Site) (x : Slot α) :
    Answer (x.place.Content × Span) :=
  op.answer (site x.path.owner) x.place

/-- The coverage leads to the slot, and the operator does not pass there. -/
def stops (op : Operator) (site : Option String → Site) (w : Coverage) (x : Slot α) : Bool :=
  x.path.within w && (x.answer op site).answers

/-- A search of `a` has ended at the slot: what the operator puts there is there and reported, or
the operator has refused and nothing has changed. -/
def Ended (op : Operator) (site : Option String → Site) (a : α) (x : Slot α) (a' : α)
    (s : Search) : Prop :=
  (∃ new span, x.answer op site = .done (new, span) ∧ a' = x.fill new ∧
      s.found = some x.found ∧ s.span = some span ∧ s.refusal = none) ∨
    ∃ reason, x.answer op site = .refused reason ∧ a' = a ∧
      s.found = none ∧ s.span = none ∧ s.refusal = some reason

variable {op : Operator} {site : Option String → Site} {a a' : α} {x : Slot α} {s : Search}

/-- A search that has ended at a slot of a part has ended at that slot of the whole. -/
theorem Ended.map (f : α → β) (h : x.Ended op site a a' s) :
    (x.map f).Ended op site (f a) (f a') s := by
  rcases h with ⟨new, span, done, rfl, rest⟩ | ⟨reason, refused, rfl, rest⟩
  · exact .inl ⟨new, span, done, rfl, rest⟩
  · exact .inr ⟨reason, refused, rfl, rest⟩

end Slot

section

variable {α β : Type} {op : Operator} {site : Option String → Site} {w : Coverage}

/-- The first slot at which a search stops is found in the part that holds it. -/
theorem Slots.find?_rebuild (l : Slots α) (f : α → β) :
    (l.rebuild f).find? (Slot.stops op site w) =
      (l.find? (Slot.stops op site w)).map (Slot.map f) :=
  List.find?_map

/-- The slots of the first part come before those of the second. -/
theorem Slots.find?_both (a : α) (l : Slots α) (b : β) (l' : Slots β) :
    (Slots.both a l b l').find? (Slot.stops op site w) =
      ((l.find? (Slot.stops op site w)).map (Slot.map fun a => (a, b))).or
        ((l'.find? (Slot.stops op site w)).map (Slot.map fun b => (a, b))) := by
  rw [Slots.both, List.find?_append, Slots.find?_rebuild, Slots.find?_rebuild]

/-- The walk of `a`, which has these slots, settles. `ready` holds of a search that goes on. Nothing
is said of a walk that has been cut off. -/
def Settles (op : Operator) (site : Option String → Site) (w : Coverage) (ready : Search → Prop)
    (slots : Slots α) (a : α) : Walked (α × Search) → Prop
  | .go (a', s) => a' = a ∧ ready s ∧ slots.find? (Slot.stops op site w) = none
  | .halt (a', s) =>
    ∃ x, slots.find? (Slot.stops op site w) = some x ∧ x.Ended op site a a' s
  | .cut _ => True

variable {ready : Search → Prop} {slots slots' : Slots α} {a : α} {b : β}

/-- A walk over nothing goes on. -/
theorem Settles.skip {s : Search} (hs : ready s) :
    Settles op site w ready [] a (.go (a, s)) :=
  ⟨rfl, hs, rfl⟩

/-- A walk of a node settles when the walk of its part does. -/
theorem Settles.rebuild {r : Walked (α × Search)} (f : α → β)
    (h : Settles op site w ready slots a r) :
    Settles op site w ready (slots.rebuild f) (f a) (r.rebuild f) := by
  match r, h with
  | .go (a', s), ⟨same, hs, nowhere⟩ =>
    exact ⟨congrArg f same, hs, by rw [Slots.find?_rebuild, nowhere, Option.map_none]⟩
  | .halt (a', s), ⟨x, first, ended⟩ =>
    exact ⟨x.map f, by rw [Slots.find?_rebuild, first, Option.map_some], ended.map f⟩
  | .cut _, _ => trivial

/-- Two walks one after the other settle: the second is looked at only when nothing is found in the
first. -/
theorem Settles.both {slots' : Slots β} {r : Walked (α × Search)} {k : Search → Walked (β × Search)}
    (h : Settles op site w ready slots a r)
    (hk : ∀ s, ready s → Settles op site w ready slots' b (k s)) :
    Settles op site w ready (Slots.both a slots b slots') (a, b) (r.both b k) := by
  match r, h with
  | .go (a', s), ⟨same, hs, nowhere⟩ =>
    subst same
    rw [Walked.both_go]
    match k s, hk s hs with
    | .go (b', t), ⟨same, ht, nowhere'⟩ =>
      exact ⟨by rw [same], ht, by rw [Slots.find?_both, nowhere, nowhere']; rfl⟩
    | .halt (b', t), ⟨x, first, ended⟩ =>
      exact ⟨x.map fun b => (a', b), by rw [Slots.find?_both, nowhere, first]; rfl, ended.map _⟩
    | .cut _, _ => trivial
  | .halt (a', s), ⟨x, first, ended⟩ =>
    exact ⟨x.map fun a => (a, b), by rw [Slots.find?_both, first]; rfl, ended.map _⟩
  | .cut _, _ => trivial

/-- Both walks are of the same thing. -/
theorem Settles.next {r : Walked (α × Search)} {k : α × Search → Walked (α × Search)}
    (h : Settles op site w ready slots a r)
    (hk : ∀ s, ready s → Settles op site w ready slots' a (k (a, s))) :
    Settles op site w ready (slots ++ slots') a (r.next k) := by
  match r, h with
  | .go (a', s), ⟨same, hs, nowhere⟩ =>
    subst same
    rw [Walked.next]
    match k (a', s), hk s hs with
    | .go (b', t), ⟨same, ht, nowhere'⟩ =>
      exact ⟨same, ht, by rw [List.find?_append, nowhere, nowhere']; rfl⟩
    | .halt (b', t), ⟨x, first, ended⟩ =>
      exact ⟨x, by rw [List.find?_append, nowhere, first]; rfl, ended⟩
    | .cut _, _ => trivial
  | .halt (a', s), ⟨x, first, ended⟩ =>
    exact ⟨x, by rw [List.find?_append, first]; rfl, ended⟩
  | .cut _, _ => trivial

/-- Code into which the coverage does not lead settles. -/
theorem Settles.unwalked {g : Path → Path} (a : α) {s : Search} (hs : ready s)
    (closed : ∀ p, (g p).within w = false) :
    Settles op site w ready (slots.along g) a (.go (a, s)) := by
  refine ⟨rfl, hs, List.find?_eq_none.2 fun x hx => ?_⟩
  obtain ⟨y, -, rfl⟩ := Slots.mem_along.1 hx
  simp [Slot.stops, closed]

/-- A step of the walk that the coverage lets through or not. -/
theorem Settles.along {r : Walked (α × Search)} {g : Path → Path} {gate : Bool} {s : Search}
    (passes : ∀ p, (g p).within w = (gate && p.within w)) (owner : ∀ p, (g p).owner = p.owner)
    (assigned : ∀ p, (g p).assigned = p.assigned) (hs : ready s)
    (h : gate = true → Settles op site w ready slots a r) :
    Settles op site w ready (slots.along g) a (if gate then r else .go (a, s)) := by
  have stops : ∀ x : Slot α, (x.along g).stops op site w = (gate && x.stops op site w) := by
    intro x
    rw [Slot.stops, Slot.path_along, passes, Bool.and_assoc, Slot.stops, Slot.answer, Slot.answer,
      Slot.path_along, owner]
    rfl
  cases gate with
  | false => exact .unwalked a hs fun p => by rw [passes, Bool.false_and]
  | true =>
    have moved : (slots.along g).find? (Slot.stops op site w) =
        (slots.find? (Slot.stops op site w)).map (Slot.along g) := by
      rw [Slots.along, List.find?_map]
      congr 2
      funext x
      exact stops x
    rw [if_pos rfl]
    have walked := h rfl
    obtain ⟨a', s⟩ | ⟨a', s⟩ | r := r
    · obtain ⟨same, hs, nowhere⟩ := walked
      exact ⟨same, hs, by rw [moved, nowhere, Option.map_none]⟩
    rotate_left
    · trivial
    · obtain ⟨x, first, ended⟩ := walked
      refine ⟨x.along g, by rw [moved, first, Option.map_some], ?_⟩
      have found : (x.along g).found = x.found := by
        simp only [Slot.found, Slot.place_along, Slot.path_along, assigned]
      have answer : (x.along g).answer op site = x.answer op site := by
        rw [Slot.answer, Slot.answer, Slot.path_along, owner]
        rfl
      unfold Slot.Ended
      rw [answer, found]
      exact ended

end

/-- What is known in the declaration `owner`. -/
def Site.inside (base : Site) (owner : Option String) : Site := { base with enclosing := owner }

namespace Search

variable {op : Operator} {base : Site} {worth : Span → Bool} {owner : Option String} {s : Search}

/-- What a search knows at a node is the declaration it is in. -/
theorem Seeking.site (hs : s.Seeking owner) : s.site base = base.inside owner := by
  rw [Search.site, hs.enclosing]
  rfl

/-- A search that is going on has not halted. -/
theorem Seeking.isOver (hs : s.Seeking owner) : s.isOver = false := by
  simp [Search.isOver, hs.found, hs.refusal]

/-- Only a class or a datatype changes the declaration that a search is in. -/
theorem Seeking.entering {node : Node} (hs : s.Seeking owner) (hc : ∀ c, node ≠ .class c)
    (hd : ∀ d, node ≠ .datatype d) : (s.entering node).Seeking owner := by
  obtain ⟨found, span, refusal, enclosing⟩ := hs
  cases node with
  | «class» c => exact absurd rfl (hc c)
  | datatype d => exact absurd rfl (hd d)
  | _ => exact ⟨found, span, refusal, enclosing⟩

theorem Seeking.noting (hs : s.Seeking owner) (notes : List Note) :
    (s.noting notes).Seeking owner :=
  ⟨hs.found, hs.span, hs.refusal, hs.enclosing⟩

variable {α : Type}

@[simp] theorem walking_admits (context : Context) (s : Search) :
    (walking op base worth).admits context s = decide (context = .executable) := by
  cases context <;> rfl

@[simp] theorem walking_worth (s : Search) (span : Span) :
    (walking op base worth).worth s span = worth span := rfl

@[simp] theorem walking_halted (s : Search) : (walking op base worth).halted s = s.isOver := rfl

/-- A search only notes what it enters, expressions apart. -/
theorem walking_around {k : NodeSort} (other : k ≠ .expr) (inside : Walker Search k.Carrier)
    (a : k.Carrier) (s : Search) :
    (walking op base worth).around k inside a s = inside a (s.entering (k.node a)) := by
  have entered : (walking op base worth).visit k a s = (.descend a, s.entering (k.node a)) := by
    cases k <;> first | exact absurd rfl other | rfl
  rw [Revision.around, entered]
  exact Walked.next_pure _

/-- What the search answers on an expression. -/
theorem Seeking.visit_expr (hs : s.Seeking owner) (e : Expr) :
    (walking op base worth).visit .expr e s =
      match op.onExpr (base.inside owner) e with
      | .pass _ => (.descend e, s)
      | .done new => (.halt new, s.find .expression e.span)
      | .refused reason _ => (.halt e, s.refuse reason) := by
  have back := op.onExpr_handsBack (base.inside owner) e
  change settle .expression (op.onExpr (s.site base) e) (fun new => (new, e.span)) s = _
  rw [hs.site]
  revert back
  cases op.onExpr (base.inside owner) e with
  | done new => exact fun _ => rfl
  | pass left | refused reason left =>
    rintro rfl
    rfl

/-- An expression is offered before it is entered, and entered as the operator leaves it. -/
theorem walking_around_expr (hs : s.Seeking owner) (inside : Walker Search Expr) (e : Expr) :
    (walking op base worth).around .expr inside e s =
      match op.onExpr (base.inside owner) e with
      | .pass _ => inside e s
      | .done new => .halt (new, s.find .expression e.span)
      | .refused reason _ => .halt (e, s.refuse reason) := by
  rw [Revision.around, hs.visit_expr]
  cases op.onExpr (base.inside owner) e with
  | pass left => exact Walked.next_pure _
  | done new => rfl
  | refused reason left => rfl

/-- A search walks no specification. -/
@[simp] theorem walking_specified (inside : Walker Search α) (a : α) (s : Search) :
    (walking op base worth).specified inside a s = .go (a, s) := rfl

@[simp] theorem walking_clause (expr : Walker Search Expr) (es : List Expr) (s : Search) :
    (walking op base worth).clause expr es s = .go (es, s) := by
  simp [Revision.clause]

/-- The walk of the piece settles, inside the declaration `owner`. -/
abbrev SettlesAs (op : Operator) (base : Site) (worth : Span → Bool) (owner : Option String)
    (slots : Slots α) (a : α) : Walked (α × Search) → Prop :=
  Settles op (fun _ => base.inside owner) (.entering worth) (Seeking owner) slots a

/-- No slot inside a specification is looked at. -/
theorem closed_specification (p : Path) :
    (p.into .specification).within (.entering worth) = false := by
  simp

/-- The first slot is outside the coverage. -/
theorem settles_skipped {x : Slot α} {slots : Slots α} {a : α} {r : Walked (α × Search)}
    (closed : x.stops op (fun _ => base.inside owner) (.entering worth) = false)
    (h : SettlesAs op base worth owner slots a r) :
    SettlesAs op base worth owner (x :: slots) a r := by
  have skipped : (x :: slots).find?
      (Slot.stops op (fun _ => base.inside owner) (.entering worth)) =
      slots.find? (Slot.stops op (fun _ => base.inside owner) (.entering worth)) :=
    List.find?_cons_of_neg (by rw [closed]; exact Bool.false_ne_true)
  match r, h with
  | .go (a', s), ⟨same, hs, nowhere⟩ => exact ⟨same, hs, by rw [skipped, nowhere]⟩
  | .halt (a', s), ⟨y, first, ended⟩ => exact ⟨y, by rw [skipped, first], ended⟩
  | .cut _, _ => trivial

/-- The operator passes at the first slot. -/
theorem settles_offered {x : Slot α} {slots : Slots α} {a : α} {r : Walked (α × Search)}
    (pass : x.answer op (fun _ => base.inside owner) = .pass)
    (h : SettlesAs op base worth owner slots a r) :
    SettlesAs op base worth owner (x :: slots) a r :=
  settles_skipped (by rw [Slot.stops, pass, Answer.answers_pass, Bool.and_false]) h

/-- The operator makes its change at the first slot. -/
theorem settles_done {x : Slot α} {slots : Slots α} {a : α} {new : x.place.Content} {span : Span}
    (hs : s.Seeking owner) (walked : x.path.within (.entering worth) = true)
    (done : x.answer op (fun _ => base.inside owner) = .done (new, span)) :
    SettlesAs op base worth owner (x :: slots) a (.halt (x.fill new, s.find x.found span)) := by
  refine ⟨x, ?_, .inl ⟨new, span, done, rfl, rfl, rfl, hs.refusal⟩⟩
  rw [List.find?_cons_of_pos]
  simp [Slot.stops, walked, done]

/-- The operator refuses at the first slot. -/
theorem settles_refused {x : Slot α} {slots : Slots α} {a : α} {reason : Refusal}
    (hs : s.Seeking owner) (walked : x.path.within (.entering worth) = true)
    (refused : x.answer op (fun _ => base.inside owner) = .refused reason) :
    SettlesAs op base worth owner (x :: slots) a (.halt (a, s.refuse reason)) := by
  refine ⟨x, ?_, .inr ⟨reason, refused, rfl, hs.found, hs.span, rfl⟩⟩
  rw [List.find?_cons_of_pos]
  simp [Slot.stops, walked, refused]

section

/-! The parts of a node settle when each expression does. -/

variable {expr : Walker Search Expr}
  (each : ∀ e s, Seeking owner s → SettlesAs op base worth owner e.slots e (expr e s))

include each

/-- Expressions one after another settle when each expression does. -/
theorem exprs_settles (es : List Expr) (hs : s.Seeking owner) :
    SettlesAs op base worth owner (Expr.slotsList es) es (Revision.exprs expr es s) := by
  induction es generalizing s with
  | nil => exact .skip hs
  | cons e es ih => exact ((each e s hs).both fun _ hs => ih hs).rebuild _

theorem exprOpt_settles (e : Option Expr) (hs : s.Seeking owner) :
    SettlesAs op base worth owner (Expr.slotsOpt e) e (Revision.exprOpt expr e s) := by
  cases e with
  | none => exact .skip hs
  | some e => exact (each e s hs).rebuild _

theorem exprsOpt_settles (es : Option (List Expr)) (hs : s.Seeking owner) :
    SettlesAs op base worth owner (Expr.slotsOptList es) es (Revision.exprsOpt expr es s) := by
  cases es with
  | none => exact .skip hs
  | some es => exact (exprs_settles each es hs).rebuild _

theorem mapEntries_settles (entries : List MapEntry) (hs : s.Seeking owner) :
    SettlesAs op base worth owner (MapEntry.slotsList entries) entries
      (Revision.mapEntries expr entries s) := by
  induction entries generalizing s with
  | nil => exact .skip hs
  | cons entry entries ih =>
    obtain ⟨key, value⟩ := entry
    exact (((each key s hs).both fun s hs => each value s hs).both fun _ hs => ih hs).rebuild _

/-- A chain is in step once the walk has ended inside it with a change. -/
theorem chain_settles (c : Chain) (hs : s.Seeking owner) :
    SettlesAs op base worth owner c.slots c ((walking op base worth).chain expr c s) := by
  obtain ⟨operands, ops, resolved⟩ := c
  have parts := exprs_settles each operands hs
  rw [Revision.chain, Chain.slots]
  match Revision.exprs expr operands s, parts with
  | .go (es, t), ⟨same, ht, nowhere⟩ =>
    exact ⟨by rw [same], ht, by rw [Slots.find?_rebuild, nowhere, Option.map_none]⟩
  | .halt (es, t), ⟨x, first, .inl ⟨new, span, done, filled, found, rest⟩⟩ =>
    simp only [Walked.rebuild_halt, Walked.ending, walking, revision, found, Option.isSome_some,
      if_true]
    refine ⟨x.map _, by rw [Slots.find?_rebuild, first, Option.map_some],
      .inl ⟨new, span, done, ?_, found, rest⟩⟩
    rw [filled]
    rfl
  | .halt (es, t), ⟨x, first, .inr ⟨reason, refused, same, found, rest⟩⟩ =>
    simp only [Walked.rebuild_halt, Walked.ending, walking, revision, found, Option.isSome_none,
      Bool.false_eq_true, if_false]
    exact ⟨x.map _, by rw [Slots.find?_rebuild, first, Option.map_some],
      .inr ⟨reason, refused, by rw [same], found, rest⟩⟩
  | .cut _, _ => trivial

/-- The inside of an expression settles. A chain in which the search ends is brought in step on the
way out, as its slots have it. -/
theorem exprKind_settles (kind : ExprKind) (hs : s.Seeking owner) :
    SettlesAs op base worth owner kind.slots kind
      ((walking op base worth).exprKind expr kind s) := by
  cases kind with
  | literal _ | name _ | this => exact .skip hs
  | binary _ l r | index l r => exact ((each l s hs).both fun s hs => each r s hs).rebuild _
  | unary _ x | member x _ | tupleIndex x _ => exact (each x s hs).rebuild _
  | chain c => exact (chain_settles each c hs).rebuild _
  | call r _ args =>
    exact ((exprOpt_settles each r hs).both fun _ hs => exprs_settles each args hs).rebuild _
  | display _ es | ctor _ _ es => exact (exprs_settles each es hs).rebuild _
  | mapDisplay entries => exact (mapEntries_settles each entries hs).rebuild _
  | arrayAlloc _ dims init =>
    exact ((exprs_settles each dims hs).both fun _ hs => exprsOpt_settles each init hs).rebuild _
  | ite c t f =>
    exact (((each c s hs).both fun s hs => each t s hs).both fun s hs => each f s hs).rebuild _
  | old x => exact (Settles.unwalked x hs closed_specification).rebuild _

end

/-- The walk of an expression settles. -/
theorem expr_settles (depth : Nat) (e : Expr) (s : Search) (hs : s.Seeking owner) :
    SettlesAs op base worth owner e.slots e ((walking op base worth).expr depth e s) := by
  induction depth generalizing e s with
  | zero => trivial
  | succ depth ih =>
    obtain ⟨kind, span, ty⟩ := e
    have parts := (exprKind_settles ih kind hs).rebuild fun kind => Expr.mk kind span ty
    simp only [Revision.expr, Expr.slots, walking_worth]
    refine Settles.along (Path.within_through span) (fun _ => rfl) (fun _ => rfl) hs fun _ => ?_
    rw [walking_around_expr hs]
    have answered : (Slot.expr ⟨kind, span, ty⟩).answer op (fun _ => base.inside owner) =
        (op.onExpr (base.inside owner) ⟨kind, span, ty⟩).answer fun new => (new, span) := rfl
    cases answer : op.onExpr (base.inside owner) ⟨kind, span, ty⟩ with
    | pass left => exact settles_offered (by rw [answered, answer]; rfl) parts
    | done new => exact settles_done hs rfl (by rw [answered, answer]; rfl)
    | refused reason left => exact settles_refused hs rfl (by rw [answered, answer]; rfl)

/-- A change in an expression is reported as one of an expression. -/
theorem found_of_mem_slots {e : Expr} {x : Slot Expr} (h : x ∈ e.slots) : x.found = .expression := by
  induction e using Expr.induct generalizing x with
  | step e ih =>
    obtain ⟨kind, span, ty⟩ := e
    rw [Expr.slots] at h
    obtain ⟨u, hu, rfl⟩ := Slots.mem_along.1 h
    rcases List.mem_cons.1 hu with rfl | hu
    · rfl
    obtain ⟨z, hz, rfl⟩ := Slots.mem_rebuild.1 hu
    by_cases old : ∃ e, kind = .old e
    · obtain ⟨e, rfl⟩ := old
      obtain ⟨v, hv, rfl⟩ := Slots.mem_rebuild.1 hz
      obtain ⟨y, hy, rfl⟩ := Slots.mem_along.1 hv
      have found := ih e (by simp [ExprKind.parts]) hy
      exact found
    · have plain := fun e he => old ⟨e, he⟩
      obtain ⟨pre, e, post, split, y, hy, rfl⟩ := ExprKind.mem_slots plain hz
      have found := ih e (by simp [split]) hy
      exact found

/-- What is found at a slot of an expression is an expression. -/
theorem found_of_mem_slotsList {es : List Expr} {x : Slot (List Expr)} (h : x ∈ Expr.slotsList es) :
    x.found = .expression := by
  obtain ⟨pre, e, post, rfl, y, hy, rfl⟩ := Expr.mem_slotsList h
  exact found_of_mem_slots hy

theorem found_of_mem_targetSlots {es : List Expr} {x : Slot (List Expr)}
    (h : x ∈ Expr.targetSlots es) : x.found = .expression := by
  obtain ⟨pre, e, post, rfl, y, hy, rfl⟩ := Expr.mem_targetSlots h
  exact found_of_mem_slots hy

/-- An assignment is in step once the walk has ended inside it with a change, and the change is
reported as one of an assignment. -/
theorem ending_settles {slots : Slots α} {a : α} {r : Walked (α × Search)} {f : α → Update}
    (h : SettlesAs op base worth owner slots a r) (exprs : ∀ x ∈ slots, x.found = .expression) :
    SettlesAs op base worth owner ((slots.rebuild fun a => (f a).sync).along .assign) (f a)
      ((r.rebuild f).ending (walking op base worth).resyncUpdate) := by
  have moved : ∀ l : Slots α, ((l.rebuild fun a => (f a).sync).along .assign).find?
      (Slot.stops op (fun _ => base.inside owner) (.entering worth)) =
      (l.find? (Slot.stops op (fun _ => base.inside owner) (.entering worth))).map
        fun x => (x.map fun a => (f a).sync).along .assign := by
    intro l
    rw [Slots.along, Slots.rebuild, List.map_map, List.find?_map]
    rfl
  obtain ⟨a', t⟩ | ⟨a', t⟩ | r := r
  · obtain ⟨same, ht, nowhere⟩ := h
    exact ⟨congrArg f same, ht, by rw [moved, nowhere, Option.map_none]⟩
  · obtain ⟨x, first, ⟨new, span, done, filled, found, rest⟩ |
      ⟨reason, refused, same, found, rest⟩⟩ := h
    · rw [exprs x (List.mem_of_find?_eq_some first)] at found
      have assigned : ((x.map fun a => (f a).sync).along .assign).found = .assignment := by
        have here := exprs x (List.mem_of_find?_eq_some first)
        obtain ⟨path, place, fill⟩ := x
        cases place with
        | expr e => rfl
        | _ => cases here
      simp only [Walked.rebuild_halt, Walked.ending, walking, revision, found, if_true]
      refine ⟨_, by rw [moved, first, Option.map_some], .inl ⟨new, span, done, ?_, ?_, rest⟩⟩
      · rw [filled]
        rfl
      · rw [assigned]
    · simp only [Walked.rebuild_halt, Walked.ending, walking, revision, found, reduceCtorEq,
        if_false]
      exact ⟨_, by rw [moved, first, Option.map_some],
        .inr ⟨reason, refused, congrArg f same, found, rest⟩⟩
  · trivial

/-- A search enters a target that is an index expression, and settles every other. -/
theorem target_eq (e : Expr) (s : Search) :
    (walking op base worth).target e s = (if e.isIndex then .descend e else .settle e, s) := by
  obtain ⟨kind, span, ty⟩ := e
  cases kind <;> rfl

/-- The first target is walked when it is an index expression, then the others. -/
theorem targets_cons (expr : Walker Search Expr) (e : Expr) (es : List Expr) (s : Search) :
    ((walking op base worth).targets expr (e :: es) s).rebuild Prod.fst =
      ((if e.isIndex then expr e s else .go (e, s)).both es fun s =>
        ((walking op base worth).targets expr es s).rebuild Prod.fst).rebuild
          fun (e, es) => e :: es := by
  simp only [Revision.targets, target_eq]
  by_cases index : e.isIndex
  · simp only [index, if_true]
    cases expr e s <;> simp
  · simp [index]

/-- A walk of targets ends inside one of them. -/
theorem targets_inside {expr : Walker Search Expr} {es es' : List Expr} {inside : Bool}
    {s t : Search}
    (h : (walking op base worth).targets expr es s = .halt ((es', inside), t)) : inside = true := by
  induction es generalizing s es' with
  | nil => cases h
  | cons e es ih =>
    have rest : ∀ {first : Expr} {s : Search}, ((walking op base worth).targets expr es s).rebuild
        (fun x => (first :: x.1, x.2)) = .halt ((es', inside), t) → inside = true := by
      intro first s h
      rcases hr : (walking op base worth).targets expr es s with x | ⟨⟨_, _⟩, _⟩ | x
      · simp [hr] at h
      · simp only [hr, Walked.rebuild_halt, Walked.halt.injEq, Prod.mk.injEq] at h
        obtain ⟨⟨_, rfl⟩, rfl⟩ := h
        exact ih hr
      · simp [hr] at h
    simp only [Revision.targets, target_eq] at h
    by_cases index : e.isIndex
    · simp only [index, if_true] at h
      rcases hr : expr e s with ⟨_, _⟩ | ⟨_, _⟩ | ⟨_, _⟩
      · simp only [hr] at h
        exact rest h
      · simp only [hr, Walked.halt.injEq, Prod.mk.injEq] at h
        exact h.1.2.symm
      · simp [hr] at h
    · exact rest (by simpa [index] using h)

/-- The targets and the values of an assignment, one walk after the other, with what happens when
one of them ends. -/
theorem update_eq (expr : Walker Search Expr) (u : Update) (s : Search) :
    (walking op base worth).update expr u s =
      (((((walking op base worth).targets expr u.targets s).rebuild Prod.fst).rebuild
        fun targets => { u with targets }).ending (walking op base worth).resyncUpdate).next
          fun (u, s) => (walking op base worth).values expr u s := by
  simp only [Revision.update]
  match h : (walking op base worth).targets expr u.targets s with
  | .go ((targets, inside), t) => rfl
  | .halt ((targets, inside), t) =>
    obtain rfl := targets_inside h
    rfl
  | .cut ((targets, inside), t) => rfl

section

variable {expr : Walker Search Expr}
  (each : ∀ e s, Seeking owner s → SettlesAs op base worth owner e.slots e (expr e s))

include each

/-- The values of an assignment settle, brought in step when the search ends in one. -/
theorem values_settles (u : Update) (hs : s.Seeking owner) :
    SettlesAs op base worth owner u.valueSlots u ((walking op base worth).values expr u s) :=
  ending_settles (f := fun values => { u with values }) (exprs_settles each u.values hs)
    fun _ => found_of_mem_slotsList

/-- So do its targets. -/
theorem targets_settles (es : List Expr) (hs : s.Seeking owner) :
    SettlesAs op base worth owner (Expr.targetSlots es) es
      (((walking op base worth).targets expr es s).rebuild Prod.fst) := by
  induction es generalizing s with
  | nil => exact .skip hs
  | cons e es ih =>
    have head : SettlesAs op base worth owner (e.slots.along (.toTarget e)) e
        (if e.isIndex then expr e s else .go (e, s)) :=
      Settles.along (Path.within_toTarget e) (fun _ => rfl) (fun _ => rfl) hs
        fun _ => each e s hs
    rw [targets_cons]
    exact (head.both fun _ hs => ih hs).rebuild _

/-- The walk of an assignment settles: its targets come first, then its values. -/
theorem update_settles (u : Update) (hs : s.Seeking owner) :
    SettlesAs op base worth owner u.slots u ((walking op base worth).update expr u s) := by
  rw [update_eq]
  refine Settles.next ?_ fun t ht => values_settles each u ht
  exact ending_settles (f := fun targets => { u with targets })
    (targets_settles each u.targets hs) fun _ => found_of_mem_targetSlots

theorem varDecl_settles (d : VarDecl) (hs : s.Seeking owner) :
    SettlesAs op base worth owner d.slots d ((walking op base worth).varDecl expr d s) := by
  obtain ⟨locals, _ | init⟩ := d
  · exact .skip hs
  · exact (values_settles each init hs).rebuild _

end

/-- No change is made in a clause. -/
theorem clause_settles (expr : Walker Search Expr) (es : List Expr) (hs : s.Seeking owner) :
    SettlesAs op base worth owner (Expr.clauseSlots es) es
      ((walking op base worth).clause expr es s) := by
  rw [walking_clause]
  exact .unwalked es hs closed_specification

/-- The walk of a list goes on behind an element in which it has not ended. -/
theorem following_eq {slots : Slots α} {a : α} {r : Walked (α × Search)}
    (h : SettlesAs op base worth owner slots a r) (list : List α)
    (k : Search → Walked (List α × Search)) :
    (r.both list k).rebuild (fun (a, list) => a :: list) =
      match r with
      | .halt (a, s) => .halt (a :: list, s)
      | .cut (a, s) => .cut (a :: list, s)
      | .go (a, s) => (walking op base worth).following [a] list s k := by
  match r, h with
  | .halt (_, _), _ | .cut (_, _), _ => rfl
  | .go (_, s), ⟨_, hs, _⟩ => simp [Revision.following, hs.isOver]

/-- What the search answers on an element of a statement list. -/
theorem Seeking.offer (hs : s.Seeking owner) (st : Stmt) :
    (walking op base worth).offer st s =
      match op.onStmt (base.inside owner) st with
      | .pass _ => (⟨st, .keep⟩, s)
      | .done change => (⟨st, change.edit⟩, s.find .statement (landing base.target st.span))
      | .refused reason _ => (⟨st, .keep⟩, s.refuse reason) := by
  have back := op.onStmt_handsBack (base.inside owner) st
  rw [← hs.site] at back ⊢
  simp only [walking, revision]
  revert back
  cases op.onStmt (s.site base) st with
  | done change => exact fun _ => rfl
  | pass left | refused reason left =>
    rintro rfl
    rfl

/-- A list is offered as a whole before its elements. -/
theorem Seeking.stmts (hs : s.Seeking owner) (stmt : Walker Search Stmt) (list : List Stmt) :
    (walking op base worth).stmts stmt list s =
      match op.onStmts (base.inside owner) list with
      | (.pass _, notes) => (walking op base worth).elements stmt list (s.noting notes)
      | (.done (list', span), notes) => .halt (list', (s.noting notes).find .statement span)
      | (.refused reason _, notes) => .halt (list, (s.noting notes).refuse reason) := by
  have back := op.onStmts_handsBack (base.inside owner) list
  have revised : (walking op base worth).reviseStmts list s =
      settle .statement (op.onStmts (base.inside owner) list).1 id
        (s.noting (op.onStmts (base.inside owner) list).2) := by
    rw [← hs.site]
    rfl
  rw [Revision.stmts, Revision.listed, revised]
  revert back
  rcases op.onStmts (base.inside owner) list with ⟨outcome, notes⟩
  cases outcome with
  | done made => exact fun _ => rfl
  | pass left =>
    rintro rfl
    simp only [settle, Reply.enter, walking_halted, (hs.noting notes).isOver, Bool.false_eq_true,
      if_false]
  | refused reason left =>
    rintro rfl
    rfl

/-- A list is offered as a whole before its members. -/
theorem Seeking.members (hs : s.Seeking owner) (depth : Nat) (list : List Member) :
    (walking op base worth).members depth list s =
      match op.onMembers (base.inside owner) list with
      | .pass _ => (walking op base worth).eachMember depth list s
      | .done (list', span) => .halt (list', s.find .member span)
      | .refused reason _ => .halt (list, s.refuse reason) := by
  have back := op.onMembers_handsBack (base.inside owner) list
  have revised : (walking op base worth).reviseMembers list s =
      settle .member (op.onMembers (base.inside owner) list) id s := by
    rw [← hs.site]
    rfl
  rw [Revision.members, Revision.listed, revised]
  revert back
  cases op.onMembers (base.inside owner) list with
  | done made => exact fun _ => rfl
  | pass left =>
    rintro rfl
    simp only [settle, Reply.enter, walking_halted, hs.isOver, Bool.false_eq_true, if_false]
  | refused reason left =>
    rintro rfl
    rfl

/-- An element is offered before it is walked. -/
theorem offered_settles {stmt : Walker Search Stmt} {st : Stmt} {list : List Stmt}
    (first : ∀ s, Seeking owner s → SettlesAs op base worth owner st.slots st (stmt st s))
    (rest : ∀ s, Seeking owner s → SettlesAs op base worth owner (Stmt.slotsList list) list
      ((walking op base worth).elements stmt list s)) (hs : s.Seeking owner) :
    SettlesAs op base worth owner (Stmt.slotsList (st :: list)) (st :: list)
      ((walking op base worth).elements stmt (st :: list) s) := by
  have answered : (Slot.element st list).answer op (fun _ => base.inside owner) =
      (op.onStmt (base.inside owner) st).answer fun change =>
        (change.edit.result st, landing base.target st.span) := rfl
  have gate : (Slot.element st list).path.within (.entering worth) =
      (decide (st.context = .executable) && worth st.span) :=
    (Path.within_toStmt st {}).trans (Bool.and_true _)
  rw [Revision.elements, Stmt.slotsList, hs.offer, walking_admits, walking_worth]
  by_cases entered : (decide (st.context = .executable) && worth st.span) = true
  · rw [entered] at gate
    rw [if_pos entered]
    cases answer : op.onStmt (base.inside owner) st with
    | pass left =>
      have passed : (Slot.element st list).answer op (fun _ => base.inside owner) = .pass := by
        rw [answered, answer]
        rfl
      have walked := ((first s hs).both rest).rebuild fun x => x.1 :: x.2
      rw [following_eq (first s hs)] at walked
      simp only [walking_halted, hs.isOver, Edit.isKeep, Bool.not_true, Bool.or_false,
        Bool.false_eq_true, if_false]
      revert walked
      cases stmt st s <;> exact fun walked => settles_offered passed walked
    | done change =>
      have ending : (s.find .statement (landing base.target st.span)).isOver = true := rfl
      simp only [walking_halted, ending, Bool.true_or, if_true, Revision.following]
      exact settles_done hs gate (by rw [answered, answer]; rfl)
    | refused reason left =>
      have ending : (s.refuse reason).isOver = true := by
        simp [isOver, refuse]
      simp only [walking_halted, ending, Bool.true_or, if_true, Revision.following, Offer.result,
        Edit.result]
      exact settles_refused hs gate (by rw [answered, answer]; rfl)
  · rw [if_neg entered]
    have unwalked : SettlesAs op base worth owner st.slots st (.go (st, s)) := by
      obtain ⟨kind, span, ghost⟩ := st
      rw [Stmt.slots]
      refine .unwalked _ hs fun p => ?_
      rw [Path.within_toStmt, Coverage.entering_admits, Coverage.entering_worth,
        eq_false_of_ne_true entered, Bool.false_and]
    have walked := (unwalked.both rest).rebuild fun x => x.1 :: x.2
    rw [Walked.both_go, Walked.rebuild_rebuild] at walked
    have closed : (Slot.element st list).stops op (fun _ => base.inside owner)
        (.entering worth) = false := by
      rw [Slot.stops, gate, eq_false_of_ne_true entered, Bool.false_and]
    exact settles_skipped closed walked

section

/-! A list settles when each of its statements does. -/

variable {stmt : Walker Search Stmt}
  (each : ∀ st s, Seeking owner s → SettlesAs op base worth owner st.slots st (stmt st s))

include each

/-- An element is offered first, then walked as the operator leaves it, so its own slot comes before
those inside. -/
theorem elements_settles (list : List Stmt) (hs : s.Seeking owner) :
    SettlesAs op base worth owner (Stmt.slotsList list) list
      ((walking op base worth).elements stmt list s) := by
  induction list generalizing s with
  | nil => exact .skip hs
  | cons st list ih => exact offered_settles (each st) (fun _ hs => ih hs) hs

/-- A statement list is offered as a whole before its elements. -/
theorem stmts_settles (list : List Stmt) (hs : s.Seeking owner) :
    SettlesAs op base worth owner (.stmts list :: Stmt.slotsList list) list
      ((walking op base worth).stmts stmt list s) := by
  have noted := hs.noting (op.onStmts (base.inside owner) list).2
  have answered : (Slot.stmts list).answer op (fun _ => base.inside owner) =
      (op.onStmts (base.inside owner) list).1.answer id := rfl
  rw [hs.stmts]
  rcases answer : op.onStmts (base.inside owner) list with ⟨outcome, notes⟩
  rw [answer] at answered noted
  cases outcome with
  | pass left => exact settles_offered answered (elements_settles each list noted)
  | done made => exact settles_done noted rfl answered
  | refused reason left => exact settles_refused noted rfl answered

/-- A block settles, unless it is not worth entering. -/
theorem block_settles (b : Block) (hs : s.Seeking owner) :
    SettlesAs op base worth owner b.slots b ((walking op base worth).block stmt b s) := by
  obtain ⟨list, span⟩ := b
  have inside : (s.entering (.block ⟨list, span⟩)).Seeking owner := hs
  rw [Revision.block, Block.slots, walking_around (by simp)]
  refine Settles.along (Path.within_through span) (fun _ => rfl) (fun _ => rfl) hs fun _ => ?_
  exact (stmts_settles each list inside).rebuild _

theorem matchCase_settles (c : MatchCase) (hs : s.Seeking owner) :
    SettlesAs op base worth owner
      ((Slots.rebuild (.stmts c.body :: Stmt.slotsList c.body)
        fun body => { c with body }).along (.through c.span)) c
      ((walking op base worth).matchCase stmt c s) := by
  obtain ⟨pattern, body, span⟩ := c
  have inside : (s.entering (.case ⟨pattern, body, span⟩)).Seeking owner := hs
  rw [Revision.matchCase, walking_around (by simp)]
  refine Settles.along (Path.within_through span) (fun _ => rfl) (fun _ => rfl) hs fun _ => ?_
  exact (stmts_settles each body inside).rebuild fun body => MatchCase.mk pattern body span

/-- The cases of a `match` settle one after another. -/
theorem matchCases_settles (cases : List MatchCase) (hs : s.Seeking owner) :
    SettlesAs op base worth owner (MatchCase.slotsList cases) cases
      ((walking op base worth).matchCases stmt cases s) := by
  induction cases generalizing s with
  | nil => exact .skip hs
  | cons c cases ih =>
    obtain ⟨pattern, body, span⟩ := c
    exact ((matchCase_settles each _ hs).both fun _ hs => ih hs).rebuild _

theorem stmtOpt_settles (st : Option Stmt) (hs : s.Seeking owner) :
    SettlesAs op base worth owner (Stmt.slotsOpt st) st (Revision.stmtOpt stmt st s) := by
  cases st with
  | none => exact .skip hs
  | some st => exact (each st s hs).rebuild _

theorem blockOpt_settles (b : Option Block) (hs : s.Seeking owner) :
    SettlesAs op base worth owner (Block.slotsOpt b) b
      ((walking op base worth).blockOpt stmt b s) := by
  cases b with
  | none => exact .skip hs
  | some b => exact (block_settles each b hs).rebuild _

/-- The inside of a statement settles when expressions and statements do. -/
theorem stmtKind_settles {expr : Walker Search Expr}
    (eachExpr : ∀ e s, Seeking owner s → SettlesAs op base worth owner e.slots e (expr e s))
    (kind : StmtKind) (hs : s.Seeking owner) :
    SettlesAs op base worth owner kind.slots kind
      ((walking op base worth).stmtKind expr stmt kind s) := by
  cases kind with
  | varDecl d => exact (varDecl_settles eachExpr d hs).rebuild _
  | update u => exact (update_settles eachExpr u hs).rebuild _
  | expr e | assert e | assume e => exact (eachExpr e s hs).rebuild _
  | ret es | print es => exact (exprs_settles eachExpr es hs).rebuild _
  | ifElse guard thenBranch elseBranch =>
    exact (((exprOpt_settles eachExpr guard hs).both
      fun _ hs => block_settles each thenBranch hs).both
      fun _ hs => stmtOpt_settles each elseBranch hs).rebuild _
  | whileLoop guard invariants decreases body =>
    exact ((((exprOpt_settles eachExpr guard hs).both
      fun _ hs => clause_settles expr invariants hs).both
      fun _ hs => clause_settles expr decreases hs).both
      fun _ hs => block_settles each body hs).rebuild _
  | forLoop _ start stop _ invariants body =>
    exact ((((eachExpr start s hs).both fun _ hs => exprOpt_settles eachExpr stop hs).both
      fun _ hs => clause_settles expr invariants hs).both
      fun _ hs => block_settles each body hs).rebuild _
  | breakLoop | continueLoop => exact .skip hs
  | block b => exact (block_settles each b hs).rebuild _
  | matchOn source cases =>
    exact ((eachExpr source s hs).both fun _ hs => matchCases_settles each cases hs).rebuild _

end

/-- The walk of a statement settles. -/
theorem stmt_settles (depth : Nat) (st : Stmt) (s : Search) (hs : s.Seeking owner) :
    SettlesAs op base worth owner st.slots st ((walking op base worth).stmt depth st s) := by
  induction depth generalizing st s with
  | zero => trivial
  | succ depth ih =>
    obtain ⟨kind, span, ghost⟩ := st
    have inside : (s.entering (.stmt ⟨kind, span, ghost⟩)).Seeking owner := hs
    have parts := (stmtKind_settles ih (expr_settles depth) kind inside).rebuild
      fun kind => Stmt.mk kind span ghost
    simp only [Revision.stmt, Stmt.slots, walking_admits, walking_worth]
    refine Settles.along (Path.within_toStmt _) (fun _ => rfl) (fun _ => rfl) hs fun walked => ?_
    have executable : Stmt.context ⟨kind, span, ghost⟩ = .executable := by
      simp only [Bool.and_eq_true, decide_eq_true_eq] at walked
      exact walked.1
    rw [Revision.within, if_pos executable, walking_around (by simp)]
    exact parts

variable (depth : Nat)

/-- A contract holds no slot that a search looks at. -/
theorem contract_settles (expr : Walker Search Expr) (c : Contract) (hs : s.Seeking owner) :
    SettlesAs op base worth owner c.slots c ((walking op base worth).contract expr c s) :=
  ((((clause_settles expr c.requires hs).both fun _ hs => clause_settles expr c.ensures hs).both
    fun _ hs => clause_settles expr c.frame hs).both
    fun _ hs => clause_settles expr c.decreases hs).rebuild _

/-- The walk of the inside of a member settles. -/
theorem memberKind_settles (m : Member) (hs : s.Seeking owner) :
    SettlesAs op base worth owner m.innerSlots m ((walking op base worth).memberKind depth m s) := by
  cases m with
  | field f =>
    rw [Revision.memberKind, walking_around (by simp)]
    exact .skip hs
  | method m =>
    have inside : (s.entering (.method m)).Seeking owner :=
      ⟨hs.found, hs.span, hs.refusal, hs.enclosing⟩
    rw [Revision.memberKind, Revision.method, walking_around (by simp), Walked.rebuild_rebuild]
    exact ((contract_settles (Revision.expr _ depth) m.contract inside).both
      fun _ hs => blockOpt_settles (stmt_settles depth) m.body hs).rebuild
        fun x => Member.method { m with contract := x.1, body := x.2 }
  | function f =>
    have inside : (s.entering (.function f)).Seeking owner :=
      ⟨hs.found, hs.span, hs.refusal, hs.enclosing⟩
    rw [Revision.memberKind, Revision.function, walking_around (by simp), Walked.rebuild_rebuild]
    exact ((contract_settles (Revision.expr _ depth) f.contract inside).both
      fun _ hs => exprOpt_settles (expr_settles depth) f.body hs).rebuild
        fun x => Member.function { f with contract := x.1, body := x.2 }

/-- A member settles, unless it is ghost or not worth entering. -/
theorem member_settles (m : Member) (hs : s.Seeking owner) :
    SettlesAs op base worth owner m.slots m ((walking op base worth).member depth m s) := by
  rw [Revision.member, walking_admits, walking_worth]
  refine Settles.along (Path.within_toMember m) (fun _ => rfl) (fun _ => rfl) hs fun walked => ?_
  have executable : m.context = .executable := by
    simp only [Bool.and_eq_true, decide_eq_true_eq] at walked
    exact walked.1
  rw [Revision.within, if_pos executable]
  exact memberKind_settles depth m hs

/-- The members of a declaration settle one after another. -/
theorem eachMember_settles (list : List Member) (hs : s.Seeking owner) :
    SettlesAs op base worth owner (Member.slotsList list) list
      ((walking op base worth).eachMember depth list s) := by
  induction list generalizing s with
  | nil => exact .skip hs
  | cons m list ih =>
    have first : SettlesAs op base worth owner m.slots m
        ((walking op base worth).member depth m s) := member_settles depth m hs
    have walked := (first.both fun _ hs => ih hs).rebuild fun x => x.1 :: x.2
    rw [following_eq first] at walked
    rw [Revision.eachMember, Member.slotsList]
    revert walked
    cases (walking op base worth).member depth m s <;> exact id

/-- A member list is offered as a whole before its members. -/
theorem members_settles (list : List Member) (hs : s.Seeking owner) :
    SettlesAs op base worth owner (.members list :: Member.slotsList list) list
      ((walking op base worth).members depth list s) := by
  have answered : (Slot.members list).answer op (fun _ => base.inside owner) =
      (op.onMembers (base.inside owner) list).answer id := rfl
  rw [hs.members]
  cases answer : op.onMembers (base.inside owner) list with
  | pass left =>
    exact settles_offered (by rw [answered, answer]; rfl) (eachMember_settles depth list hs)
  | done made => exact settles_done hs rfl (by rw [answered, answer]; rfl)
  | refused reason left => exact settles_refused hs rfl (by rw [answered, answer]; rfl)

/-- The search is going on. -/
def SeekingAny (s : Search) : Prop := ∃ owner, s.Seeking owner

/-- What is inside a declaration, seen from outside: the name of the declaration is known. -/
theorem owned_settles {name : String} {slots : Slots α} {a : α} {r : Walked (α × Search)}
    {g : Path → Path} (h : SettlesAs op base worth (some name) slots a r)
    (passes : ∀ p, (g p).within (.entering worth) = p.within (.entering worth))
    (owner : ∀ p, (g p).owner = some name) (assigned : ∀ p, (g p).assigned = p.assigned) :
    Settles op base.inside (.entering worth) SeekingAny (slots.along g) a r := by
  have answer : ∀ x : Slot α, (x.along g).answer op base.inside =
      x.answer op (fun _ => base.inside (some name)) := by
    intro x
    rw [Slot.answer, Slot.answer, Slot.path_along, owner]
    rfl
  have moved : (slots.along g).find? (Slot.stops op base.inside (.entering worth)) =
      (slots.find? (Slot.stops op (fun _ => base.inside (some name)) (.entering worth))).map
        (Slot.along g) := by
    rw [Slots.along, List.find?_map]
    congr 2
    funext x
    rw [Function.comp_apply, Slot.stops, Slot.stops, answer, Slot.path_along, passes]
    rfl
  obtain ⟨a', s⟩ | ⟨a', s⟩ | r := r
  · obtain ⟨same, hs, nowhere⟩ := h
    exact ⟨same, ⟨_, hs⟩, by rw [moved, nowhere, Option.map_none]⟩
  · obtain ⟨x, first, ended⟩ := h
    refine ⟨x.along g, by rw [moved, first, Option.map_some], ?_⟩
    have found : (x.along g).found = x.found := by
      simp only [Slot.found, Slot.place_along, Slot.path_along, assigned]
    unfold Slot.Ended
    rw [answer, found]
    exact ended
  · trivial

/-- Inside a declaration a search knows which one it is in. -/
theorem decl_settles (d : Decl) (hs : s.SeekingAny) :
    Settles op base.inside (.entering worth) SeekingAny d.slots d
      ((walking op base worth).decl depth d s) := by
  obtain ⟨owner, seeking⟩ := hs
  by_cases entered : worth d.span = true
  · have open' : ∀ p : Path, ((p.through d.span).of d.name).within (.entering worth) =
        p.within (.entering worth) := by
      simp [entered]
    have inside : ∀ node, (s.entering node).enclosing = some d.name →
        (s.entering node).found = s.found → (s.entering node).span = s.span →
        (s.entering node).refusal = s.refusal → SettlesAs op base worth (some d.name)
          (Slots.rebuild (.members d.members :: Member.slotsList d.members) d.withMembers)
          (d.withMembers d.members) (((walking op base worth).members depth d.members
            (s.entering node)).rebuild d.withMembers) := by
      intro node enclosing found span refusal
      refine (members_settles depth d.members ⟨?_, ?_, ?_, enclosing⟩).rebuild d.withMembers
      · rw [found, seeking.found]
      · rw [span, seeking.span]
      · rw [refusal, seeking.refusal]
    cases d with
    | «class» c =>
      change worth c.span = true at entered
      rw [Revision.decl, Revision.class, walking_worth, if_pos entered, walking_around (by simp),
        Walked.rebuild_rebuild]
      exact owned_settles (inside (.class c) rfl rfl rfl rfl) open' (fun _ => rfl) fun _ => rfl
    | datatype d =>
      change worth d.span = true at entered
      rw [Revision.decl, Revision.datatype, walking_worth, if_pos entered,
        walking_around (by simp), Walked.rebuild_rebuild]
      exact owned_settles (inside (.datatype d) rfl rfl rfl rfl) open' (fun _ => rfl) fun _ => rfl
  · have closed : ∀ p : Path, ((p.through d.span).of d.name).within (.entering worth) = false := by
      simp [entered]
    have same : (walking op base worth).decl depth d s = .go (d, s) := by
      cases d with
      | «class» c =>
        change ¬worth c.span = true at entered
        rw [Revision.decl, Revision.class, walking_worth, if_neg entered, Walked.rebuild_go]
      | datatype d =>
        change ¬worth d.span = true at entered
        rw [Revision.decl, Revision.datatype, walking_worth, if_neg entered, Walked.rebuild_go]
    rw [same]
    exact .unwalked d ⟨owner, seeking⟩ closed

theorem decls_settles (ds : List Decl) (hs : s.SeekingAny) :
    Settles op base.inside (.entering worth) SeekingAny (Decl.slotsList ds) ds
      ((walking op base worth).decls depth ds s) := by
  induction ds generalizing s with
  | nil => exact .skip hs
  | cons d ds ih => exact ((decl_settles depth d hs).both fun _ hs => ih hs).rebuild _

/-- The walk of a module settles. -/
theorem module_settles (m : Module) (hs : s.SeekingAny) :
    Settles op base.inside (.entering worth) SeekingAny m.slots m
      ((walking op base worth).module depth m s) := by
  have inside : (s.entering (.module m)).SeekingAny := hs
  rw [Revision.module, walking_around (by simp)]
  exact (decls_settles depth m.decls inside).rebuild fun decls => { m with decls }

/-- A search lets the walk into the nodes that it is offered. -/
theorem settle_descend {ν : Type} {found : Found} {outcome : Outcome ν α} {change : α → ν × Span}
    {node left : ν} (back : outcome.HandsBack node)
    (descends : (settle found outcome change s).1 = .descend left) : left = node := by
  cases outcome with
  | pass left' =>
    cases descends
    exact back
  | done _ | refused _ _ => cases descends

/-- A search makes nothing larger before it enters it. -/
theorem walking_modest : (walking op base worth).Modest where
  visit k a s b descends := by
    cases k with
    | expr =>
      rw [settle_descend (op.onExpr_handsBack (s.site base) a) descends]
    | _ =>
      cases descends
      exact Nat.le_refl _
  target e s e' descends := by
    rw [target_eq] at descends
    split at descends <;> cases descends
    exact Nat.le_refl _
  reviseStmts list s list' descends := by
    rw [settle_descend (op.onStmts_handsBack (s.site base) list) descends]
  reviseMembers list s list' descends := by
    rw [settle_descend (op.onMembers_handsBack (s.site base) list) descends]
  offer st s kept := by
    have back := op.onStmt_handsBack (s.site base) st
    simp only [walking, revision] at kept ⊢
    revert back kept
    cases op.onStmt (s.site base) st with
    | done change => cases change <;> exact fun kept => nomatch kept
    | pass left | refused _ left =>
      rintro - rfl
      exact Nat.le_refl _

/-- A search comes to the same at every depth that is enough for the module. -/
theorem walking_module {m : Module} {depth : Nat} (enough : m.size ≤ depth) (s : Search) :
    (walking op base worth).module depth m s = (walking op base worth).module m.size m s := by
  obtain cut | same := Revision.module_deepens (walking op base worth) enough m s
  · exact absurd cut (walking_modest.module (Nat.le_refl m.size) s).not_isCut
  · exact same

/-- What the operator answers at a place of the declaration `owner`. -/
def answerAt (op : Operator) (base : Site) : String × Place → Answer Span
  | (owner, p) => op.onPlace (base.inside (some owner)) p

end Search

/-- What is known of a module when a request is carried out on it. -/
def Module.site (m : Module) (r : Request) (limit : Nat) : Site :=
  { target := r.location, cascadeLimit := limit, declarations := m.declarations }

/-- The first place in a module at which the operator does not pass, over the executable code in
which the target may lie. -/
def Module.firstAnswer? (m : Module) (r : Request) (limit : Nat) (op : Operator) :
    Option (String × Place) :=
  (m.places (.toward r.location)).find? fun i => (Search.answerAt op (m.site r limit) i).answers

/-- The first slot of a module at which the operator does not pass, over the executable code in the
spans that are worth entering. -/
def Module.firstSlot? (m : Module) (worth : Span → Bool) (r : Request) (limit : Nat)
    (op : Operator) : Option (Slot Module) :=
  m.slots.find? (Slot.stops op (m.site r limit).inside (.entering worth))

/-- The first slot is at the first place. -/
theorem Module.firstSlot?_key (m : Module) (r : Request) (limit : Nat) (op : Operator) :
    (m.firstSlot? r.location.mayLieIn r limit op).map Slot.key =
      (m.firstAnswer? r limit op).map fun i => (some i.1, i.2) := by
  have answers : ∀ i : String × Place, (Search.answerAt op (m.site r limit) i).answers =
      (op.answer ((m.site r limit).inside (some i.1)) i.2).answers := by
    rintro ⟨owner, p⟩
    rw [Search.answerAt, Operator.onPlace_eq, Answer.answers_map]
  simp only [Module.firstAnswer?, answers]
  exact m.find?_slots (w := .toward r.location)
    fun (owner, p) => (op.answer ((m.site r limit).inside owner) p).answers

/-- The slot at which a search stops is that of the first place at which the operator answers. -/
theorem Module.exists_firstAnswer {m : Module} {r : Request} {limit : Nat} {op : Operator}
    {x : Slot Module} (first : m.firstSlot? r.location.mayLieIn r limit op = some x) :
    ∃ i, m.firstAnswer? r limit op = some i ∧ x.path.owner = some i.1 ∧ x.place = i.2 := by
  have key := m.firstSlot?_key r limit op
  rw [first, Option.map_some, eq_comm, Option.map_eq_some_iff] at key
  obtain ⟨i, found, same⟩ := key
  exact ⟨i, found, (congrArg Prod.fst same).symm, (congrArg Prod.snd same).symm⟩

/-- Carries out a request by a search that enters the spans that are worth it. -/
def Module.mutateBy (m : Module) (worth : Span → Bool) (r : Request) (limit : Nat) :
    Except ArgumentFault Mutant :=
  match Operator.make r.kind r.argument with
  | .error fault => .error fault
  | .ok op =>
    let (after, s) := ((Search.walking op (m.site r limit) worth).module m.size m {}).value
    .ok ⟨after, s.report r, s.notes ++ [s.verdict]⟩

/-- The search that a request starts enters what its location may lie in. -/
theorem Module.mutate_eq (m : Module) (r : Request) (limit : Nat) :
    m.mutate r limit = m.mutateBy r.location.mayLieIn r limit := by
  unfold Module.mutate Module.apply Module.mutateBy
  cases Operator.make r.kind r.argument <;> rfl

theorem Module.mutateBy_error {m : Module} {r : Request} {fault : ArgumentFault}
    (made : Operator.make r.kind r.argument = .error fault) (worth : Span → Bool) (limit : Nat) :
    m.mutateBy worth r limit = .error fault := by
  rw [Module.mutateBy, made]

/-- A search of a module ends as its report says: it has found nothing, or it has ended at the
first slot at which the operator does not pass. -/
theorem Module.mutateBy_settles {m : Module} {r : Request} {op : Operator}
    (made : Operator.make r.kind r.argument = .ok op) (worth : Span → Bool) (limit : Nat) :
    ∃ after s notes, m.mutateBy worth r limit = .ok ⟨after, s.report r, notes⟩ ∧
      ((m.firstSlot? worth r limit op = none ∧ after = m ∧ s.SeekingAny) ∨
        ∃ x, m.firstSlot? worth r limit op = some x ∧
          x.Ended op (m.site r limit).inside m after s) := by
  have start : Search.SeekingAny {} := ⟨none, rfl, rfl, rfl, rfl⟩
  have settled : Settles op (m.site r limit).inside (.entering worth) Search.SeekingAny m.slots m
      ((Search.walking op (m.site r limit) worth).module m.size m {}) :=
    Search.module_settles m.size m start
  have uncut : ((Search.walking op (m.site r limit) worth).module m.size m {}).Uncut :=
    Search.walking_modest.module (Nat.le_refl m.size) {}
  simp only [Module.mutateBy, made]
  refine ⟨_, _, _, rfl, ?_⟩
  match (Search.walking op (m.site r limit) worth).module m.size m {}, settled, uncut with
  | .go (m', s), ⟨same, hs, nowhere⟩, _ => exact .inl ⟨nowhere, same, hs⟩
  | .halt (m', s), ⟨x, first, ended⟩, _ => exact .inr ⟨x, first, ended⟩
  | .cut r, _, uncut => exact absurd rfl uncut

/-- How a request ends. -/
inductive Module.Ends (m : Module) (r : Request) (limit : Nat) (op : Operator) (x : Mutant) : Prop
  /-- The operator passes everywhere. -/
  | missed (first : m.firstAnswer? r limit op = none) (same : x.module = m)
    (found : x.report.found = none) (span : x.report.span = none)
    (refusal : x.report.refusal = none)
  | refused {i : String × Place} {reason : Refusal} (first : m.firstAnswer? r limit op = some i)
    (answer : Search.answerAt op (m.site r limit) i = .refused reason) (same : x.module = m)
    (found : x.report.found = none) (span : x.report.span = none)
    (refusal : x.report.refusal = some reason)
  | changed {i : String × Place} {at' : Span} {kind : Found}
    (first : m.firstAnswer? r limit op = some i)
    (answer : Search.answerAt op (m.site r limit) i = .done at')
    (edited : ∃ spans, Edited op ((m.site r limit).inside (some i.1)) i.2 spans (.module m)
      (.module x.module))
    (found : x.report.found = some kind) (span : x.report.span = some at')
    (refusal : x.report.refusal = none)

theorem exists_of_map_ok {ε α β : Type} {r : Except ε α} {f : α → β} {b : β}
    (h : r.map f = .ok b) : ∃ a, r = .ok a ∧ f a = b := by
  cases r with
  | error _ => cases h
  | ok a => exact ⟨a, rfl, Except.ok.inj h⟩

/-- A request for which there is an operator ends at the first place where that operator does not
pass. -/
theorem Module.mutate_ends {m : Module} {r : Request} {op : Operator}
    (made : Operator.make r.kind r.argument = .ok op) (limit : Nat) :
    ∃ x, m.mutate r limit = .ok x ∧ m.Ends r limit op x := by
  obtain ⟨after, s, notes, ok, ⟨nowhere, same, owner, hs⟩ | ⟨x, first, ended⟩⟩ :=
    Module.mutateBy_settles made r.location.mayLieIn limit (m := m)
  all_goals rw [← Module.mutate_eq] at ok
  · have none : m.firstAnswer? r limit op = none := by
      have key := m.firstSlot?_key r limit op
      rwa [nowhere, Option.map_none, eq_comm, Option.map_eq_none_iff] at key
    exact ⟨_, ok, .missed none same hs.found hs.span hs.refusal⟩
  obtain ⟨i, found, owner, place⟩ := Module.exists_firstAnswer first
  have within : x.path.within (.toward r.location) = true := by
    have stops := List.find?_some first
    simp only [Slot.stops, Bool.and_eq_true] at stops
    exact stops.1
  have asked : Search.answerAt op (m.site r limit) i =
      (x.answer op (m.site r limit).inside).map Prod.snd := by
    obtain ⟨name, p⟩ := i
    rw [Search.answerAt, Operator.onPlace_eq, Slot.answer, owner, place]
  rcases ended with ⟨new, span, done, rfl, rest⟩ | ⟨reason, refused, same, rest⟩
  · refine ⟨_, ok, .changed found (by rw [asked, done]; rfl) ?_ rest.1 rest.2.1 rest.2.2⟩
    rw [Slot.answer, owner] at done
    have exchanged := m.exchanged x (List.mem_of_find?_eq_some first) (Path.within_mono (Coverage.toward_le _) within) new
    refine ⟨x.path.spans, ?_⟩
    rw [← place]
    exact ⟨new, span, done, exchanged⟩
  · exact ⟨_, ok, .refused found (by rw [asked, refused]; rfl) same rest.1 rest.2.1 rest.2.2⟩

/-- The module as a request leaves it. -/
def Module.afterward (m : Module) (r : Request) (limit : Nat) : Module := (m.apply r limit).2

/-- A request that is answered leaves the module that it reports. -/
theorem Module.afterward_eq {m : Module} {r : Request} {limit : Nat} {x : Mutant}
    (h : m.mutate r limit = .ok x) : m.afterward r limit = x.module := by
  obtain ⟨said, -, rfl⟩ := exists_of_map_ok h
  rfl

theorem Module.mutate_error {m : Module} {r : Request} {fault : ArgumentFault}
    (made : Operator.make r.kind r.argument = .error fault) (limit : Nat) :
    m.mutate r limit = .error fault := by
  rw [Module.mutate_eq, Module.mutateBy_error made]

/-- A request for which there is no operator is answered with its fault before the module is looked
at. -/
theorem Module.afterward_error {m : Module} {r : Request} {fault : ArgumentFault}
    (made : Operator.make r.kind r.argument = .error fault) (limit : Nat) :
    m.afterward r limit = m := by
  rw [Module.afterward, Module.apply, made]

/-- A request that is carried out has put what an operator answers at one place of the executable
code. -/
theorem Module.exists_edit {m : Module} {r : Request} {limit : Nat} {x : Mutant}
    (ok : m.mutate r limit = .ok x) (applied : x.report.isApplied = true) :
    ∃ op owner p spans, Operator.make r.kind r.argument = .ok op ∧
      (owner, p) ∈ m.places .executable ∧
      Edited op ((m.site r limit).inside (some owner)) p spans (.module m) (.module x.module) := by
  cases made : Operator.make r.kind r.argument with
  | error fault =>
    rw [Module.mutate_error made] at ok
    cases ok
  | ok op =>
    obtain ⟨y, given, ends⟩ := Module.mutate_ends made limit (m := m)
    cases given.symm.trans ok
    cases ends with
    | missed _ _ found _ _ | refused _ _ _ found _ _ =>
      rw [Report.isApplied, found] at applied
      cases applied
    | @changed i _ _ first _ edited _ _ _ =>
      obtain ⟨spans, edited⟩ := edited
      have placed : i ∈ m.places .executable :=
        (Module.places_sublist (Coverage.toward_le _) m).subset (List.mem_of_find?_eq_some first)
      exact ⟨op, i.1, i.2, spans, rfl, placed, edited⟩

/-- A request leaves a module alone or makes one change in it. -/
theorem Module.afterward_cases (m : Module) (r : Request) (limit : Nat) :
    m.afterward r limit = m ∨ ∃ op owner p spans, Operator.make r.kind r.argument = .ok op ∧
      Edited op ((m.site r limit).inside (some owner)) p spans (.module m)
        (.module (m.afterward r limit)) := by
  cases made : Operator.make r.kind r.argument with
  | error fault => exact .inl (Module.afterward_error made limit)
  | ok op =>
    obtain ⟨x, ok, ends⟩ := Module.mutate_ends made limit (m := m)
    rw [Module.afterward_eq ok]
    cases ends with
    | missed _ same => exact .inl same
    | refused _ _ same => exact .inl same
    | @changed i _ _ _ _ edited =>
      obtain ⟨spans, edited⟩ := edited
      exact .inr ⟨op, i.1, i.2, spans, rfl, edited⟩

/-- A request that comes to nothing leaves the module as it was: it is faulty, nothing matches, or
the operator refuses, however far it has gone by then. -/
theorem Module.afterward_eq_self {m : Module} {r : Request} {limit : Nat}
    (nothing : ∀ x, m.mutate r limit = .ok x → x.report.isApplied = false) :
    m.afterward r limit = m := by
  cases made : Operator.make r.kind r.argument with
  | error fault => exact Module.afterward_error made limit
  | ok op =>
    obtain ⟨x, ok, ends⟩ := Module.mutate_ends made limit (m := m)
    rw [Module.afterward_eq ok]
    cases ends with
    | missed _ same => exact same
    | refused _ _ same => exact same
    | changed _ _ _ found =>
      have applied := nothing x ok
      simp [Report.isApplied, found] at applied

/-- The declaration of a local of unknown type. -/
def Stmt.declaring (name : String) (value : ExprKind) (pos : Pos) : Stmt :=
  ⟨.varDecl (.withInit [⟨name, .unknown, .token pos, false⟩]
    [⟨value, .token (pos + 1), .unknown⟩]), .range pos (pos + 1), false⟩

/-- A method with three locals, each of which depends on the one before. -/
def Module.dependents : Module :=
  ⟨"m", [.class
    { name := "C"
      span := .range 0 20
      members := [.method
        { name := "f"
          params := []
          span := .range 1 19
          body := some ⟨[.declaring "a" .this 4, .declaring "b" (.name "a") 8,
            .declaring "c" (.name "b") 12], .range 3 18⟩ }] }]⟩

/-- The deletion of the first local is given up after it has deleted the second. -/
theorem Module.dependents_afterward :
    ((dependents.mutate ⟨.range 4 5, .variableDeletion, some "a"⟩ 1).map fun x =>
      (x.report.isApplied, x.report.refusal)) = .ok (false, some .cascadeExhausted) ∧
    dependents.afterward ⟨.range 4 5, .variableDeletion, some "a"⟩ 1 = dependents := by
  have given : ((dependents.mutate ⟨.range 4 5, .variableDeletion, some "a"⟩ 1).map fun x =>
      (x.report.isApplied, x.report.refusal)) = .ok (false, some .cascadeExhausted) := by rfl
  refine ⟨given, Module.afterward_eq_self fun x ok => ?_⟩
  rw [ok] at given
  exact congrArg Prod.fst (Except.ok.inj given)

end Mutation
