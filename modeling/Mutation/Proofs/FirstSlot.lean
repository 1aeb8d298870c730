import Mutation.Proofs.Coherence
import Mutation.Proofs.Unambiguous

/-!
# The one slot that a request fills

The kind of a request says which sort of place it changes. A request that is applied has changed
one place of that sort: the first slot of the module, in the order of a walk, that lies in
executable code in which the target may lie, and at which the operator does not pass. The slot
holds what the operator has put there, everything else is as it was (`Module.mutate_applied`).
-/

namespace Mutation

/-- The sort of places that a kind of operator changes. -/
def Kind.level : Kind → Level
  | .bodySwap => .members
  | .initializerSwap | .variableDeletion => .stmts
  | .statementDeletion | .breakInsertion | .returnDefaults | .branchExtraction | .branchDeletion
  | .caseReplacement | .caseExtraction => .element
  | _ => .expr

/-- A scan gives the anchor of the expression; otherwise it gives a range. -/
def Kind.atAnchor : Kind → Bool
  | .binaryReplacement | .binaryToBool | .operandOnly | .negationInsertion | .negationDeletion
  | .literalReplacement | .variableReplacement | .thisInsertion | .thisDeletion
  | .fieldReplacement | .componentReplacement | .ctorReplacement => true
  | _ => false

/-- Where a candidate of the kind is, for a node with this span. -/
def Kind.locate (kind : Kind) (span : Span) : Location :=
  if kind.atAnchor then span.anchorLocation else span.rangeLocation

/-- The shapes of expressions that a kind of operator changes. -/
def Kind.shapes : Kind → List Shape
  | .binaryReplacement | .binaryToBool | .operandOnly => [.binary]
  | .negationInsertion | .variableReplacement | .thisInsertion => [.name]
  | .negationDeletion => [.unary]
  | .literalReplacement => [.literal]
  | .defaultValue => Shape.reads
  | .initReplacement => Shape.initializers
  | .thisDeletion | .fieldReplacement => [.member]
  | .componentReplacement => [.tupleIndex]
  | .ctorReplacement => [.ctor]
  | .argumentPropagation | .receiverPropagation | .calleeReplacement | .argumentSwap => [.call]
  | _ => []

namespace Kind

variable {kind : Kind}

theorem locate_matchesB (span : Span) : (kind.locate span).matchesB span = true := by
  unfold locate
  split <;> simp [Span.anchorLocation, Span.rangeLocation, Location.matchesB]

theorem level_of_shapes {shape : Shape} (h : shape ∈ kind.shapes) : kind.level = .expr := by
  cases kind <;> first
    | rfl
    | cases h

theorem shapes_alike (kind : Kind) : Shape.Alike kind.shapes := by
  cases kind <;> first
    | exact .inl (Nat.le_refl _)
    | exact .inl (Nat.zero_le _)
    | exact .inr (.inl rfl)
    | exact .inr (.inr rfl)

/-- An operator that acts on several shapes is told where by a range. -/
theorem single_shape (kind : Kind) (span : Span) :
    kind.shapes.length ≤ 1 ∨ ∃ a b, kind.locate span = .range a b := by
  cases kind <;> first
    | exact .inl (Nat.le_refl _)
    | exact .inl (Nat.zero_le _)
    | exact .inr ⟨_, _, rfl⟩

end Kind

namespace Operator

theorem level_eq (op : Operator) : op.level = op.kind.level := by
  cases op <;> rfl

theorem kind_of_orElse {α : Type} {reason : String} {f : α → Operator} {read : Option α}
    {op : Operator} {kind : Kind} (h : orElse reason f read = .ok op)
    (kinds : ∀ a, (f a).kind = kind) : op.kind = kind := by
  cases read with
  | none => cases h
  | some a =>
    cases h
    exact kinds a

theorem kind_of_map {α : Type} {f : α → Operator} {read : Except String α} {op : Operator}
    {kind : Kind} (h : read.map f = .ok op) (kinds : ∀ a, (f a).kind = kind) : op.kind = kind := by
  obtain ⟨a, -, rfl⟩ := exists_of_map_ok h
  exact kinds a

theorem kind_of_ofArgument {kind : Kind} {argument : String} {op : Operator}
    (h : ofArgument kind argument = .ok op) : op.kind = kind := by
  unfold ofArgument at h
  cases kind with
  | binaryReplacement | binaryToBool | operandOnly | negationInsertion | initReplacement
  | componentReplacement | argumentPropagation | branchExtraction | caseExtraction =>
    exact kind_of_orElse h fun _ => rfl
  | argumentSwap | initializerSwap => exact kind_of_map h fun _ => rfl
  | _ =>
    cases h
    rfl

theorem exists_ofArgument {kind : Kind} {argument : Option String} {op : Operator}
    (made : make kind argument = .ok op) : ∃ a, ofArgument kind a = .ok op := by
  unfold make at made
  split at made
  · cases made
  · rename_i a _
    cases read : ofArgument kind a with
    | error reason =>
      rw [read] at made
      cases made
    | ok op' =>
      rw [read] at made
      cases made
      exact ⟨a, read⟩

/-- The operator for a kind and an argument is of that kind. -/
theorem kind_of_make {kind : Kind} {argument : Option String} {op : Operator}
    (made : make kind argument = .ok op) : op.kind = kind := by
  obtain ⟨a, read⟩ := exists_ofArgument made
  exact kind_of_ofArgument read

end Operator

/-- The path stays in executable code, and in nodes in which the target may lie; of the targets of
assignments it enters index expressions only. -/
structure Path.Entered (target : Location) (p : Path) : Prop where
  executable : ∀ context ∈ p.contexts, context = .executable
  worth : ∀ span ∈ p.spans, target.mayLieIn span = true
  index : ∀ e ∈ p.targets, e.isIndex = true

theorem Path.within_toward_iff {target : Location} {p : Path} :
    p.within (.toward target) = true ↔ p.Entered target := by
  simp only [within, Coverage.toward, Coverage.executable, Bool.and_eq_true, List.all_eq_true,
    decide_eq_true_eq]
  exact ⟨fun h => ⟨h.1.1, h.1.2, h.2⟩, fun h => ⟨⟨h.executable, h.worth⟩, h.index⟩⟩

theorem Slot.answer_eq_pass {α : Type} {op : Operator} {site : Option String → Site}
    {w : Coverage} {x : Slot α} (h : x.stops op site w = false) (within : x.path.within w = true) :
    x.answer op site = .pass := by
  rw [stops, within, Bool.true_and] at h
  cases answer : x.answer op site with
  | pass => rfl
  | done value => simp [answer] at h
  | refused reason => simp [answer] at h

/-- An operator of a kind makes its change at places of the sort of that kind. -/
theorem Operator.level_of_done {op : Operator} {site : Site} {p : Place}
    {value : p.Content × Span} (h : op.answer site p = .done value) : p.level = op.kind.level := by
  have answers : (op.onPlace site p).answers = true := by
    rw [Operator.onPlace_eq, Answer.answers_map, h, Answer.answers_done]
  rw [← op.level_eq]
  exact Operator.level_of_answers answers

/-- A request that is applied changes one place: the first slot that the search enters at which
the operator does not pass. The slot is of the sort that the kind of the request changes; it holds
what the operator has put there, and everything around it is as it was, but for the copies of the
chains and assignments around it, which are in step. -/
theorem Module.mutate_applied {m : Module} {r : Request} {limit : Nat} {x : Mutant}
    (ok : m.mutate r limit = .ok x) (applied : x.report.isApplied = true) :
    ∃ op before slot after, Operator.make r.kind r.argument = .ok op ∧
      m.slots = before ++ slot :: after ∧ slot.place.level = r.kind.level ∧
      slot.path.Entered r.location ∧
      (∀ y ∈ before, y.path.Entered r.location →
        y.answer op (m.site r limit).inside = .pass) ∧
      ∃ new span, slot.answer op (m.site r limit).inside = .done (new, span) ∧
        x.module = slot.fill new ∧
        Exchanged slot.place new slot.path.spans (.module m) (.module x.module) ∧
        x.report.found = some slot.found ∧ x.report.span = some span := by
  cases made : Operator.make r.kind r.argument with
  | error fault =>
    rw [Module.mutate_error made] at ok
    cases ok
  | ok op =>
    obtain ⟨module, s, notes, settled, ending⟩ :=
      Module.mutateBy_settles made r.location.mayLieIn limit (m := m)
    rw [Module.mutate_eq, settled] at ok
    cases ok
    rcases ending with ⟨-, -, owner, seeking⟩ | ⟨slot, first, ended⟩
    · have nothing : s.found = none := seeking.found
      simp [Search.report, Report.isApplied, nothing] at applied
    obtain ⟨new, span, done, filled, found, reported, -⟩ | ⟨-, -, -, nothing, -⟩ := ended
    · obtain ⟨stops, before, after, order, passed⟩ := List.find?_eq_some_iff_append.1 first
      have within : slot.path.within (.toward r.location) = true := by
        simp only [Slot.stops, Bool.and_eq_true] at stops
        exact stops.1
      have mem : slot ∈ m.slots := List.mem_of_find?_eq_some first
      have level : slot.place.level = r.kind.level := by
        rw [Operator.level_of_done done, Operator.kind_of_make made]
      have exchanged := m.exchanged slot mem (Path.within_mono (Coverage.toward_le _) within) new
      refine ⟨op, before, slot, after, rfl, order, level, Path.within_toward_iff.1 within,
        fun y hy entered => ?_, new, span, done, filled, ?_, found, reported⟩
      · have skipped := passed y hy
        rw [Bool.not_eq_true'] at skipped
        exact Slot.answer_eq_pass skipped (Path.within_toward_iff.2 entered)
      · rwa [← filled] at exchanged
    · simp [Search.report, Report.isApplied, nothing] at applied

/-- A name in a chain in an assignment is the one slot that is filled. -/
theorem Module.chained_mutate_applied :
    ∃ x, Module.chained.mutate ⟨.anchor 8, .variableReplacement, some "d"⟩ 64 = .ok x ∧
      x.report.isApplied = true ∧
      ∃ slot ∈ Module.chained.slots, slot.place.level = .expr ∧ slot.found = .assignment ∧
        ∃ new, x.module = slot.fill new := by
  let r : Request := ⟨.anchor 8, .variableReplacement, some "d"⟩
  have given : (Module.chained.mutate r 64).map (fun x => x.report.found) =
      .ok (some .assignment) := by rfl
  obtain ⟨x, ok, found⟩ := exists_of_map_ok given
  have applied : x.report.isApplied = true := by
    rw [Report.isApplied, found]
    rfl
  obtain ⟨op, before, slot, after, -, order, level, -, -, new, span, -, filled, -, reported, -⟩ :=
    Module.mutate_applied ok applied
  refine ⟨x, ok, applied, slot, by simp [order], level, ?_, new, filled⟩
  rw [found] at reported
  exact (Option.some.inj reported).symm

end Mutation
