import Mutation.Proofs.Invariant

/-!
# Copies that stay in step

A chain keeps the conjunction it means, an assignment keeps the pairs of its targets and values.
A tree is *coherent* when every such copy is what `Chain.rebuild` and `Update.sync` make of the
surface form, inside the copies too. A chain or an assignment in which a part is exchanged is
brought in step, so coherence is a stable invariant (`Invariant.stable_coherent`), and a request
of any kind leaves a coherent module coherent.
-/

namespace Mutation

/-- Every chain of the expression is in step, in its parts and in the conjunctions themselves. -/
inductive Expr.Coherent : Expr → Prop
  | mk {kind : ExprKind} {span : Span} {ty : Ty}
    (parts : ∀ e ∈ kind.parts, Expr.Coherent e)
    (step : ∀ c, kind = .chain c → c.rebuild = c)
    (copies : ∀ c e, kind = .chain c → c.resolved = some e → Expr.Coherent e) :
    Expr.Coherent ⟨kind, span, ty⟩

/-- Every assignment is in step, and so is every chain in it and in its copy. -/
structure Update.Coherent (u : Update) : Prop where
  targets : ∀ e ∈ u.targets, e.Coherent
  values : ∀ e ∈ u.values, e.Coherent
  step : u.sync = u
  copies : ∀ a ∈ u.resolved, a.target.Coherent ∧ a.value.Coherent

mutual
/-- Every assignment and chain of the statement is in step. -/
def Stmt.Coherent : Stmt → Prop
  | ⟨kind, _, _⟩ => kind.Coherent

def StmtKind.Coherent : StmtKind → Prop
  | .varDecl d => ∀ u ∈ d.init, u.Coherent
  | .update u => u.Coherent
  | .expr e => e.Coherent
  | .ret values => ∀ e ∈ values, e.Coherent
  | .ifElse guard thenBranch elseBranch =>
    (∀ e ∈ guard, e.Coherent) ∧ thenBranch.Coherent ∧ Stmt.CoherentOpt elseBranch
  | .whileLoop guard invariants decreases body =>
    (∀ e ∈ guard, e.Coherent) ∧ (∀ e ∈ invariants, e.Coherent) ∧
      (∀ e ∈ decreases, e.Coherent) ∧ body.Coherent
  | .forLoop _ start stop _ invariants body =>
    start.Coherent ∧ (∀ e ∈ stop, e.Coherent) ∧ (∀ e ∈ invariants, e.Coherent) ∧ body.Coherent
  | .breakLoop => True
  | .continueLoop => True
  | .block b => b.Coherent
  | .matchOn source cases => source.Coherent ∧ MatchCase.CoherentList cases
  | .assert e => e.Coherent
  | .assume e => e.Coherent
  | .print args => ∀ e ∈ args, e.Coherent

def Block.Coherent : Block → Prop
  | ⟨list, _⟩ => Stmt.CoherentList list

def Stmt.CoherentList : List Stmt → Prop
  | [] => True
  | s :: list => s.Coherent ∧ Stmt.CoherentList list

/-- Every assignment and chain of a statement that may be missing is in step. -/
def Stmt.CoherentOpt : Option Stmt → Prop
  | none => True
  | some s => s.Coherent

def MatchCase.CoherentList : List MatchCase → Prop
  | [] => True
  | ⟨_, body, _⟩ :: cases => Stmt.CoherentList body ∧ MatchCase.CoherentList cases
end

/-- Every chain of the contract is in step. -/
def Contract.Coherent (c : Contract) : Prop := ∀ clause ∈ c.clauses, ∀ e ∈ clause, e.Coherent

/-- Every assignment and chain of the member is in step. -/
def Member.Coherent : Member → Prop
  | .field _ => True
  | .method m => m.contract.Coherent ∧ ∀ b ∈ m.body, b.Coherent
  | .function f => f.contract.Coherent ∧ ∀ e ∈ f.body, e.Coherent

/-- Every assignment and chain of the module is in step. -/
def Module.Coherent (m : Module) : Prop := ∀ d ∈ m.decls, ∀ member ∈ d.members, member.Coherent

namespace Expr

/-- The parts of a coherent expression are coherent. -/
theorem Coherent.parts {kind : ExprKind} {span : Span} {ty : Ty}
    (h : Coherent ⟨kind, span, ty⟩) : ∀ e ∈ kind.parts, e.Coherent := by
  cases h with
  | mk parts _ _ => exact parts

/-- An expression other than a chain is coherent when its parts are. -/
theorem Coherent.ofParts {kind : ExprKind} {span : Span} {ty : Ty}
    (chain : ∀ c, kind ≠ .chain c) (parts : ∀ e ∈ kind.parts, e.Coherent) :
    Coherent ⟨kind, span, ty⟩ :=
  .mk parts (fun c hc => absurd hc (chain c)) fun c _ hc => absurd hc (chain c)

/-- A chain that has just been brought in step is coherent when its operands are. -/
theorem Coherent.rebuilt {c : Chain} {span : Span} {ty : Ty}
    (operands : ∀ e ∈ c.operands, e.Coherent) : Coherent ⟨.chain c.rebuild, span, ty⟩ := by
  refine .mk operands ?_ ?_
  · rintro _ ⟨⟩
    rfl
  · rintro _ e ⟨⟩ he
    have binary : ∀ op a b span, a.Coherent → b.Coherent → Coherent ⟨.binary op a b, span, .bool⟩ :=
      fun op a b span ha hb => .ofParts (by simp) (by simp [ExprKind.parts, ha, hb])
    exact Chain.rebuild_resolved binary operands he

/-- A shape with coherent parts put in is coherent once its chain is in step. -/
theorem Coherent.resync {kind : ExprKind} {span : Span} {ty : Ty} {es : List Expr}
    (len : es.length = kind.parts.length) (h : ∀ e ∈ es, e.Coherent) :
    Coherent ⟨(kind.withParts es).resync, span, ty⟩ := by
  by_cases chain : ∃ c, kind = .chain c
  · obtain ⟨c, rfl⟩ := chain
    exact .rebuilt h
  · have notChain := fun c hc => chain ⟨c, hc⟩
    rw [ExprKind.resync_withParts notChain]
    refine .ofParts (ExprKind.withParts_ne_chain notChain es) ?_
    rwa [ExprKind.parts_withParts len]

end Expr

/-- An assignment that has just been brought in step is coherent when its parts are. -/
theorem Update.coherent_make {targets values : List Expr} (ht : ∀ e ∈ targets, e.Coherent)
    (hv : ∀ e ∈ values, e.Coherent) : (Update.make targets values).Coherent where
  targets := ht
  values := hv
  step := rfl
  copies := by
    intro a ha
    obtain ⟨target, value⟩ := Update.mem_resolved_make ha
    exact ⟨ht _ target, hv _ value⟩

/-- What is asked of a coherent tree. -/
def Invariant.coherent : Invariant where
  expr := Expr.Coherent
  update := Update.Coherent
  decl d := ∀ u ∈ d.init, u.Coherent
  branches := False

/-- Coherence survives every way an operator makes one expression of another. -/
theorem Invariant.stable_coherent : Invariant.coherent.Stable where
  parts h := h.parts
  plain chain parts := .ofParts chain parts
  resync _ len parts := .resync len parts
  targets h := h.targets
  values h := h.values
  reassign _ _ _ ht hv := Update.coherent_make ht hv
  pairs := by
    intro pairs _ h
    refine Update.coherent_make (fun e he => ?_) fun e he => ?_
    · obtain ⟨x, hx, rfl⟩ := List.mem_map.1 he
      exact (h x hx).1
    · obtain ⟨x, hx, rfl⟩ := List.mem_map.1 he
      exact (h x hx).2
  initial h := (h _ rfl).values
  reinit := by
    rintro locals u values h - hv _ ⟨⟩
    exact Update.coherent_make (h u rfl).targets hv
  left := by
    rintro locals u left h - each _ ⟨⟩
    refine Update.coherent_make (fun e he => ?_) fun e he => ?_
    · obtain ⟨x, hx, rfl⟩ := List.mem_map.1 he
      exact (h u rfl).targets _ (List.of_mem_zip (each x hx).1).2
    · obtain ⟨x, hx, rfl⟩ := List.mem_map.1 he
      exact (each x hx).2
  unset _ _ := nofun

mutual
theorem Stmt.meets_coherent : (s : Stmt) → (s.Meets .coherent ↔ s.Coherent)
  | ⟨kind, _, _⟩ => kind.meets_coherent

/-- One case per form: to meet the invariant is to be coherent. -/
theorem StmtKind.meets_coherent : (kind : StmtKind) → (kind.Meets .coherent ↔ kind.Coherent)
  | .varDecl _ | .update _ | .expr _ | .ret _ | .breakLoop | .continueLoop | .assert _ | .assume _
  | .print _ => Iff.rfl
  | .ifElse _ thenBranch next =>
    and_congr_right' (and_congr thenBranch.meets_coherent (Stmt.meetsElse_coherent next))
  | .whileLoop _ _ _ body =>
    and_congr_right' (and_congr_right' (and_congr_right' body.meets_coherent))
  | .forLoop _ _ _ _ _ body =>
    and_congr_right' (and_congr_right' (and_congr_right' body.meets_coherent))
  | .block b => b.meets_coherent
  | .matchOn _ cases => and_congr_right' (MatchCase.meetsList_coherent cases)

theorem Block.meets_coherent : (b : Block) → (b.Meets .coherent ↔ b.Coherent)
  | ⟨list, _⟩ => Stmt.meetsList_coherent list

theorem Stmt.meetsList_coherent : (list : List Stmt) →
    (Stmt.MeetsList .coherent list ↔ Stmt.CoherentList list)
  | [] => Iff.rfl
  | s :: list => and_congr s.meets_coherent (Stmt.meetsList_coherent list)

theorem Stmt.meetsElse_coherent : (s : Option Stmt) →
    (Stmt.MeetsElse .coherent s ↔ Stmt.CoherentOpt s)
  | none => Iff.rfl
  | some s => ⟨fun h => s.meets_coherent.1 h.2, fun h => ⟨nofun, s.meets_coherent.2 h⟩⟩

theorem MatchCase.meetsList_coherent : (cases : List MatchCase) →
    (MatchCase.MeetsList .coherent cases ↔ MatchCase.CoherentList cases)
  | [] => Iff.rfl
  | ⟨_, body, _⟩ :: cases =>
    and_congr (Stmt.meetsList_coherent body) (MatchCase.meetsList_coherent cases)
end

theorem Member.meets_coherent (m : Member) : m.Meets .coherent ↔ m.Coherent := by
  cases m with
  | field _ | function _ => exact Iff.rfl
  | method m => exact and_congr_right' (forall₂_congr fun b _ => b.meets_coherent)

theorem Module.meets_coherent (m : Module) : m.Meets .coherent ↔ m.Coherent :=
  forall₄_congr fun _ _ x _ => x.meets_coherent

/-- Copies never diverge: a request of any kind, carried out, refused or faulty, leaves a coherent
module coherent. -/
theorem Module.coherent_afterward {m : Module} (h : m.Coherent) (r : Request) (limit : Nat) :
    (m.afterward r limit).Coherent :=
  (Module.meets_coherent _).1
    (Module.meets_afterward Invariant.stable_coherent (m.meets_coherent.2 h) r limit)

/-- The chain `a < b <= c`, in step, as the value of an assignment. -/
def Update.chained : Update :=
  .make [⟨.name "x", .token 4, .bool⟩]
    [⟨.chain (Chain.rebuild ⟨[⟨.name "a", .token 6, .int⟩, ⟨.name "b", .token 8, .int⟩,
      ⟨.name "c", .token 10, .int⟩], [.lt, .le], none⟩), ⟨6, 10, 7⟩, .bool⟩]

/-- A method that assigns a chain. -/
def Module.chained : Module :=
  ⟨"m", [.class
    { name := "C"
      span := .range 0 20
      members := [.method
        { name := "f"
          params := []
          span := .range 1 19
          body := some ⟨[⟨.update .chained, .range 4 11, false⟩], .range 3 18⟩ }] }]⟩

theorem Update.coherent_chained : Update.chained.Coherent := by
  have leaf : ∀ {n : String} {span : Span} {ty : Ty}, Expr.Coherent ⟨.name n, span, ty⟩ :=
    .ofParts (by simp) (by simp [ExprKind.parts])
  refine Update.coherent_make ?_ ?_
  · simp [leaf]
  · rintro e he
    obtain rfl := List.mem_singleton.1 he
    exact .rebuilt (by simp [leaf])

/-- The module with the chain is coherent. -/
theorem Module.coherent_chained : Module.chained.Coherent := by
  intro d hd
  obtain rfl := List.mem_singleton.1 hd
  intro m hm
  obtain rfl := List.mem_singleton.1 hm
  refine ⟨by simp [Contract.Coherent, Contract.clauses], ?_⟩
  rintro _ ⟨⟩
  exact ⟨Update.coherent_chained, trivial⟩

/-- A change inside a chain inside an assignment is copied twice. -/
theorem Module.chained_coherent_afterward :
    Module.chained.Coherent ∧
    ((Module.chained.mutate ⟨.anchor 8, .variableReplacement, some "d"⟩ 64).map fun x =>
      x.report.found) = .ok (some .assignment) ∧
    (Module.chained.afterward ⟨.anchor 8, .variableReplacement, some "d"⟩ 64).Coherent :=
  ⟨Module.coherent_chained, by rfl, Module.coherent_afterward Module.coherent_chained _ _⟩

end Mutation
