import Mutation.Proofs.Invariant

/-!
# Mutants stay well-formed

A module is well-formed when every assignment has a value for each target, or one value for all
of them, every declaration introduces a local and initializes exactly its locals, every `else`
branch is a block or an `if`, and every chain has one operand more than operators. Trees that are
not well-formed can be built and read, so this is a property of modules and not of the types.

All of it passes from parts to what the program builds of them: a reduced chain keeps its
operands, what is left of a declaration or an assignment is left in whole pairs, and a deleted
link of an `else if` chain is replaced by what stood behind it, which was a branch already. So
well-formedness is a stable invariant, and mutants of well-formed modules are well-formed
(`Module.wellFormed_afterward`).
-/

namespace Mutation

/-- Every chain of the expression has one operand more than operators; with `copies`, so has every
chain in the conjunctions that chains keep. -/
inductive Expr.WellFormed (copies : Bool) : Expr → Prop
  | mk {kind : ExprKind} {span : Span} {ty : Ty}
    (parts : ∀ e ∈ kind.parts, Expr.WellFormed copies e)
    (chain : ∀ c, kind = .chain c → c.operands.length = c.ops.length + 1)
    (copy : copies → ∀ c e, kind = .chain c → c.resolved = some e → Expr.WellFormed copies e) :
    Expr.WellFormed copies ⟨kind, span, ty⟩

/-- The assignment has as many values as targets, at least one, or one value. With `copies` the
expressions in its resolved copy are well-formed too. -/
structure Update.WellFormed (copies : Bool) (u : Update) : Prop where
  targets : ∀ e ∈ u.targets, e.WellFormed copies
  values : ∀ e ∈ u.values, e.WellFormed copies
  balanced : u.values.length = u.targets.length ∧ 0 < u.targets.length ∨ u.values.length = 1
  copy : copies → ∀ a ∈ u.resolved, a.target.WellFormed copies ∧ a.value.WellFormed copies

/-- The declaration introduces a local, and an initializer assigns to exactly its locals, in
order. -/
structure VarDecl.WellFormed (copies : Bool) (d : VarDecl) : Prop where
  locals : d.locals ≠ []
  init : ∀ u ∈ d.init, u.WellFormed copies
  targets : ∀ u ∈ d.init, u.targets.map Expr.name? = d.locals.map fun v => some v.name

/-- What is asked of a well-formed tree. -/
def Invariant.wellFormed (copies : Bool) : Invariant where
  expr := Expr.WellFormed copies
  update := Update.WellFormed copies
  decl := VarDecl.WellFormed copies
  branches := True

/-- Everything in the module is well-formed, specifications and ghost code included, and with
`copies` also the copies that chains and assignments keep. -/
def Module.WellFormed (copies : Bool) (m : Module) : Prop := m.Meets (.wellFormed copies)

variable {copies : Bool}

theorem Expr.WellFormed.parts {kind : ExprKind} {span : Span} {ty : Ty}
    (h : WellFormed copies ⟨kind, span, ty⟩) : ∀ e ∈ kind.parts, e.WellFormed copies := by
  cases h with
  | mk parts _ _ => exact parts

theorem Expr.WellFormed.operands {c : Chain} {span : Span} {ty : Ty}
    (h : WellFormed copies ⟨.chain c, span, ty⟩) : c.operands.length = c.ops.length + 1 := by
  cases h with
  | mk _ chain _ => exact chain c rfl

theorem Expr.WellFormed.ofParts {kind : ExprKind} {span : Span} {ty : Ty}
    (chain : ∀ c, kind ≠ .chain c) (parts : ∀ e ∈ kind.parts, e.WellFormed copies) :
    WellFormed copies ⟨kind, span, ty⟩ :=
  .mk parts (fun c hc => absurd hc (chain c)) fun _ c _ hc => absurd hc (chain c)

theorem Expr.WellFormed.resync {kind : ExprKind} {span : Span} {ty : Ty} {es : List Expr}
    (h : WellFormed copies ⟨kind, span, ty⟩) (len : es.length = kind.parts.length)
    (parts : ∀ e ∈ es, e.WellFormed copies) :
    WellFormed copies ⟨(kind.withParts es).resync, span, ty⟩ := by
  by_cases chain : ∃ c, kind = .chain c
  · obtain ⟨c, rfl⟩ := chain
    refine .mk parts ?_ ?_
    · rintro _ ⟨⟩
      exact len.trans h.operands
    · rintro - _ e ⟨⟩ copied
      have binary : ∀ op a b span, a.WellFormed copies → b.WellFormed copies →
          WellFormed copies ⟨.binary op a b, span, .bool⟩ :=
        fun op a b span ha hb => .ofParts (by simp) (by simp [ExprKind.parts, ha, hb])
      exact Chain.rebuild_resolved binary parts copied
  · have plain := fun c hc => chain ⟨c, hc⟩
    rw [ExprKind.resync_withParts plain]
    refine .ofParts (ExprKind.withParts_ne_chain plain es) ?_
    rwa [ExprKind.parts_withParts len]

/-- An assignment that has just been made is well-formed when its parts are and it is balanced. -/
theorem Update.WellFormed.make {targets values : List Expr}
    (ht : ∀ e ∈ targets, e.WellFormed copies) (hv : ∀ e ∈ values, e.WellFormed copies)
    (balanced : values.length = targets.length ∧ 0 < targets.length ∨ values.length = 1) :
    (Update.make targets values).WellFormed copies where
  targets := ht
  values := hv
  balanced := balanced
  copy := by
    intro _ a ha
    obtain ⟨target, value⟩ := Update.mem_resolved_make ha
    exact ⟨ht _ target, hv _ value⟩

/-- The targets of an initializer are the names of the locals, one by one. -/
theorem VarDecl.WellFormed.name_eq {locals : List Variable} {u : Update} {v : Variable} {t : Expr}
    (h : VarDecl.WellFormed copies ⟨locals, some u⟩) (paired : (v, t) ∈ locals.zip u.targets) :
    t.name? = some v.name := by
  obtain ⟨i, hi, same⟩ := List.getElem_of_mem paired
  simp only [List.getElem_zip, Prod.mk.injEq] at same
  obtain ⟨rfl, rfl⟩ := same
  simp only [List.length_zip, Nat.lt_min] at hi
  have names := congrArg (fun l => l[i]?) (h.targets u rfl)
  simpa [List.getElem?_eq_getElem hi.1, List.getElem?_eq_getElem hi.2] using names

theorem Invariant.stable_wellFormed : (Invariant.wellFormed copies).Stable where
  parts h := h.parts
  plain chain parts := .ofParts chain parts
  resync h len parts := h.resync len parts
  targets h := h.targets
  values h := h.values
  reassign h targets values ht hv := .make ht hv (by rw [targets, values]; exact h.balanced)
  pairs := by
    intro pairs some h
    refine .make (fun e he => ?_) (fun e he => ?_) (.inl ⟨by simp, ?_⟩)
    · obtain ⟨x, hx, rfl⟩ := List.mem_map.1 he
      exact (h x hx).1
    · obtain ⟨x, hx, rfl⟩ := List.mem_map.1 he
      exact (h x hx).2
    · rw [List.length_map]
      exact List.length_pos_of_ne_nil some
  initial h := (h.init _ rfl).values
  reinit := by
    intro locals u values h len hv
    refine ⟨h.locals, ?_, ?_⟩
    · rintro _ ⟨⟩
      exact .make (h.init u rfl).targets hv (by rw [len]; exact (h.init u rfl).balanced)
    · rintro _ ⟨⟩
      exact h.targets u rfl
  left := by
    intro locals u left h some each
    refine ⟨by simpa using some, ?_, ?_⟩
    · rintro _ ⟨⟩
      refine .make (fun e he => ?_) (fun e he => ?_) (.inl ⟨by simp, ?_⟩)
      · obtain ⟨x, hx, rfl⟩ := List.mem_map.1 he
        exact (h.init u rfl).targets _ (List.of_mem_zip (each x hx).1).2
      · obtain ⟨x, hx, rfl⟩ := List.mem_map.1 he
        exact (each x hx).2
      · rw [List.length_map]
        exact List.length_pos_of_ne_nil some
    · rintro _ ⟨⟩
      simp only [Update.make, Update.sync, List.map_map]
      exact List.map_congr_left fun x hx => h.name_eq (each x hx).1
  unset h some := ⟨some, nofun, nofun⟩

/-- Mutants stay structurally valid: a request of any kind, carried out, refused or faulty, leaves
a well-formed module well-formed. -/
theorem Module.wellFormed_afterward {m : Module} (h : m.WellFormed copies) (r : Request)
    (limit : Nat) : (m.afterward r limit).WellFormed copies :=
  Module.meets_afterward Invariant.stable_wellFormed h r limit

/-- Two locals declared and assigned together, and a chained comparison in front of an `else if`
that depends on one of them. -/
def Stmt.paired : List Stmt :=
  let name (n : String) (p : Pos) : Expr := ⟨.name n, .token p, .int⟩
  let chain := Chain.rebuild ⟨[name "a" 14, name "b" 16, name "c" 18], [.lt, .le], none⟩
  [⟨.varDecl (.withInit [⟨"x", .int, .token 4, false⟩, ⟨"y", .int, .token 5, false⟩]
      [name "a" 6, name "b" 7]), .range 4 8, false⟩,
    ⟨.update (.make [name "x" 9, name "y" 10] [name "y" 11, name "c" 12]), .range 9 13, false⟩,
    ⟨.ifElse (some ⟨.chain chain, ⟨14, 18, 15⟩, .bool⟩) ⟨[], .range 20 21⟩
      (some ⟨.ifElse (some (name "x" 23)) ⟨[], .range 24 25⟩ none, .range 22 26, false⟩),
      .range 14 27, false⟩]

/-- A method with these statements. -/
def Module.paired : Module :=
  ⟨"m", [.class
    { name := "C"
      span := .range 0 40
      members := [.method
        { name := "f", params := [], span := .range 1 39, body := some ⟨Stmt.paired, .range 3 38⟩ }] }]⟩

theorem Expr.wellFormed_name {n : String} {span : Span} {ty : Ty} :
    WellFormed copies ⟨.name n, span, ty⟩ :=
  .ofParts (by simp) (by simp [ExprKind.parts])

theorem Module.paired_wellFormed : paired.WellFormed true := by
  intro d hd
  obtain rfl := List.mem_singleton.1 hd
  intro m hm
  obtain rfl := List.mem_singleton.1 hm
  refine ⟨by simp [Contract.Meets, Contract.clauses], ?_⟩
  rintro _ ⟨⟩
  refine ⟨⟨nofun, ?_, ?_⟩, ?_, ⟨?_, trivial, fun _ => rfl, ?_, trivial, trivial⟩, trivial⟩
  · rintro _ ⟨⟩
    exact .make (by simp [Variable.ref, Expr.wellFormed_name]) (by simp [Expr.wellFormed_name])
      (.inl ⟨rfl, by decide⟩)
  · rintro _ ⟨⟩
    rfl
  · exact Update.WellFormed.make (by simp [Expr.wellFormed_name]) (by simp [Expr.wellFormed_name])
      (.inl ⟨rfl, by decide⟩)
  · rintro _ ⟨⟩
    have operands : ∀ e ∈ (Chain.mk [⟨.name "a", .token 14, .int⟩, ⟨.name "b", .token 16, .int⟩,
        ⟨.name "c", .token 18, .int⟩] [.lt, .le] none).operands, e.WellFormed true := by
      simp [Expr.wellFormed_name]
    have bare : Expr.WellFormed true ⟨.chain _, ⟨14, 18, 15⟩, .bool⟩ :=
      .mk operands (by rintro _ ⟨⟩; rfl) (by rintro - _ _ ⟨⟩ ⟨⟩)
    exact bare.resync rfl operands
  · rintro _ ⟨⟩
    exact Expr.wellFormed_name

/-- With the local `x` go its halves of the declaration and of the assignment, and the link that
reads it. -/
theorem Module.paired_wellFormed_afterward :
    paired.WellFormed true ∧
    ((paired.mutate ⟨.range 4 8, .variableDeletion, some "x"⟩ 64).map fun x =>
      x.report.isApplied) = .ok true ∧
    (paired.afterward ⟨.range 4 8, .variableDeletion, some "x"⟩ 64).WellFormed true :=
  ⟨paired_wellFormed, by rfl, Module.wellFormed_afterward paired_wellFormed _ _⟩

end Mutation
