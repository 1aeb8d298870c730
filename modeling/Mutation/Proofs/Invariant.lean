import Mathlib.Data.List.InsertIdx
import Mutation.Proofs.Reduction
import Mutation.Proofs.Replacement
import Mutation.Proofs.Settling

/-!
# Invariants of trees

An `Invariant` says what is asked of expressions, of assignments and of declarations, and whether
`else` branches are asked to be blocks or `if`s. A tree meets it when all that is in the tree does,
specifications and ghost code included (`Stmt.Meets`, `Module.Meets`).

An invariant is `Stable` when it passes from parts to what the program builds of them: the same
shape with other parts, an expression other than a chain, an assignment of as many values to as
many targets, the pairs that are left of an assignment or of a declaration. Nothing else is ever
built, so every operator keeps a stable invariant at its place, and a request of any kind leaves
a module that meets it with a module that meets it (`Module.meets_afterward`). The least to ask is
that `else` branches are blocks or `if`s (`Module.Branched`).
-/

namespace Mutation

/-- The statement is a block or an `if`, as an `else` branch is to be. -/
def Stmt.isBranch (s : Stmt) : Bool :=
  match s.kind with
  | .block _ | .ifElse .. => true
  | _ => false

/-- What is asked of a tree. -/
structure Invariant where
  /-- Asked of each expression that stands for itself, with all its parts. -/
  expr : Expr → Prop
  /-- Asked of each assignment, with the expressions in it. -/
  update : Update → Prop
  /-- Asked of each declaration, with the expressions in it. -/
  decl : VarDecl → Prop
  /-- An `else` branch is to be a block or an `if`. -/
  branches : Prop

section

variable (I : Invariant)

mutual
/-- Everything in the statement is as the invariant asks. -/
def Stmt.Meets : Stmt → Prop
  | ⟨kind, _, _⟩ => kind.Meets

def StmtKind.Meets : StmtKind → Prop
  | .varDecl d => I.decl d
  | .update u => I.update u
  | .expr e => I.expr e
  | .ret values => ∀ e ∈ values, I.expr e
  | .ifElse guard thenBranch elseBranch =>
    (∀ e ∈ guard, I.expr e) ∧ thenBranch.Meets ∧ Stmt.MeetsElse elseBranch
  | .whileLoop guard invariants decreases body =>
    (∀ e ∈ guard, I.expr e) ∧ (∀ e ∈ invariants, I.expr e) ∧ (∀ e ∈ decreases, I.expr e) ∧
      body.Meets
  | .forLoop _ start stop _ invariants body =>
    I.expr start ∧ (∀ e ∈ stop, I.expr e) ∧ (∀ e ∈ invariants, I.expr e) ∧ body.Meets
  | .breakLoop => True
  | .continueLoop => True
  | .block b => b.Meets
  | .matchOn source cases => I.expr source ∧ MatchCase.MeetsList cases
  | .assert e => I.expr e
  | .assume e => I.expr e
  | .print args => ∀ e ∈ args, I.expr e

def Block.Meets : Block → Prop
  | ⟨list, _⟩ => Stmt.MeetsList list

def Stmt.MeetsList : List Stmt → Prop
  | [] => True
  | s :: list => s.Meets ∧ Stmt.MeetsList list

/-- An `else` branch, with everything in it, is as the invariant asks. -/
def Stmt.MeetsElse : Option Stmt → Prop
  | none => True
  | some s => (I.branches → s.isBranch) ∧ s.Meets

def MatchCase.MeetsList : List MatchCase → Prop
  | [] => True
  | ⟨_, body, _⟩ :: cases => Stmt.MeetsList body ∧ MatchCase.MeetsList cases
end

/-- Every clause of the contract is as the invariant asks. -/
def Contract.Meets (c : Contract) : Prop := ∀ clause ∈ c.clauses, ∀ e ∈ clause, I.expr e

/-- Everything in the member is as the invariant asks. -/
def Member.Meets : Member → Prop
  | .field _ => True
  | .method m => m.contract.Meets I ∧ ∀ b ∈ m.body, b.Meets I
  | .function f => f.contract.Meets I ∧ ∀ e ∈ f.body, I.expr e

/-- Everything in the module is as the invariant asks. -/
def Module.Meets (m : Module) : Prop := ∀ d ∈ m.decls, ∀ x ∈ d.members, x.Meets I

/-- Everything in the piece is as the invariant asks. -/
def Piece.Meets : Piece → Prop
  | .expr e => I.expr e
  | .stmt s => s.Meets I
  | .stmts list => Stmt.MeetsList I list
  | .member m => m.Meets I
  | .members list => ∀ m ∈ list, m.Meets I
  | .decl d => ∀ m ∈ d.members, m.Meets I
  | .module m => m.Meets I

/-- The invariant passes from parts to what the program builds of them. -/
structure Invariant.Stable : Prop where
  parts {kind span ty} : I.expr ⟨kind, span, ty⟩ → ∀ e ∈ kind.parts, I.expr e
  /-- Any expression other than a chain. -/
  plain {kind span ty} : (∀ c, kind ≠ .chain c) → (∀ e ∈ kind.parts, I.expr e) →
    I.expr ⟨kind, span, ty⟩
  /-- The same shape with other parts, in step. -/
  resync {kind span ty} {es : List Expr} : I.expr ⟨kind, span, ty⟩ →
    es.length = kind.parts.length → (∀ e ∈ es, I.expr e) →
    I.expr ⟨(kind.withParts es).resync, span, ty⟩
  targets {u} : I.update u → ∀ e ∈ u.targets, I.expr e
  values {u} : I.update u → ∀ e ∈ u.values, I.expr e
  /-- As many targets and as many values as before. -/
  reassign {u} {targets values : List Expr} : I.update u → targets.length = u.targets.length →
    values.length = u.values.length → (∀ e ∈ targets, I.expr e) → (∀ e ∈ values, I.expr e) →
    I.update (.make targets values)
  /-- A value for each target, of which there is one. -/
  pairs {pairs : List (Expr × Expr)} : pairs ≠ [] → (∀ x ∈ pairs, I.expr x.1 ∧ I.expr x.2) →
    I.update (.make (pairs.map (·.1)) (pairs.map (·.2)))
  initial {locals u} : I.decl ⟨locals, some u⟩ → ∀ e ∈ u.values, I.expr e
  /-- As many values as before, for the same targets. -/
  reinit {locals u} {values : List Expr} : I.decl ⟨locals, some u⟩ →
    values.length = u.values.length → (∀ e ∈ values, I.expr e) →
    I.decl ⟨locals, some (.make u.targets values)⟩
  /-- A value for each local, of which there is one, and the targets that the locals had. -/
  left {locals u} {left : List (Variable × Expr × Expr)} : I.decl ⟨locals, some u⟩ → left ≠ [] →
    (∀ x ∈ left, (x.1, x.2.1) ∈ locals.zip u.targets ∧ I.expr x.2.2) →
    I.decl ⟨left.map (·.1), some (.make (left.map (·.2.1)) (left.map (·.2.2)))⟩
  /-- Some locals without values. -/
  unset {locals left} : I.decl ⟨locals, none⟩ → left ≠ [] → I.decl ⟨left, none⟩

end

variable {I : Invariant}

/-- A list meets an invariant when each of its statements does. -/
theorem Stmt.meetsList_iff {list : List Stmt} :
    Stmt.MeetsList I list ↔ ∀ s ∈ list, s.Meets I := by
  induction list with
  | nil => simp [Stmt.MeetsList]
  | cons s list ih => simp [Stmt.MeetsList, ih]

/-- A list put together meets an invariant when its two parts do. -/
theorem Stmt.meetsList_append {list list' : List Stmt} :
    Stmt.MeetsList I (list ++ list') ↔ Stmt.MeetsList I list ∧ Stmt.MeetsList I list' := by
  simp only [Stmt.meetsList_iff, List.mem_append, or_imp, forall_and]

/-- The cases of a match meet an invariant when their bodies do. -/
theorem MatchCase.meetsList_iff {cases : List MatchCase} :
    MatchCase.MeetsList I cases ↔ ∀ c ∈ cases, Stmt.MeetsList I c.body := by
  induction cases with
  | nil => simp [MatchCase.MeetsList]
  | cons c cases ih =>
    obtain ⟨pattern, body, span⟩ := c
    simp [MatchCase.MeetsList, ih]

/-- A property of all members survives the exchange of one for another that has it. -/
theorem forall_mem_exchanged {α : Type} {P : α → Prop} {pre post : List α} {a a' : α}
    (h : ∀ x ∈ pre ++ a :: post, P x) (ha : P a') : ∀ x ∈ pre ++ a' :: post, P x := by
  simp only [List.mem_append, List.mem_cons] at h ⊢
  rintro x (hx | rfl | hx)
  · exact h x (.inl hx)
  · exact ha
  · exact h x (.inr (.inr hx))

/-- The first two of three lists zipped together are zipped. -/
theorem mem_zip_of_mem_zip {α β γ : Type} {as : List α} {bs : List β} {cs : List γ} {a : α} {b : β}
    {c : γ} (h : (a, b, c) ∈ as.zip (bs.zip cs)) : (a, b) ∈ as.zip bs := by
  obtain ⟨i, hi, same⟩ := List.getElem_of_mem h
  simp only [List.getElem_zip, Prod.mk.injEq] at same
  obtain ⟨rfl, rfl, -⟩ := same
  simp only [List.length_zip] at hi
  exact List.mem_iff_getElem.2 ⟨i, by simp only [List.length_zip]; omega, List.getElem_zip⟩

/-- An exchange inside a statement leaves the head of the statement. -/
theorem Carries.isBranch {spans : List Span} {c c' : Piece} {s s' : Stmt}
    (hc : Carries spans c c' (.stmt s) (.stmt s')) : s'.isBranch = s.isBranch := by
  cases hc <;> rfl

/-- What is left of a statement has its head. -/
theorem Stmt.isBranch_purged {inner : ListPurge} {dead : String} {s s' : Stmt} {p : Purge}
    (h : (s.purge inner dead p).rest = some s') (hs : s.isBranch) : s'.isBranch := by
  obtain ⟨kind, span, ghost⟩ := s
  obtain ⟨kind', hk, rfl⟩ := Option.map_eq_some_iff.1 h
  cases kind with
  | ifElse guard thenBranch elseBranch =>
    simp only [StmtKind.purge, Reduction.purged] at hk
    split at hk <;> cases hk
    rfl
  | block b =>
    cases hk
    rfl
  | _ => cases hs

/-- A chain that lost a link below its head still starts with an `if`, so it is a branch. -/
theorem Stmt.isBranch_unlinked {target : Location} {s s' : Stmt}
    (h : s.unlink? target = some s') : s'.isBranch := by
  obtain ⟨kind, span, ghost⟩ := s
  cases kind with
  | ifElse guard thenBranch next =>
    obtain ⟨next', -, rfl⟩ := Option.map_eq_some_iff.1 h
    rfl
  | _ => simp [Stmt.unlink?] at h

/-! ### Statements that are moved -/

/-- A block put in place of a statement brings statements that met the invariant. -/
theorem Block.Meets.inPlace {b : Block} {span : Span} {s : Stmt} (h : b.Meets I) :
    Stmt.MeetsList I ((b.inPlace span).edit.result s) := by
  obtain ⟨list, area⟩ := b
  unfold Block.inPlace
  split
  · exact ⟨h, trivial⟩
  · exact h

/-- A branch taken out of its chain meets, as an element, what it met as a branch. -/
theorem Stmt.Meets.asElement {branch s : Stmt} (h : branch.Meets I) :
    Stmt.MeetsList I (branch.asElement.edit.result s) := by
  obtain ⟨kind, span, ghost⟩ := branch
  cases kind with
  | block b => exact Block.Meets.inPlace h
  | _ => exact ⟨h, trivial⟩

/-- A deleted statement leaves nothing behind. -/
theorem Stmt.meets_delete {s : Stmt} {change : Change} (h : s.delete = .done change) :
    Stmt.MeetsList I (change.edit.result s) := by
  unfold Stmt.delete at h
  split at h <;> cases h
  trivial

/-- A `break` at the end of a body has no expression, so any body can take one. -/
theorem Block.Meets.breaking {b : Block} (h : b.Meets I) : (Stmt.breaking b).Meets I := by
  obtain ⟨list, area⟩ := b
  exact ⟨trivial, h⟩

/-- A loop with a `break` added meets what the loop met. -/
theorem Stmt.Meets.insertBreak {s : Stmt} {change : Change} (hs : s.Meets I)
    (h : s.insertBreak = .done change) : Stmt.MeetsList I (change.edit.result s) := by
  obtain ⟨kind, span, ghost⟩ := s
  cases kind with
  | whileLoop guard invariants decreases body =>
    cases h
    exact ⟨⟨hs.1, hs.2.1, hs.2.2.1, hs.2.2.2.breaking⟩, trivial⟩
  | forLoop index start stop ascending invariants body =>
    cases h
    exact ⟨⟨hs.1, hs.2.1, hs.2.2.1, hs.2.2.2.breaking⟩, trivial⟩
  | _ => cases h

/-- The branch that is kept was part of a statement that met the invariant. -/
theorem Stmt.Meets.keepBranch {branch : Branch} {s : Stmt} {change : Change} (hs : s.Meets I)
    (h : s.keepBranch branch = .done change) : Stmt.MeetsList I (change.edit.result s) := by
  obtain ⟨kind, span, ghost⟩ := s
  cases kind with
  | ifElse guard thenBranch elseBranch =>
    cases branch with
    | thenBranch =>
      cases h
      exact hs.2.1.inPlace
    | elseBranch =>
      cases elseBranch with
      | none => cases h
      | some next =>
        cases h
        exact hs.2.2.2.asElement
  | _ => cases branch <;> cases h

theorem Stmt.Meets.elseBranch {s : Stmt} (hs : s.Meets I) : Stmt.MeetsElse I s.elseBranch? := by
  obtain ⟨kind, span, ghost⟩ := s
  cases kind with
  | ifElse guard thenBranch elseBranch => exact hs.2.2
  | _ => trivial

mutual
/-- A chain without one of its links meets what the chain met. -/
theorem Stmt.Meets.unlink {target : Location} : (s : Stmt) → s.Meets I → ∀ t,
    s.unlink? target = some t → t.Meets I
  | ⟨.ifElse guard thenBranch next, span, ghost⟩, hs, t, h => by
    simp only [Stmt.unlink?, Option.map_eq_some_iff] at h
    obtain ⟨next', below, rfl⟩ := h
    exact ⟨hs.1, hs.2.1, Stmt.Meets.unlinkBelow next hs.2.2 next' below⟩
  | ⟨.varDecl _, _, _⟩, _, _, h | ⟨.update _, _, _⟩, _, _, h | ⟨.expr _, _, _⟩, _, _, h
  | ⟨.ret _, _, _⟩, _, _, h | ⟨.whileLoop .., _, _⟩, _, _, h | ⟨.forLoop .., _, _⟩, _, _, h
  | ⟨.breakLoop, _, _⟩, _, _, h | ⟨.continueLoop, _, _⟩, _, _, h | ⟨.block _, _, _⟩, _, _, h
  | ⟨.matchOn .., _, _⟩, _, _, h | ⟨.assert _, _, _⟩, _, _, h | ⟨.assume _, _, _⟩, _, _, h
  | ⟨.print _, _, _⟩, _, _, h => by simp [Stmt.unlink?] at h

/-- The same below the head, link by link. -/
theorem Stmt.Meets.unlinkBelow {target : Location} : (s : Option Stmt) → Stmt.MeetsElse I s → ∀ t,
    Stmt.unlinkBelow? target s = some t → Stmt.MeetsElse I t
  | none, _, _, h => by simp [Stmt.unlinkBelow?] at h
  | some branch, hs, t, h => by
    simp only [Stmt.unlinkBelow?] at h
    split at h
    · cases h
    · split at h
      · cases h
        exact hs.2.elseBranch
      · obtain ⟨branch', below, rfl⟩ := Option.map_eq_some_iff.1 h
        exact ⟨fun _ => Stmt.isBranch_unlinked below, Stmt.Meets.unlink branch hs.2 branch' below⟩
end

/-- All three ways a branch goes keep the invariant: the head, a link, the last `else`. -/
theorem Stmt.Meets.deleteBranch {target : Location} {s : Stmt} {change : Change} (hs : s.Meets I)
    (h : s.deleteBranch target = .done change) : Stmt.MeetsList I (change.edit.result s) := by
  unfold Stmt.deleteBranch at h
  split at h
  · split at h
    · have next := hs.elseBranch
      split at h <;> cases h
      · simp only [*] at next
        exact next.2.asElement
      · trivial
    · split at h
      case h_2 => cases h
      case h_1 t unlinked =>
        cases h
        exact ⟨Stmt.Meets.unlink s hs t unlinked, trivial⟩
  · cases h

/-- Bodies that change places were bodies before. -/
theorem Stmt.Meets.exchangeDefault {ctor : String} {s : Stmt} {change : Change} (hs : s.Meets I)
    (h : s.exchangeDefault ctor = .done change) : Stmt.MeetsList I (change.edit.result s) := by
  obtain ⟨source, cases, _, _, named, default, shape, -, -, hn, hd, -, -, rfl⟩ :=
    Stmt.exchangeDefault_done h
  obtain ⟨kind, span, ghost⟩ := s
  cases shape
  have bodies := MatchCase.meetsList_iff.1 hs.2
  refine ⟨⟨hs.1, MatchCase.meetsList_iff.2 fun c hc => ?_⟩, trivial⟩
  obtain ⟨k, hk, rfl⟩ := List.getElem_of_mem hc
  rw [List.getElem_mapIdx]
  dsimp only
  split
  · exact bodies _ (List.mem_of_getElem? hn)
  · exact bodies _ (List.mem_of_getElem? hd)

/-- The body that is kept was the body of a case. -/
theorem Stmt.Meets.keepCase {index : Nat} {s : Stmt} {change : Change} (hs : s.Meets I)
    (h : s.keepCase index = .done change) : Stmt.MeetsList I (change.edit.result s) := by
  obtain ⟨kind, span, ghost⟩ := s
  cases kind with
  | matchOn source cases =>
    have bodies := MatchCase.meetsList_iff.1 hs.2
    simp only [Stmt.keepCase] at h
    split at h
    case h_1 => cases h
    case h_2 c found =>
      split at h <;> cases h
      exact Block.Meets.inPlace (b := ⟨c.body, c.span⟩) (bodies c (List.mem_of_getElem? found))
  | _ => cases h

/-! ### Lists that are purged -/

/-- A purge of lists keeps the invariant. -/
def Invariant.Survives (I : Invariant) (purge : ListPurge) : Prop :=
  ∀ list p, Stmt.MeetsList I list → Stmt.MeetsList I (purge list p).1

/-- A purged block meets the invariant when purges of lists keep it. -/
theorem Block.Meets.purge {inner : ListPurge} {b : Block} {p : Purge} (hb : b.Meets I)
    (hi : I.Survives inner) : (b.purge inner p).1.Meets I := by
  obtain ⟨list, span⟩ := b
  exact hi list p hb

/-- The bodies of purged cases meet the invariant when purges of lists keep it. -/
theorem MatchCase.meets_purgeList {inner : ListPurge} {dead : String} {cases : List MatchCase}
    {p : Purge} (hc : MatchCase.MeetsList I cases) (hi : I.Survives inner) :
    MatchCase.MeetsList I (MatchCase.purgeList inner dead cases p).1 := by
  induction cases generalizing p with
  | nil => trivial
  | cons c cases ih =>
    obtain ⟨pattern, body, span⟩ := c
    simp only [MatchCase.purgeList]
    refine ⟨?_, ih hc.2⟩
    split
    · exact hc.1
    · exact hi _ _ hc.1

/-- What stays of a list was in the list. -/
theorem Expr.forall_without {dead : String} {es : List Expr} {P : Expr → Prop} (h : ∀ e ∈ es, P e) :
    ∀ e ∈ Expr.without dead es, P e :=
  fun e he => h e (List.mem_of_mem_filter he)

/-- Following the locals that fell is purging the list again, once for each. -/
theorem Invariant.Survives.adopt (limit depth : Nat) {purge : String → Nat → ListPurge}
    (hp : ∀ name depth, I.Survives (purge name depth)) (orphans : List Orphan) :
    I.Survives (Purge.adopt limit purge depth orphans) := by
  induction orphans with
  | nil => exact fun list p h => h
  | cons orphan orphans ih =>
    intro list p h
    simp only [Purge.adopt]
    split
    · exact h
    · split
      · exact ih list p h
      · exact ih _ _ (hp _ _ _ _ h)

namespace Invariant.Stable

/-! ### Exchanging a part -/

/-- What a piece holds meets an invariant that the piece meets. -/
theorem inside (hI : I.Stable) {spans : List Span} {c c' x x' : Piece}
    (hc : Carries spans c c' x x') (hx : x.Meets I) : c.Meets I := by
  cases hc with
  | part _ h => exact hI.parts hx _ (by simp [h])
  | target _ => exact hI.targets hx _ (by simp)
  | value => exact hI.values hx _ (by simp)
  | init => exact hI.initial hx _ (by simp)
  | expr | assert | assume => exact hx
  | ret | print => exact hx _ (by simp)
  | ifGuard | whileGuard => exact hx.1 _ rfl
  | thenBranch => exact hx.2.1
  | elseBranch => exact hx.2.2.2
  | whileBody | forBody => exact hx.2.2.2
  | forStart | matchSource => exact hx.1
  | forStop => exact hx.2.1 _ rfl
  | block => exact hx
  | caseBody =>
    exact MatchCase.meetsList_iff.1 hx.2 _ (List.mem_append_right _ List.mem_cons_self)
  | element => exact Stmt.meetsList_iff.1 hx _ (by simp)
  | methodBody h => exact hx.2 _ h
  | functionBody h => exact hx.2 _ h
  | member => exact hx _ (by simp)
  | «class» | datatype => exact hx
  | decl => exact hx _ (by simp)

/-- A piece that meets the invariant meets it when a part of it is exchanged for one that does. An
`else` branch is to be a branch again. -/
theorem carries (hI : I.Stable) {spans : List Span} {c c' x x' : Piece}
    (hc : Carries spans c c' x x') (hx : x.Meets I) (hc' : c'.Meets I)
    (branch : ∀ s s', c = .stmt s → c' = .stmt s' → s.isBranch → s'.isBranch) : x'.Meets I := by
  cases hc with
  | part _ h =>
    have parts := hI.parts hx
    rw [h] at parts
    exact hI.resync hx (by simp [h]) (forall_mem_exchanged parts hc')
  | target _ =>
    exact hI.reassign hx (by simp) rfl (forall_mem_exchanged (hI.targets hx) hc') (hI.values hx)
  | value =>
    exact hI.reassign hx rfl (by simp) (hI.targets hx) (forall_mem_exchanged (hI.values hx) hc')
  | init => exact hI.reinit hx (by simp) (forall_mem_exchanged (hI.initial hx) hc')
  | expr | assert | assume | block => exact hc'
  | ret | print => exact forall_mem_exchanged hx hc'
  | ifGuard => exact ⟨by rintro _ ⟨⟩; exact hc', hx.2⟩
  | whileGuard => exact ⟨by rintro _ ⟨⟩; exact hc', hx.2⟩
  | thenBranch => exact ⟨hx.1, hc', hx.2.2⟩
  | elseBranch =>
    exact ⟨hx.1, hx.2.1, fun asked => branch _ _ rfl rfl (hx.2.2.1 asked), hc'⟩
  | whileBody | forBody => exact ⟨hx.1, hx.2.1, hx.2.2.1, hc'⟩
  | forStart | matchSource => exact ⟨hc', hx.2⟩
  | forStop => exact ⟨hx.1, by rintro _ ⟨⟩; exact hc', hx.2.2⟩
  | caseBody =>
    refine ⟨hx.1, MatchCase.meetsList_iff.2 ?_⟩
    exact forall_mem_exchanged (MatchCase.meetsList_iff.1 hx.2) hc'
  | element => exact Stmt.meetsList_iff.2 (forall_mem_exchanged (Stmt.meetsList_iff.1 hx) hc')
  | methodBody h => exact ⟨hx.1, by rintro _ ⟨⟩; exact hc'⟩
  | functionBody h => exact ⟨hx.1, by rintro _ ⟨⟩; exact hc'⟩
  | member => exact forall_mem_exchanged hx hc'
  | «class» | datatype => exact hc'
  | decl => exact forall_mem_exchanged hx hc'

/-! ### Operators on expressions -/

/-- An expression made from one that met the invariant meets it. -/
theorem madeFrom (hI : I.Stable) {e e' : Expr} (h : I.expr e) (made : e.MadeFrom e') :
    I.expr e' := by
  obtain ⟨kind, span, ty⟩ := e
  obtain ⟨kind', span', ty'⟩ := e'
  rcases made with part | ⟨chain, parts⟩
  · exact hI.parts h _ part
  · refine hI.plain chain fun c hc => ?_
    rcases parts c hc with rfl | part | leaf
    · exact h
    · exact hI.parts h c part
    · obtain ⟨k, s, t⟩ := c
      exact hI.plain leaf.1 (by simp [show k.parts = [] from leaf.2])

/-- A reduction step by step is made of forms the invariant is stable under. -/
theorem reduces (hI : I.Stable) {dead : String} {e e' : Expr} (h : Reduces dead e e')
    (he : I.expr e) : I.expr e' := by
  induction h with
  | @keep kind span ty es name length parts ih =>
    refine hI.resync he length fun b hb => ?_
    obtain ⟨i, hi, rfl⟩ := List.getElem_of_mem hb
    have bound : i < kind.parts.length := length ▸ hi
    exact ih i kind.parts[i] es[i] (by simp [bound]) (by simp) (hI.parts he _ (List.getElem_mem _))
  | left h ih => exact ih (hI.parts he _ (by simp [ExprKind.parts]))
  | right h ih => exact ih (hI.parts he _ (by simp [ExprKind.parts]))

/-- The same of a list, member by member. -/
theorem reducesAll (hI : I.Stable) {dead : String} {es es' : List Expr} (h : ReducesAll dead es es')
    (hes : ∀ e ∈ es, I.expr e) : ∀ e ∈ es', I.expr e := by
  intro e' he'
  obtain ⟨e, he, reduced⟩ := h.exists_of_mem he'
  exact hI.reduces reduced (hes e he)

/-- The same of an expression that may be absent. -/
theorem reduceOpt (hI : I.Stable) {dead : String} {e e' : Option Expr}
    (h : (Expr.reduceOpt dead e).rest = some e') (he : ∀ a ∈ e, I.expr a) :
    ∀ a ∈ e', I.expr a := by
  obtain ⟨-, rfl⟩ | ⟨a, a', rfl, rfl, reduced⟩ := Expr.reduces_opt h
  · simp
  · rintro _ ⟨⟩
    exact hI.reduces reduced (he a rfl)

/-! ### Operators on statements -/

/-- A return value read from its text is the old value with a literal in its place. -/
theorem returnValue (hI : I.Stable) {value value' : Expr} {text : String}
    (h : Stmt.returnValue? value text = some value') : I.expr value' := by
  simp only [Stmt.returnValue?, Option.bind_eq_bind, Option.bind_eq_some_iff] at h
  obtain ⟨default, -, literal, -, made⟩ := h
  cases made
  exact hI.plain (by simp) (by simp [ExprKind.parts])

/-- A `return` with new values meets the invariant, since each value does. -/
theorem setReturn (hI : I.Stable) {texts : List String} {s : Stmt} {change : Change}
    (h : s.setReturn texts = .done change) : Stmt.MeetsList I (change.edit.result s) := by
  obtain ⟨kind, span, ghost⟩ := s
  cases kind with
  | ret values =>
    obtain ⟨-, h⟩ := Outcome.if_refused_iff.1 h
    split at h
    case h_2 => cases h
    case h_1 values' mapped =>
      cases h
      refine ⟨fun e he => ?_, trivial⟩
      obtain ⟨x, -, hx⟩ := Expr.exists_of_mem_mapM mapped he
      exact hI.returnValue hx
  | _ => cases h

/-- What an operator puts in the place of a list element meets the invariant. -/
theorem onStmt (hI : I.Stable) {op : Operator} {site : Site} {s : Stmt} {change : Change}
    (hs : s.Meets I) (h : op.onStmt site s = .done change) :
    Stmt.MeetsList I (change.edit.result s) := by
  by_cases branch : op = .deleteBranch
  · subst branch
    exact hs.deleteBranch h
  · unfold Operator.onStmt at h
    split at h
    case h_1 => exact absurd rfl branch
    split at h
    · cases op with
      | deleteStmt => exact Stmt.meets_delete h
      | insertBreak => exact hs.insertBreak h
      | setReturn _ => exact hI.setReturn h
      | keepBranch _ => exact hs.keepBranch h
      | exchangeDefault _ => exact hs.exchangeDefault h
      | keepCase _ => exact hs.keepCase h
      | _ => cases h
    · cases h

/-! ### Deleting a variable -/

/-- A purged update has pairs it had, with what stays of their values. -/
theorem purgeUpdate (hI : I.Stable) {dead : String} {u u' : Update} {p : Purge} (hu : I.update u)
    (h : (u.purge dead p).rest = some u') : I.update u' := by
  simp only [Update.purge] at h
  split at h
  · split at h
    · cases h
    rename_i some
    cases h
    refine hI.pairs (fun none => some (by rw [none]; rfl)) fun x hx => ?_
    obtain ⟨-, old, ho, reduced⟩ := Update.mem_reducePairs hx
    exact ⟨hI.targets hu _ (List.of_mem_zip ho).1,
      hI.reduces reduced (hI.values hu _ (List.of_mem_zip ho).2)⟩
  · split at h <;> cases h
    exact hu

/-- A purged declaration has what stays of its value. -/
theorem purgeDecl (hI : I.Stable) {dead : String} {span : Span} {d d' : VarDecl} {p : Purge}
    (hd : I.decl d) (h : (d.purge dead span p).rest = some d') : I.decl d' := by
  obtain ⟨locals, init⟩ := d
  simp only [VarDecl.purge] at h
  cases init with
  | none =>
    cases h
    exact hd
  | some init =>
    dsimp only at h
    split at h
    · split at h
      · cases h
      rename_i some
      cases h
      refine hI.left hd (fun none => some (by rw [none]; rfl)) fun x hx => ?_
      obtain ⟨old, ho, reduced⟩ := VarDecl.mem_reduceLocals hx
      exact ⟨mem_zip_of_mem_zip ho,
        hI.reduces reduced (hI.initial hd _ (List.of_mem_zip (List.of_mem_zip ho).2).2)⟩
    · split at h <;> cases h
      exact hd

mutual
/-- What is left of a statement meets the invariant. -/
theorem purgeStmt (hI : I.Stable) {inner : ListPurge} {dead : String} (hi : I.Survives inner) :
    (s : Stmt) → ∀ {s' p}, s.Meets I → (s.purge inner dead p).rest = some s' → s'.Meets I
  | ⟨kind, span, ghost⟩, s', p, hs, h => by
    simp only [Stmt.purge, Purged.map, Option.map_eq_some_iff] at h
    obtain ⟨kind', left, rfl⟩ := h
    exact hI.purgeKind hi kind hs left

/-- One case per form: what stays is the same form with parts that meet the invariant. -/
theorem purgeKind (hI : I.Stable) {inner : ListPurge} {dead : String} (hi : I.Survives inner)
    {span : Span} : (kind : StmtKind) → ∀ {kind' p}, kind.Meets I →
    (kind.purge inner dead span p).rest = some kind' → kind'.Meets I
  | .varDecl d, _, p, hk, h => by
    simp only [StmtKind.purge, Purged.map, Option.map_eq_some_iff] at h
    obtain ⟨d', left, rfl⟩ := h
    exact hI.purgeDecl hk left
  | .update u, _, p, hk, h => by
    simp only [StmtKind.purge, Purged.map, Option.map_eq_some_iff] at h
    obtain ⟨u', left, rfl⟩ := h
    exact hI.purgeUpdate hk left
  | .expr e, _, p, hk, h => by
    simp only [StmtKind.purge, Purged.map, Reduction.purged, Option.map_eq_some_iff] at h
    obtain ⟨e', left, rfl⟩ := h
    exact hI.reduces (Expr.reduces left) hk
  | .ret values, _, p, hk, h => by
    simp only [StmtKind.purge, Purged.map, Reduction.purged, Option.map_eq_some_iff] at h
    obtain ⟨values', left, rfl⟩ := h
    exact hI.reducesAll (Expr.reduces_list left) hk
  | .ifElse guard thenBranch next, _, p, hk, h => by
    simp only [StmtKind.purge, Reduction.purged] at h
    split at h <;> cases h
    exact ⟨hI.reduceOpt ‹_› hk.1, hk.2.1.purge hi, hI.purgeElse hi next hk.2.2⟩
  | .whileLoop guard invariants decreases body, _, p, hk, h => by
    simp only [StmtKind.purge, Reduction.purged] at h
    split at h <;> cases h
    exact ⟨hI.reduceOpt ‹_› hk.1, Expr.forall_without hk.2.1, Expr.forall_without hk.2.2.1,
      hk.2.2.2.purge hi⟩
  | .forLoop index start stop ascending invariants body, _, p, hk, h => by
    simp only [StmtKind.purge, Reduction.purged] at h
    split at h
    · cases h
    · obtain ⟨first, second⟩ := Reduction.both_rest ‹_›
      have bounds := And.intro (hI.reduces (Expr.reduces first) hk.1) (hI.reduceOpt second hk.2.1)
      split at h <;> cases h
      · exact ⟨bounds.1, bounds.2, hk.2.2⟩
      · exact ⟨bounds.1, bounds.2, Expr.forall_without hk.2.2.1, hk.2.2.2.purge hi⟩
  | .breakLoop, _, p, hk, h | .continueLoop, _, p, hk, h => by
    cases h
    trivial
  | .block b, _, p, hk, h => by
    cases h
    exact Block.Meets.purge hk hi
  | .matchOn source cases, _, p, hk, h => by
    simp only [StmtKind.purge, Reduction.purged] at h
    split at h <;> cases h
    exact ⟨hI.reduces (Expr.reduces ‹_›) hk.1, MatchCase.meets_purgeList hk.2 hi⟩
  | .assert e, _, p, hk, h | .assume e, _, p, hk, h => by
    simp only [StmtKind.purge] at h
    split at h <;> cases h
    exact hk
  | .print args, _, p, hk, h => by
    simp only [StmtKind.purge] at h
    split at h <;> cases h
    intro e he
    obtain ⟨old, ho, reduced⟩ := Stmt.mem_reduceArgs he
    exact hI.reduces reduced (hk old ho)

/-- What is left of an `else` branch meets the invariant; the branch behind a lost link was a
branch itself. -/
theorem purgeElse (hI : I.Stable) {inner : ListPurge} {dead : String} (hi : I.Survives inner) :
    (s : Option Stmt) → ∀ {p}, Stmt.MeetsElse I s →
    Stmt.MeetsElse I (Stmt.purgeElse inner dead s p).rest
  | none, _, _ => trivial
  | some branch, p, hs => by
    simp only [Stmt.purgeElse]
    cases left : (branch.purge inner dead p).rest with
    | none => exact hs.2.elseBranch
    | some s' =>
      exact ⟨fun asked => Stmt.isBranch_purged left (hs.1 asked), hI.purgeStmt hi branch hs.2 left⟩
end

/-- The run: by induction on the fuel, a purge keeps the invariant of every list. -/
theorem purgeList (hI : I.Stable) (limit fuel : Nat) (dead : String) (depth : Nat) :
    I.Survives (Purge.purgeList limit fuel dead depth) := by
  induction fuel generalizing dead depth with
  | zero => exact fun list p h => h
  | succ fuel ih =>
    intro list p h
    cases list with
    | nil => exact h
    | cons s list =>
      rw [Purge.purgeList]
      split
      · exact h
      · have adopted := Invariant.Survives.adopt limit depth ih
        refine Stmt.meetsList_append.2 ⟨?_, ?_⟩
        · cases left : (s.purge (Purge.purgeList limit fuel dead depth) dead p).rest with
          | none => trivial
          | some s' => exact ⟨hI.purgeStmt (ih dead depth) s h.1 left, trivial⟩
        · split
          · exact adopted _ _ _ h.2
          · exact ih _ _ _ _ (adopted _ _ _ h.2)

/-- A declaration with a value for each local, without one of its locals. -/
theorem erase (hI : I.Stable) {locals : List Variable} {init : Update} {k : Nat}
    (hd : I.decl ⟨locals, some init⟩) (paired : init.targets.length = init.values.length)
    (named : init.targets.length = locals.length) (hk : k < locals.length)
    (others : locals.eraseIdx k ≠ []) : I.decl ⟨locals.eraseIdx k, some (init.erasePair k)⟩ := by
  obtain ⟨allLocals, allTargets, allValues⟩ := map_zip_zip named paired
  generalize same : locals.zip (init.targets.zip init.values) = all
    at allLocals allTargets allValues
  have erased : init.erasePair k = .make (init.targets.eraseIdx k) (init.values.eraseIdx k) :=
    if_pos (by simp [Update.isParallel, paired]; omega)
  rw [erased, ← allTargets, ← allValues]
  rw [← allLocals] at others ⊢
  simp only [List.eraseIdx_map] at others ⊢
  refine hI.left hd (fun none => others (by rw [none]; rfl)) fun x hx => ?_
  have mem := List.mem_of_mem_eraseIdx hx
  rw [← same] at mem
  exact ⟨mem_zip_of_mem_zip mem, hI.initial hd _ (List.of_mem_zip (List.of_mem_zip mem).2).2⟩

/-- A declaration without a local that is deleted. -/
theorem drop (hI : I.Stable) {name : String} {d d' : VarDecl} (hd : I.decl d)
    (h : (d.drop name).1 = some d') : I.decl d' := by
  obtain ⟨locals, init⟩ := d
  simp only [VarDecl.drop] at h
  split at h
  · cases h
    exact hd
  next k found =>
    have hk : k < locals.length := (List.findIdx?_eq_some_iff_getElem.1 found).1
    cases init with
    | none =>
      dsimp only at h
      split at h
      · cases h
      rename_i some
      cases h
      exact hI.unset hd fun none => some (by rw [none]; rfl)
    | some init =>
      dsimp only at h
      split at h
      case isFalse => cases h
      case isTrue aligned =>
        dsimp only at h
        split at h
        · cases h
        rename_i some
        cases h
        simp only [VarDecl.isAligned, Update.isParallel, Bool.and_eq_true, beq_iff_eq] at aligned
        exact hI.erase hd aligned.1 aligned.2 hk fun none => some (by rw [none]; rfl)

/-- A local deleted with what depends on it. -/
theorem deleteLocal (hI : I.Stable) {limit : Nat} {name : String} {s : Stmt} {list : List Stmt}
    (hs : s.Meets I) (hl : Stmt.MeetsList I list) :
    Stmt.MeetsList I (Purge.deleteLocal limit name s list).1 := by
  have purged := hI.purgeList limit (Stmt.weightList list)
  have adopted := Invariant.Survives.adopt limit 0 purged
  obtain ⟨kind, span, ghost⟩ := s
  simp only [Purge.deleteLocal]
  refine Stmt.meetsList_append.2 ⟨?_, adopted _ _ _ (purged _ _ _ _ hl)⟩
  cases kind with
  | varDecl d =>
    dsimp only
    cases left : (d.drop name).1 with
    | none => trivial
    | some d' => exact ⟨hI.drop hs left, trivial⟩
  | _ => exact ⟨hs, trivial⟩

/-- A deleted local is a purge of the list without its declaration. -/
theorem deleteVariable (hI : I.Stable) {site : Site} {name : String} {list list' : List Stmt}
    {span : Span} {notes : List Note} (hl : Stmt.MeetsList I list)
    (h : Stmt.deleteVariable site name list = (.done (list', span), notes)) :
    Stmt.MeetsList I list' := by
  unfold Stmt.deleteVariable at h
  split at h
  · cases h
  next before s after split =>
    obtain ⟨rfl, -⟩ := splitAtFirst_eq_some split
    obtain ⟨hb, hs, ha⟩ := Stmt.meetsList_append.1 hl
    dsimp only at h
    split at h <;> cases h
    exact Stmt.meetsList_append.2 ⟨hb, hI.deleteLocal hs ha⟩

/-! ### Exchanging two elements of a list -/

/-- A declaration with another value meets the invariant when the value does. -/
theorem withValue (hI : I.Stable) {s : Stmt} {value : Expr} (hs : s.Meets I) (hv : I.expr value) :
    (s.withValue value).Meets I := by
  obtain ⟨kind, span, ghost⟩ := s
  unfold Stmt.withValue
  split
  case h_2 => exact hs
  case h_1 locals init same =>
    cases same
    refine hI.reinit hs (by simp) fun e he => ?_
    rcases List.mem_or_eq_of_mem_set he with he | rfl
    · exact hI.initial hs e he
    · exact hv

/-- The value of a plain declaration is one of the expressions of the statement. -/
theorem simpleDecl (hI : I.Stable) {s : Stmt} {v : Variable} {value : Expr} (hs : s.Meets I)
    (h : s.simpleDecl? = some (v, value)) : I.expr value := by
  obtain ⟨kind, span, ghost⟩ := s
  unfold Stmt.simpleDecl? at h
  split at h <;> cases h
  next same =>
    cases same
    exact hI.initial hs _ (by simp)

/-- Initializers that change places were initializers before. -/
theorem swapInits (hI : I.Stable) {target other : Location} {list list' : List Stmt} {span : Span}
    (hl : Stmt.MeetsList I list) (h : Stmt.swapInits target other list = .done (list', span)) :
    Stmt.MeetsList I list' := by
  rw [Stmt.meetsList_iff] at hl ⊢
  obtain ⟨i, j, s, t, v, w, a, b, -, hs, ht, first, second, rfl⟩ := Stmt.swapInits_done h
  replace hs := hl s (List.mem_of_getElem? hs)
  replace ht := hl t (List.mem_of_getElem? ht)
  intro x hx
  rcases mem_of_mem_exchange hx with hx | rfl | rfl
  · exact hl x hx
  · exact hI.withValue hs (hI.simpleDecl ht second)
  · exact hI.withValue ht (hI.simpleDecl hs first)

end Invariant.Stable

/-- Bodies that change places were bodies before. -/
theorem Member.meets_swapBodies {target : Location} {name : String} {list list' : List Member}
    {span : Span} (hl : ∀ m ∈ list, m.Meets I)
    (h : swapBodies target name list = .done (list', span)) : ∀ m ∈ list', m.Meets I := by
  obtain ⟨i, j, a, b, x, y, -, ha, hb, -, -, -, bodyA, bodyB, rfl⟩ := swapBodies_done h
  obtain ⟨contractA, insideA⟩ := hl _ (List.mem_of_getElem? ha)
  obtain ⟨contractB, insideB⟩ := hl _ (List.mem_of_getElem? hb)
  intro m hm
  rcases mem_of_mem_exchange hm with hm | rfl | rfl
  · exact hl m hm
  · exact ⟨contractA, bodyB ▸ insideB⟩
  · exact ⟨contractB, bodyA ▸ insideA⟩

/-! ### Requests -/

/-- Everything at the place is as the invariant asks. -/
def Place.Meets (I : Invariant) : Place → Prop
  | .members list => ∀ m ∈ list, m.Meets I
  | .stmts list => Stmt.MeetsList I list
  | .element s => s.Meets I
  | .expr e => I.expr e

/-- Everything in what is put at the place is as the invariant asks. -/
def Place.ContentMeets (I : Invariant) : (p : Place) → p.Content → Prop
  | .members _, list => ∀ m ∈ list, m.Meets I
  | .stmts _, list => Stmt.MeetsList I list
  | .element _, list => Stmt.MeetsList I list
  | .expr _, e => I.expr e

namespace Invariant.Stable

/-- What an operator puts at a place that meets the invariant meets it. -/
theorem answer (hI : I.Stable) {op : Operator} {site : Site} {p : Place} {new : p.Content}
    {span : Span} (h : op.answer site p = .done (new, span)) (hp : p.Meets I) :
    p.ContentMeets I new := by
  cases p with
  | members list =>
    have done := Outcome.answer_id_eq_done_iff.1 h
    cases op with
    | swapBodies name => exact Member.meets_swapBodies hp done
    | _ => cases done
  | stmts list =>
    have done := Outcome.answer_id_eq_done_iff.1 h
    cases op with
    | swapInits start stop => exact hI.swapInits hp done
    | deleteVariable name => exact hI.deleteVariable hp (Prod.ext done rfl)
    | _ => cases done
  | element s =>
    obtain ⟨change, done, same⟩ := Outcome.answer_eq_done_iff.1 h
    cases same
    exact hI.onStmt hp done
  | expr e =>
    obtain ⟨made, done, same⟩ := Outcome.answer_eq_done_iff.1 h
    cases same
    exact hI.madeFrom hp (Operator.onExpr_madeFrom done)

/-- The places of a piece that meets the invariant meet it. -/
theorem place (hI : I.Stable) {p : Place} {new : p.Content} {spans : List Span} {x x' : Piece}
    (h : Exchanged p new spans x x') (hx : x.Meets I) : p.Meets I := by
  induction h with
  | members | stmts | expr => exact hx
  | element => exact (Stmt.meetsList_append.1 hx).2.1
  | inside hc _ ih => exact ih (hI.inside hc hx)

/-- An exchange for something that meets the invariant keeps it, at whatever depth the exchange is
made. -/
theorem exchanged (hI : I.Stable) {p : Place} {new : p.Content} {spans : List Span} {x x' : Piece}
    (h : Exchanged p new spans x x') (hx : x.Meets I) (hn : p.ContentMeets I new) :
    x'.Meets I := by
  induction h with
  | members | stmts | expr => exact hn
  | element =>
    obtain ⟨hpre, -, hpost⟩ := Stmt.meetsList_append.1 hx
    exact Stmt.meetsList_append.2 ⟨hpre, Stmt.meetsList_append.2 ⟨hn, hpost⟩⟩
  | inside hc h ih =>
    refine hI.carries hc hx (ih (hI.inside hc hx) hn) ?_
    rintro s s' rfl rfl branch
    cases h with
    | inside within _ => rwa [within.isBranch]

end Invariant.Stable

/-- A request of any kind, carried out, refused or faulty, leaves a module that meets a stable
invariant with a module that meets it. -/
theorem Module.meets_afterward (hI : I.Stable) {m : Module} (h : m.Meets I) (r : Request)
    (limit : Nat) : (m.afterward r limit).Meets I := by
  rcases Module.afterward_cases m r limit with
    same | ⟨op, owner, p, spans, -, new, at', done, exchanged⟩
  · rwa [same]
  · exact hI.exchanged exchanged h (hI.answer done (hI.place exchanged h))

/-! ### Copies that are in step -/

/-- Every link of a chain has the property when its operands have it and a comparison keeps it. -/
theorem Chain.mem_links {P : Expr → Prop}
    (binary : ∀ op a b span, P a → P b → P ⟨.binary op a b, span, .bool⟩) :
    (es : List Expr) → (ops : List BinaryOp) → (∀ e ∈ es, P e) → ∀ e ∈ Chain.links es ops, P e
  | a :: b :: rest, op :: ops, h => by
    have first : P (Chain.link op a b) := binary _ _ _ _ (h a (by simp)) (h b (by simp))
    have others := Chain.mem_links binary (b :: rest) ops fun e he => h e (by simp at he ⊢; tauto)
    simpa [Chain.links, first] using others
  | [], _, _ => by simp [Chain.links]
  | [_], _, _ => by simp [Chain.links]
  | _ :: _ :: _, [], _ => by simp [Chain.links]

/-- A property that passes from operands to binary expressions passes from the operands of a chain
to its conjunction. -/
theorem Chain.rebuild_resolved {P : Expr → Prop}
    (binary : ∀ op a b span, P a → P b → P ⟨.binary op a b, span, .bool⟩) {c : Chain}
    (operands : ∀ e ∈ c.operands, P e) {e : Expr} (h : c.rebuild.resolved = some e) : P e := by
  have fold : ∀ (es : List Expr) (a : Expr), P a → (∀ e ∈ es, P e) →
      P (es.foldl Chain.conjoin a) := by
    intro es
    induction es with
    | nil => exact fun a ha _ => ha
    | cons b es ih =>
      intro a ha hes
      exact ih _ (binary _ _ _ _ ha (hes b (by simp))) fun e he => hes e (by simp [he])
  have links := Chain.mem_links binary c.operands c.ops operands
  simp only [Chain.rebuild] at h
  generalize Chain.links c.operands c.ops = es at h links
  cases es with
  | nil => cases h
  | cons a es =>
    cases h
    exact fold es a (links a (by simp)) fun e he => links e (by simp [he])

/-- The pairs of an update are made of its targets and values. -/
theorem Update.mem_resolved_make {targets values : List Expr} {a : Assigned}
    (h : a ∈ (Update.make targets values).resolved) : a.target ∈ targets ∧ a.value ∈ values := by
  have paired : a ∈ List.zipWith Assigned.mk targets values := by
    simp only [Update.make, Update.sync] at h
    split at h
    · exact h
    · cases h
  obtain ⟨i, hi, rfl⟩ := List.getElem_of_mem paired
  rw [List.getElem_zipWith]
  exact ⟨List.getElem_mem _, List.getElem_mem _⟩

/-- What is asked of a module whose `else` branches are blocks or `if`s. -/
def Invariant.branched : Invariant := ⟨fun _ => True, fun _ => True, fun _ => True, True⟩

/-- Branches stay branches under every change of an expression. -/
theorem Invariant.stable_branched : Invariant.branched.Stable where
  parts _ _ _ := trivial
  plain _ _ := trivial
  resync _ _ _ := trivial
  targets _ _ _ := trivial
  values _ _ _ := trivial
  reassign _ _ _ _ _ := trivial
  pairs _ _ := trivial
  initial _ _ _ := trivial
  reinit _ _ _ := trivial
  left _ _ _ := trivial
  unset _ _ := trivial

/-- Every `else` branch in the module is a block or an `if`. -/
def Module.Branched (m : Module) : Prop := m.Meets .branched

end Mutation
