import Mutation.Proofs.Outline
import Mutation.Proofs.Reduction

/-!
# Deleting a variable leaves nothing behind

The purge of a deleted local is followed statement by statement: what is left of a statement has
an outline that the purge has cleaned (`Stmt.cleans_purge`), a list is cleaned when its first
statement is, the orphans of that statement are taken in, and the rest is cleaned
(`Purge.cleansing_purgeList`), and so is the list behind the deleted declaration. The bound on
the recursion suffices because it counts the statements.

One thing escapes: an `else if` that loses its guard gives way to the branch behind it, and that
branch is not purged. A name can stay free by that alone, so the deletion leaves no dangling name
exactly when no deleted name stays free that occurs in the guard of an `else if` and behind it.
-/

namespace Mutation

/-- What a purge never takes back. -/
structure Purge.Grows (p p' : Purge) : Prop where
  exhausted : p'.exhausted = false → p.exhausted = false
  visited : ∀ x ∈ p.visited, x ∈ p'.visited
  cascaded : ∀ z ∈ p.cascaded, z ∈ p'.cascaded

namespace Purge.Grows

theorem refl (p : Purge) : p.Grows p := ⟨id, fun _ => id, fun _ => id⟩

theorem trans {p q r : Purge} (h : p.Grows q) (h' : q.Grows r) : p.Grows r :=
  ⟨fun hr => h.exhausted (h'.exhausted hr), fun x hx => h'.visited x (h.visited x hx),
    fun z hz => h'.cascaded z (h.cascaded z hz)⟩

theorem countCollapsed (p : Purge) (n : Nat) : p.Grows (p.countCollapsed n) :=
  ⟨id, fun _ => id, fun _ => id⟩

theorem countDeleted (p : Purge) : p.Grows p.countDeleted :=
  ⟨id, fun _ => id, fun _ => id⟩

/-- Taking an orphan in adds its name to the names the purge has visited. -/
theorem takeIn (p : Purge) (orphan : Orphan) : p.Grows (p.takeIn orphan) :=
  ⟨id, fun _ hx => List.mem_cons_of_mem _ hx, fun _ hz => List.mem_append_left _ hz⟩

end Purge.Grows

/-- The state after a statement, which is counted when nothing of it is left. -/
def Purged.counted {α : Type} (r : Purged α) : Purge :=
  if r.rest.isNone then r.state.countDeleted else r.state

/-- What a statement adds to the counters on its way out takes no name back. -/
theorem Purge.Grows.counted {α : Type} (r : Purged α) : r.state.Grows r.counted := by
  unfold Purged.counted
  split
  · exact .countDeleted _
  · exact .refl _

@[simp] theorem Purged.counted_visited {α : Type} (r : Purged α) :
    r.counted.visited = r.state.visited := by
  unfold Purged.counted
  split <;> rfl

/-- A purge of lists that takes nothing back. -/
def Growing (inner : ListPurge) : Prop :=
  ∀ (list : List Stmt) (p : Purge), p.Grows (inner list p).2

/-- The cases of a match are purged in turn, each with the names visited before it. -/
theorem MatchCase.grows_purgeList {inner : ListPurge} {dead : String} (hi : Growing inner)
    (cases : List MatchCase) (p : Purge) :
    p.Grows (MatchCase.purgeList inner dead cases p).2 := by
  induction cases generalizing p with
  | nil => exact .refl p
  | cons c cases ih =>
    simp only [MatchCase.purgeList]
    split
    · exact ih p
    · exact (hi _ _).trans (ih _)

mutual
/-- A purge of a statement forgets no name, when the purge of its lists forgets none. -/
theorem Stmt.grows_purge {inner : ListPurge} (dead : String) (hi : Growing inner) :
    (s : Stmt) → ∀ p : Purge, p.Grows (s.purge inner dead p).state
  | ⟨kind, span, _⟩, p => StmtKind.grows_purge hi span kind p

/-- One case per form: a form without blocks leaves the purge as it was, the others hand it on. -/
theorem StmtKind.grows_purge {inner : ListPurge} {dead : String} (hi : Growing inner)
    (span : Span) : (kind : StmtKind) → ∀ p : Purge, p.Grows (kind.purge inner dead span p).state
  | .varDecl d, p => by
    simp only [StmtKind.purge, Purged.map, VarDecl.purge]
    split
    · exact .refl p
    · split
      · exact .countCollapsed p _
      · split <;> exact .refl p
  | .update u, p => by
    simp only [StmtKind.purge, Purged.map, Update.purge]
    split
    · exact .countCollapsed p _
    · exact .refl p
  | .expr _, p | .ret _, p | .print _, p => .countCollapsed p _
  | .ifElse guard thenBranch elseBranch, p => by
    simp only [StmtKind.purge, Reduction.purged]
    split
    · exact .countCollapsed p _
    · exact ((Purge.Grows.countCollapsed p _).trans (hi _ _)).trans
        (Stmt.grows_purgeElse hi elseBranch _)
  | .whileLoop guard invariants decreases body, p => by
    simp only [StmtKind.purge, Reduction.purged]
    split
    · exact .countCollapsed p _
    · exact (Purge.Grows.countCollapsed p _).trans (hi _ _)
  | .forLoop index start stop ascending invariants body, p => by
    simp only [StmtKind.purge, Reduction.purged]
    split
    · exact .countCollapsed p _
    · split
      · exact .countCollapsed p _
      · exact (Purge.Grows.countCollapsed p _).trans (hi _ _)
  | .breakLoop, p | .continueLoop, p | .assert _, p | .assume _, p => .refl p
  | .block b, p => hi _ _
  | .matchOn source cases, p => by
    simp only [StmtKind.purge, Reduction.purged]
    split
    · exact .countCollapsed p _
    · exact (Purge.Grows.countCollapsed p _).trans (MatchCase.grows_purgeList hi cases _)

/-- The links of a chain are purged in turn, as the statements they are. -/
theorem Stmt.grows_purgeElse {inner : ListPurge} {dead : String} (hi : Growing inner) :
    (s : Option Stmt) → ∀ p : Purge, p.Grows (Stmt.purgeElse inner dead s p).state
  | none, p => .refl p
  | some branch, p => Stmt.grows_purge dead hi branch p
end

namespace Purge

/-- Following the locals that fell forgets no name: each adopted one is added before its own purge.
-/
theorem growing_adopt (limit depth : Nat) {purge : String → Nat → ListPurge}
    (hp : ∀ name depth, Growing (purge name depth)) (orphans : List Orphan) :
    Growing (adopt limit purge depth orphans) := by
  induction orphans with
  | nil => exact fun list p => .refl p
  | cons orphan orphans ih =>
    intro list p
    simp only [adopt]
    split
    · exact ⟨by simp [exhaust], fun _ => id, fun _ => id⟩
    · split
      · exact ih list p
      · exact ((Grows.takeIn p orphan).trans (hp _ _ _ _)).trans (ih _ _)

/-- The first step of the purge of a list: its first statement, then the orphans of that statement,
then the rest, unless the statement declares the name again. -/
theorem purgeList_cons {limit fuel depth : Nat} {dead : String} {s : Stmt} {list : List Stmt}
    {p : Purge} {r : Purged Stmt} {x y : List Stmt × Purge} (going : p.exhausted = false)
    (hr : s.purge (purgeList limit fuel dead depth) dead p = r)
    (hx : adopt limit (purgeList limit fuel) depth r.orphans list r.counted = x)
    (hy : (if s.declares.contains dead then x else purgeList limit fuel dead depth x.1 x.2) = y) :
    purgeList limit (fuel + 1) dead depth (s :: list) p = (r.rest.toList ++ y.1, y.2) := by
  subst hr hx hy
  rw [purgeList, going, if_neg Bool.false_ne_true]
  rfl

/-- A purge does nothing without a bound left, to no statement, or once it is given up. -/
theorem purgeList_idle {limit fuel depth : Nat} {dead : String} {list : List Stmt} {p : Purge}
    (h : fuel = 0 ∨ list = [] ∨ p.exhausted = true) :
    purgeList limit fuel dead depth list p = (list, p) := by
  cases fuel with
  | zero => rfl
  | succ fuel =>
    cases list with
    | nil => rfl
    | cons s list =>
      rcases h with zero | none | exhausted
      · cases zero
      · cases none
      · rw [purgeList, if_pos exhausted]

/-- What holds of the purges that do nothing, and is kept by a first step, holds of all purges. All
that a first step calls has a smaller bound: the purges of the lists in the statement, of its
orphans, and of the rest of the list. -/
theorem purgeList_induct {limit : Nat}
    {P : Nat → String → Nat → List Stmt → Purge → List Stmt × Purge → Prop}
    (idle : ∀ fuel dead depth list p, fuel = 0 ∨ list = [] ∨ p.exhausted = true →
      P fuel dead depth list p (list, p))
    (step : ∀ fuel dead depth s list p r x y,
      (∀ dead depth list p, P fuel dead depth list p (purgeList limit fuel dead depth list p)) →
      p.exhausted = false → s.purge (purgeList limit fuel dead depth) dead p = r →
      adopt limit (purgeList limit fuel) depth r.orphans list r.counted = x →
      (if s.declares.contains dead then x else purgeList limit fuel dead depth x.1 x.2) = y →
      P (fuel + 1) dead depth (s :: list) p (r.rest.toList ++ y.1, y.2))
    (fuel : Nat) (dead : String) (depth : Nat) (list : List Stmt) (p : Purge) :
    P fuel dead depth list p (purgeList limit fuel dead depth list p) := by
  induction fuel generalizing dead depth list p with
  | zero => exact idle 0 dead depth list p (.inl rfl)
  | succ fuel ih =>
    by_cases done : list = [] ∨ p.exhausted = true
    · rw [purgeList_idle (.inr done)]
      exact idle _ dead depth list p (.inr done)
    · obtain ⟨some, going⟩ := not_or.1 done
      rw [Bool.not_eq_true] at going
      obtain ⟨s, list, rfl⟩ := List.exists_cons_of_ne_nil some
      rw [purgeList_cons going rfl rfl rfl]
      exact step fuel dead depth s list p _ _ _ ih going rfl rfl rfl

/-- The run: by induction on the fuel, a purge only ever adds to the names it visited. -/
theorem growing_purgeList (limit fuel : Nat) (dead : String) (depth : Nat) :
    Growing (purgeList limit fuel dead depth) := by
  refine purgeList_induct (P := fun _ _ _ _ p x => p.Grows x.2) (fun _ _ _ _ p _ => .refl p) ?_
    fuel dead depth
  rintro fuel dead depth s list p r x y ih - hr rfl rfl
  have purged : p.Grows r.state := hr ▸ Stmt.grows_purge dead (ih dead depth) s p
  have adopted := (purged.trans (.counted r)).trans
    (growing_adopt limit depth ih r.orphans list r.counted)
  dsimp only
  split
  · exact adopted
  · exact adopted.trans (ih _ _ _ _)

end Purge

/-- A state that a purge of names in `D` may end in. -/
structure Purge.Within (D : String → Prop) (p : Purge) : Prop where
  going : p.exhausted = false
  cascaded : ∀ z ∈ p.cascaded, D z

/-- A bound on the names visited at the end is a bound on the names visited earlier. -/
theorem Purge.Grows.within {D : String → Prop} {p p' : Purge} (h : p.Grows p')
    (hp : p'.Within D) : p.Within D :=
  ⟨h.exhausted hp.going, fun z hz => hp.cascaded z (h.cascaded z hz)⟩

section

variable {U D : String → Prop} {dead : String} {inner : ListPurge} {fuel : Nat}

/-- A purge of `dead` that cleans every list of at most `fuel` statements. -/
def Cleansing (U D : String → Prop) (dead : String) (fuel : Nat) (inner : ListPurge) : Prop :=
  ∀ (list : List Stmt) (p : Purge), (Stmt.outlineList list).areas.length ≤ fuel →
    (Stmt.outlineList list).Fit U D p.visited → (inner list p).2.Within D →
    Outline.Cleans U dead p.visited (inner list p).2.visited (Stmt.outlineList list)
      (Stmt.outlineList (inner list p).1)

/-- What stays of an optional expression has only names it had, and not the dead one. -/
theorem Expr.names_reduceOpt {e e' : Option Expr} (h : (Expr.reduceOpt dead e).rest = some e')
    {n : String} (hn : n ∈ Expr.namesOpt e') : n ∈ Expr.namesOpt e ∧ n ≠ dead := by
  obtain ⟨-, rfl⟩ | ⟨a, a', rfl, rfl, reduced⟩ := Expr.reduces_opt h
  · cases hn
  · exact reduced.names hn

/-- A name of an expression that does not mention the dead one is another name. -/
theorem Expr.ne_of_mentions {e : Expr} {n : String} (h : e.mentions dead = false)
    (hn : n ∈ e.names) : n ≠ dead := by
  rintro rfl
  simp [Expr.mentions, hn] at h

/-- What stays of a list of expressions has only names it had, and not the dead one. -/
theorem Expr.names_without {es : List Expr} {n : String}
    (hn : n ∈ Expr.namesList (Expr.without dead es)) : n ∈ Expr.namesList es ∧ n ≠ dead := by
  rw [Expr.namesList_eq, List.mem_flatMap] at hn ⊢
  obtain ⟨e, he, hn⟩ := hn
  obtain ⟨mem, free⟩ := List.mem_filter.1 he
  exact ⟨⟨e, mem, hn⟩, Expr.ne_of_mentions (by simpa using free) hn⟩

/-- A purged update reads only what it read, and nothing dead. -/
theorem Update.names_purge {u u' : Update} {p : Purge} (h : (u.purge dead p).rest = some u')
    {n : String} (hn : n ∈ u'.names) : n ∈ u.names ∧ n ≠ dead := by
  simp only [Update.purge] at h
  split at h
  · split at h <;> cases h
    rcases List.mem_append.1 hn with hn | hn
    · rw [Expr.namesList_eq, List.mem_flatMap] at hn
      obtain ⟨_, mem, hn⟩ := hn
      obtain ⟨⟨t, v⟩, hp, rfl⟩ := List.mem_map.1 mem
      obtain ⟨free, old, ho, -⟩ := Update.mem_reducePairs hp
      refine ⟨List.mem_append_left _ ?_, Expr.ne_of_mentions free hn⟩
      rw [Expr.namesList_eq, List.mem_flatMap]
      exact ⟨t, (List.of_mem_zip ho).1, hn⟩
    · rw [Expr.namesList_eq, List.mem_flatMap] at hn
      obtain ⟨_, mem, hn⟩ := hn
      obtain ⟨⟨t, v⟩, hp, rfl⟩ := List.mem_map.1 mem
      obtain ⟨-, old, ho, reduced⟩ := Update.mem_reducePairs hp
      obtain ⟨old', other⟩ := reduced.names hn
      refine ⟨List.mem_append_right _ ?_, other⟩
      rw [Expr.namesList_eq, List.mem_flatMap]
      exact ⟨old, (List.of_mem_zip ho).2, old'⟩
  · split at h <;> cases h
    refine ⟨hn, ?_⟩
    rintro rfl
    simp [hn] at *

/-- A purged declaration reads only what it read, and nothing dead. -/
theorem VarDecl.names_purge {span : Span} {d d' : VarDecl} {p : Purge}
    (h : (d.purge dead span p).rest = some d') {n : String} (hn : n ∈ d'.valueNames) :
    n ∈ d.valueNames ∧ n ≠ dead := by
  obtain ⟨locals, init⟩ := d
  simp only [VarDecl.purge] at h
  cases init with
  | none =>
    cases h
    cases hn
  | some init =>
    dsimp only at h
    split at h
    · split at h <;> cases h
      simp only [VarDecl.valueNames, Update.make, Update.sync, Expr.namesList_eq,
        List.mem_flatMap] at hn ⊢
      obtain ⟨_, mem, hn⟩ := hn
      obtain ⟨⟨v, t, x⟩, hp, rfl⟩ := List.mem_map.1 mem
      obtain ⟨old, ho, reduced⟩ := VarDecl.mem_reduceLocals hp
      obtain ⟨old', other⟩ := reduced.names hn
      exact ⟨⟨old, (List.of_mem_zip (List.of_mem_zip ho).2).2, old'⟩, other⟩
    · split at h <;> cases h
      refine ⟨hn, ?_⟩
      rintro rfl
      simp only [VarDecl.valueNames] at hn
      simp [hn] at *

/-- Printed arguments lose the dead name and gain none. -/
theorem Stmt.names_reduceArgs {es : List Expr} {n : String}
    (hn : n ∈ Expr.namesList (Stmt.reduceArgs dead es).1) :
    n ∈ Expr.namesList es ∧ n ≠ dead := by
  rw [Expr.namesList_eq, List.mem_flatMap] at hn ⊢
  obtain ⟨e, he, hn⟩ := hn
  obtain ⟨old, ho, reduced⟩ := Stmt.mem_reduceArgs he
  obtain ⟨hn, other⟩ := reduced.names hn
  exact ⟨⟨old, ho, hn⟩, other⟩

/-- An optional expression is lost only when it names what is dead. -/
theorem Expr.mem_namesOpt_of_lost {e : Option Expr} (h : (Expr.reduceOpt dead e).rest = none) :
    dead ∈ Expr.namesOpt e := by
  cases e with
  | none => cases h
  | some e => exact Expr.mem_names_of_lost (Option.map_eq_none_iff.1 h)

/-- A block is cleaned as its list is. -/
theorem Block.cleans_purge (hi : Cleansing U D dead fuel inner) (b : Block) (p : Purge)
    (small : (Stmt.outlineList b.stmts).areas.length ≤ fuel)
    (fit : (Stmt.outlineList b.stmts).Fit U D p.visited) (hp : (b.purge inner p).2.Within D) :
    Outline.Cleans U dead p.visited (b.purge inner p).2.visited (Stmt.outlineList b.stmts)
      (Stmt.outlineList (b.purge inner p).1.stmts) := hi b.stmts p small fit hp

/-- The bodies of the cases are cleaned one after the other, each in its own area. -/
theorem MatchCase.cleans_purgeList (hi : Cleansing U D dead fuel inner) (hg : Growing inner)
    (cases : List MatchCase) (p : Purge) (small : (outlineList cases).areas.length ≤ fuel)
    (fit : (outlineList cases).Fit U D p.visited)
    (hp : (purgeList inner dead cases p).2.Within D) :
    Outline.Cleans U dead p.visited (purgeList inner dead cases p).2.visited (outlineList cases)
      (outlineList (purgeList inner dead cases p).1) := by
  induction cases generalizing p with
  | nil => exact .same fit (by simp [outlineList, freeList])
  | cons c cases ih =>
    obtain ⟨pattern, body, span⟩ := c
    rw [outlineList_cons] at fit small ⊢
    rw [Outline.areas_append, Outline.areas_binding, List.length_append] at small
    simp only [purgeList] at hp ⊢
    by_cases hidden : pattern.names.contains dead
    · simp only [hidden, if_true] at hp ⊢
      refine Outline.Cleans.append (a := (Stmt.outlineList body).binding pattern.names) fit
        (fun fit => .same fit ?_) fun fit => ih p (by omega) fit hp
      simp_all [Outline.binding]
    · simp only [hidden] at hp ⊢
      exact .append fit
        (fun fit => .binding _ (hi body p (by omega) fit.bound
          ((MatchCase.grows_purgeList hg cases _).within hp)))
        fun fit => ih _ (by omega) fit hp

/-- What is left of a block is a block, and what is left of an `if` is an `if`. -/
theorem Stmt.isBranch_purge {s s' : Stmt} {p : Purge} (h : (s.purge inner dead p).rest = some s')
    (hs : (s.isBlock || s.isIf) = true) : (s'.isBlock || s'.isIf) = true := by
  obtain ⟨kind, span, ghost⟩ := s
  obtain ⟨kind', hk, rfl⟩ := Option.map_eq_some_iff.1 h
  cases kind <;> simp [Stmt.isBlock, Stmt.isIf] at hs
  case ifElse guard thenBranch elseBranch =>
    simp only [StmtKind.purge, Reduction.purged] at hk
    split at hk <;> cases hk
    rfl
  case block b =>
    cases hk
    rfl

/-- An `else` branch of which nothing is left is an `else if` with the name in its guard. -/
theorem Stmt.ifElse_of_lost {s : Stmt} {p : Purge} (h : (s.purge inner dead p).rest = none)
    (hs : (s.isBlock || s.isIf) = true) :
    ∃ guard thenBranch elseBranch, s.kind = .ifElse guard thenBranch elseBranch ∧
      dead ∈ Expr.namesOpt guard ∧ (s.purge inner dead p).state.visited = p.visited := by
  obtain ⟨kind, span, ghost⟩ := s
  have hk := Option.map_eq_none_iff.1 h
  cases kind <;> simp [Stmt.isBlock, Stmt.isIf] at hs
  case ifElse guard thenBranch elseBranch =>
    refine ⟨guard, thenBranch, elseBranch, rfl, ?_⟩
    simp only [StmtKind.purge, Stmt.purge, Reduction.purged, Purged.map] at hk ⊢
    split at hk
    · rename_i lost
      exact ⟨Expr.mem_namesOpt_of_lost lost, rfl⟩
    · cases hk
  case block b => cases hk

/-- The branch behind a lost `else if` takes its place as it is; the name is free there only if
the guard and the branch share it. -/
theorem Stmt.cleans_unlinked {V : List Orphan} {s : Stmt} {guard : Option Expr}
    {thenBranch : Block} {elseBranch : Option Stmt}
    (hs : s.kind = .ifElse guard thenBranch elseBranch) (hd : D dead)
    (hg : dead ∈ Expr.namesOpt guard) (fit : (outlineElse (some s)).Fit U D V) :
    Outline.Cleans U dead V V (outlineElse (some s)) (outlineElse elseBranch) := by
  obtain ⟨kind, span, ghost⟩ := s
  obtain ⟨stmts, blockSpan⟩ := thenBranch
  subst hs
  have sub : (outlineElse elseBranch).standing.Sublist
      (outlineElse (some ⟨.ifElse guard ⟨stmts, blockSpan⟩ elseBranch, span, ghost⟩)).standing :=
    List.sublist_append_right _ _
  have shrinks : (outlineElse (some ⟨.ifElse guard ⟨stmts, blockSpan⟩ elseBranch, span,
      ghost⟩)).Shrinks U (outlineElse elseBranch) :=
    { free := .of_subset fun n hn => List.mem_append_right _ (List.mem_append_right _ hn)
      linked := .of_subset fun n hn => List.mem_append_left _ (List.mem_append_right _ hn)
      link := .refl _
      areas := sub.map _
      standing := fun x hx => ⟨x, sub.subset hx, rfl, .refl _⟩
      branched := by
        have branched := fit.branched
        simp only [outlineElse, branchedElse, Stmt.branched, StmtKind.branched,
          Bool.and_eq_true] at branched
        exact branched.1.2 }
  refine ⟨shrinks, fun stays => ?_, fun _ => .inl, fit.settled.shrink shrinks⟩
  refine fit.safe dead (List.mem_append_right _ ?_) hd
  exact List.mem_filter.2 ⟨hg, by simpa [outlineElse] using stays⟩

/-- A declaration is purged without a name being visited: what it declares is adopted later. -/
theorem VarDecl.purge_visited (span : Span) (d : VarDecl) (p : Purge) :
    (d.purge dead span p).state.visited = p.visited := by
  unfold VarDecl.purge
  split
  · rfl
  · split
    · rfl
    · split <;> rfl

theorem Update.purge_visited (u : Update) (p : Purge) :
    (u.purge dead p).state.visited = p.visited := by
  unfold Update.purge
  split <;> rfl

/-- A statement that is built around one part and has no statements in it is clean when the names
in what is left of the part are. -/
theorem Stmt.cleans_part {α : Type} {V V' : List Orphan} {ns : List String} {part : Option α}
    {build : α → StmtKind} {span : Span} {ghost : Bool} (names : α → List String)
    (shape : ∀ a, outline ⟨build a, span, ghost⟩ = .names (names a)) (visited : V' = V)
    (clean : ∀ a, part = some a → ∀ n ∈ names a, n ∈ ns ∧ n ≠ dead) :
    Outline.Cleans U dead V V' (.names ns)
      (outlineOpt ((part.map build).map fun kind => ⟨kind, span, ghost⟩)) := by
  subst visited
  cases part with
  | none => exact .lost
  | some a =>
    change Outline.Cleans U dead V' V' _ (outline ⟨build a, span, ghost⟩)
    rw [shape]
    exact .names (clean a rfl)

/-- A statement without statements in it that is left or goes as a whole is clean when it goes for
every name that may not be left. -/
theorem Stmt.cleans_whole {V : List Orphan} {ns ns' : List String} {goes : Bool}
    {kind : StmtKind} {span : Span} {ghost : Bool}
    (shape : outline ⟨kind, span, ghost⟩ = .names ns')
    (clean : goes = false → ∀ n ∈ ns', n ∈ ns ∧ n ≠ dead) :
    Outline.Cleans U dead V V (.names ns)
      (outlineOpt ((if goes then none else some kind).map fun kind => ⟨kind, span, ghost⟩)) := by
  cases goes with
  | true => exact .lost
  | false =>
    change Outline.Cleans U dead V V _ (outline ⟨kind, span, ghost⟩)
    rw [shape]
    exact .names (clean rfl)

mutual
/-- What is left of a statement is clean. -/
theorem Stmt.cleans_purge (hi : Cleansing U D dead fuel inner) (hg : Growing inner)
    (hd : D dead) : (s : Stmt) → ∀ p : Purge, s.outline.areas.length ≤ fuel →
    s.outline.Fit U D p.visited → (s.purge inner dead p).state.Within D →
    Outline.Cleans U dead p.visited (s.purge inner dead p).state.visited s.outline
      (outlineOpt (s.purge inner dead p).rest)
  | ⟨.varDecl d, span, ghost⟩, p, small, fit, hp =>
    Stmt.cleans_part VarDecl.valueNames (fun _ => rfl) (VarDecl.purge_visited span d p)
      fun _ left _ hn => VarDecl.names_purge left hn
  | ⟨.update u, span, ghost⟩, p, small, fit, hp =>
    Stmt.cleans_part Update.names (fun _ => rfl) (Update.purge_visited u p)
      fun _ left _ hn => Update.names_purge left hn
  | ⟨.expr e, span, ghost⟩, p, small, fit, hp =>
    Stmt.cleans_part Expr.names (fun _ => rfl) rfl fun _ left _ hn => (Expr.reduces left).names hn
  | ⟨.ret values, span, ghost⟩, p, small, fit, hp =>
    Stmt.cleans_part Expr.namesList (fun _ => rfl) rfl fun _ left _ hn =>
      (Expr.reduces_list left).names hn
  | ⟨.ifElse guard ⟨stmts, blockSpan⟩ elseBranch, span, ghost⟩, p, small, fit, hp => by
    have shape : Stmt.outline ⟨.ifElse guard ⟨stmts, blockSpan⟩ elseBranch, span, ghost⟩ =
        .guarded ((Expr.namesOpt guard).filter (· ∈ freeOpt elseBranch))
          (.names (Expr.namesOpt guard) ++ (outlineList stmts ++ outlineElse elseBranch)) := rfl
    rw [shape] at fit ⊢
    change ((outlineList stmts ++ outlineElse elseBranch).areas).length ≤ fuel at small
    rw [Outline.areas_append, List.length_append] at small
    simp only [Stmt.purge, StmtKind.purge, Purged.map, Reduction.purged] at hp ⊢
    split at hp
    · exact .lost
    · rename_i guard' reduced
      have behind := fit.guardless.right
      have first := hi stmts (p.countCollapsed (Expr.reduceOpt dead guard).collapsed) (by omega)
        behind.left ((grows_purgeElse hg elseBranch _).within hp)
      have second := Stmt.cleans_purgeElse hi hg hd elseBranch _ (by omega) (behind.next first) hp
      have clean := Outline.Cleans.append fit.guardless
        (fun _ => .names fun n hn => Expr.names_reduceOpt reduced hn)
        fun fit => .append fit (fun _ => first) fun _ => second
      refine clean.guarded fun n hn => ?_
      obtain ⟨inGuard, inElse⟩ := List.mem_filter.1 hn
      rcases second.shrinks.free n (of_decide_eq_true inElse) with old | allowed
      · refine .inl (List.mem_filter.2 ⟨(Expr.names_reduceOpt reduced inGuard).1, ?_⟩)
        exact decide_eq_true old
      · exact .inr allowed
  | ⟨.whileLoop guard invariants decreases ⟨stmts, blockSpan⟩, span, ghost⟩, p, small, fit, hp => by
    change (Outline.names (Expr.namesOpt guard ++
      (Expr.namesList invariants ++ Expr.namesList decreases)) ++ outlineList stmts).Fit U D _ at fit
    simp only [Stmt.purge, StmtKind.purge, Purged.map, Reduction.purged] at hp ⊢
    split at hp
    · exact .lost
    · rename_i guard' reduced
      refine Outline.Cleans.append fit (fun _ => .names ?_) fun fit =>
        hi stmts (p.countCollapsed _) small fit hp
      intro n hn
      simp only [List.mem_append] at hn ⊢
      rcases hn with hn | hn | hn
      · exact (Expr.names_reduceOpt reduced hn).imp_left .inl
      · exact (Expr.names_without hn).imp_left (.inr ∘ .inl)
      · exact (Expr.names_without hn).imp_left (.inr ∘ .inr)
  | ⟨.forLoop index start stop ascending invariants ⟨stmts, blockSpan⟩, span, ghost⟩, p, small,
      fit, hp => by
    change (Outline.names (start.names ++ Expr.namesOpt stop) ++
      (Outline.names (Expr.namesList invariants) ++ outlineList stmts).binding
        [index.name]).Fit U D _ at fit
    simp only [Stmt.purge, StmtKind.purge, Purged.map, Reduction.purged] at hp ⊢
    split at hp
    · exact .lost
    · rename_i start' stop' reduced
      obtain ⟨first, second⟩ := Reduction.both_rest reduced
      have bounds : ∀ n ∈ start'.names ++ Expr.namesOpt stop',
          n ∈ start.names ++ Expr.namesOpt stop ∧ n ≠ dead := by
        intro n hn
        simp only [List.mem_append] at hn ⊢
        rcases hn with hn | hn
        · exact ((Expr.reduces first).names hn).imp_left .inl
        · exact (Expr.names_reduceOpt second hn).imp_left .inr
      by_cases same : index.name = dead
      · simp only [if_pos same] at hp ⊢
        refine Outline.Cleans.append fit (fun _ => .names bounds) fun fit => .same fit ?_
        simp [Outline.binding, same]
      · simp only [if_neg same] at hp ⊢
        exact Outline.Cleans.append fit (fun _ => .names bounds) fun fit =>
          .binding _ (.append fit.bound (fun _ => .names fun n hn => Expr.names_without hn)
            fun fit => hi stmts (p.countCollapsed _) small fit hp)
  | ⟨.breakLoop, span, ghost⟩, p, small, fit, hp => .same fit List.not_mem_nil
  | ⟨.continueLoop, span, ghost⟩, p, small, fit, hp => .same fit List.not_mem_nil
  | ⟨.block ⟨stmts, blockSpan⟩, span, ghost⟩, p, small, fit, hp => hi stmts p small fit hp
  | ⟨.matchOn source cases, span, ghost⟩, p, small, fit, hp => by
    change (Outline.names source.names ++ MatchCase.outlineList cases).Fit U D _ at fit
    simp only [Stmt.purge, StmtKind.purge, Purged.map, Reduction.purged] at hp ⊢
    split at hp
    · exact .lost
    · rename_i source' reduced
      exact Outline.Cleans.append fit
        (fun _ => .names fun n hn => (Expr.reduces reduced).names hn) fun fit =>
          MatchCase.cleans_purgeList hi hg cases (p.countCollapsed _) small fit hp
  | ⟨.assert e, span, ghost⟩, p, small, fit, hp =>
    Stmt.cleans_whole rfl fun free _ hn => ⟨hn, Expr.ne_of_mentions free hn⟩
  | ⟨.assume e, span, ghost⟩, p, small, fit, hp =>
    Stmt.cleans_whole rfl fun free _ hn => ⟨hn, Expr.ne_of_mentions free hn⟩
  | ⟨.print args, span, ghost⟩, p, small, fit, hp =>
    Stmt.cleans_whole rfl fun _ _ hn => Stmt.names_reduceArgs hn

/-- What is left of an `else` branch is clean. -/
theorem Stmt.cleans_purgeElse (hi : Cleansing U D dead fuel inner) (hg : Growing inner)
    (hd : D dead) : (s : Option Stmt) → ∀ p : Purge, (outlineElse s).areas.length ≤ fuel →
    (outlineElse s).Fit U D p.visited → (purgeElse inner dead s p).state.Within D →
    Outline.Cleans U dead p.visited (purgeElse inner dead s p).state.visited (outlineElse s)
      (outlineElse (purgeElse inner dead s p).rest)
  | none, p, small, fit, hp => .same fit (by simp [outlineElse, freeOpt])
  | some branch, p, small, fit, hp => by
    obtain ⟨branched, formed⟩ := Bool.and_eq_true_iff.1 fit.branched
    have clean := Stmt.cleans_purge hi hg hd branch p small
      ⟨fun n hn => fit.safe n (List.mem_append_left _ hn), branched, fit.apart, fit.settled⟩ hp
    simp only [purgeElse] at hp ⊢
    cases rest : (branch.purge inner dead p).rest with
    | none =>
      obtain ⟨guard, thenBranch, elseBranch, kind, mem, visited⟩ := ifElse_of_lost rest formed
      rw [visited, Option.none_or, show branch.elseBranch? = elseBranch by simp [elseBranch?, kind]]
      exact Stmt.cleans_unlinked kind hd mem fit
    | some branch' =>
      rw [rest] at clean
      have formed' := isBranch_purge rest formed
      exact
        { shrinks :=
            { clean.shrinks with
              linked := clean.shrinks.linked.append clean.shrinks.link
              link := .refl _
              branched := Bool.and_eq_true_iff.2 ⟨clean.shrinks.branched, formed'⟩ }
          gone := clean.gone
          fresh := clean.fresh
          settled := clean.settled }
end

variable (dead) in
/-- Every local of a declaration is left, or its name is lost. -/
theorem VarDecl.mem_reduceLocals_or {pairs : List (Variable × Expr × Expr)}
    {pair : Variable × Expr × Expr} (h : pair ∈ pairs) :
    pair.1.name ∈ (VarDecl.reduceLocals dead pairs).1.map (·.1.name) ∨
      pair.1.name ∈ (VarDecl.reduceLocals dead pairs).2.1 := by
  induction pairs with
  | nil => cases h
  | cons first pairs ih =>
    obtain ⟨v, target, value⟩ := first
    simp only [VarDecl.reduceLocals]
    rcases List.mem_cons.1 h with rfl | h
    · split <;> simp
    · have later := ih h
      split
      · exact later.imp_left (List.mem_cons_of_mem _)
      · exact later.imp_right (List.mem_cons_of_mem _)

/-- The orphans of a declaration lie where it stands. -/
theorem VarDecl.orphans_purge {span : Span} {d : VarDecl} {p : Purge} {orphan : Orphan}
    (h : orphan ∈ (d.purge dead span p).orphans) : orphan.2 = span := by
  unfold VarDecl.purge at h
  split at h
  · cases h
  · split at h
    · obtain ⟨n, -, rfl⟩ := List.mem_map.1 h
      rfl
    · split at h
      · obtain ⟨n, -, rfl⟩ := List.mem_map.1 h
        rfl
      · cases h

/-- A local that a declaration loses is an orphan. -/
theorem VarDecl.mem_orphans_purge {span : Span} {d : VarDecl} {p : Purge} {n : String}
    (hn : n ∈ d.names) (lost : ∀ d', (d.purge dead span p).rest = some d' → n ∉ d'.names) :
    (n, span) ∈ (d.purge dead span p).orphans := by
  obtain ⟨locals, init⟩ := d
  unfold VarDecl.purge at lost ⊢
  cases init with
  | none => exact absurd hn (lost _ rfl)
  | some init =>
    dsimp only at lost ⊢
    by_cases aligned : VarDecl.isAligned ⟨locals, some init⟩ init
    · rw [if_pos aligned] at lost ⊢
      dsimp only at lost ⊢
      obtain ⟨v, hv, rfl⟩ := List.mem_map.1 hn
      simp only [VarDecl.isAligned, Update.isParallel, Bool.and_eq_true, beq_iff_eq] at aligned
      have whole : (locals.zip (init.targets.zip init.values)).map Prod.fst = locals :=
        List.map_fst_zip (by simp; omega)
      obtain ⟨pair, mem, rfl⟩ := List.mem_map.1 (whole.symm ▸ hv)
      rcases VarDecl.mem_reduceLocals_or dead mem with left | gone
      · have nonempty : (VarDecl.reduceLocals dead
            (locals.zip (init.targets.zip init.values))).1.isEmpty = false := by
          simpa [List.isEmpty_eq_false_iff] using List.ne_nil_of_mem left
        refine absurd ?_ (lost _ (if_neg (by simp [nonempty])))
        simpa [VarDecl.names] using left
      · exact List.mem_map.2 ⟨_, gone, rfl⟩
    · rw [if_neg aligned] at lost ⊢
      split at lost
      · rename_i mentioned
        rw [if_pos mentioned]
        exact List.mem_map_of_mem hn
      · exact absurd hn (lost _ rfl)

mutual
/-- Only declarations leave orphans, since an `else` branch is none. -/
theorem StmtKind.orphans_purge (span : Span) : (kind : StmtKind) → (∀ d, kind ≠ .varDecl d) →
    kind.branched = true → ∀ p : Purge, (kind.purge inner dead span p).orphans = []
  | .varDecl d, other, _, _ => absurd rfl (other d)
  | .update u, _, _, p => by
    simp only [StmtKind.purge, Purged.map, Update.purge]
    split <;> rfl
  | .ifElse guard thenBranch elseBranch, _, branched, p => by
    simp only [StmtKind.purge, Reduction.purged]
    split
    · rfl
    · exact Stmt.orphans_purgeElse elseBranch (Bool.and_eq_true_iff.1 branched).2 _
  | .whileLoop guard invariants decreases body, _, _, p => by
    simp only [StmtKind.purge, Reduction.purged]
    split <;> rfl
  | .forLoop index start stop ascending invariants body, _, _, p => by
    simp only [StmtKind.purge, Reduction.purged]
    split
    · rfl
    · split <;> rfl
  | .matchOn source cases, _, _, p => by
    simp only [StmtKind.purge, Reduction.purged]
    split <;> rfl
  | .expr _, _, _, _ | .ret _, _, _, _ | .breakLoop, _, _, _ | .continueLoop, _, _, _
  | .block _, _, _, _ | .assert _, _, _, _ | .assume _, _, _, _ | .print _, _, _, _ => rfl

/-- A branch is an `if` or a block, neither of which declares a local. -/
theorem Stmt.orphans_purgeElse : (s : Option Stmt) → Stmt.branchedElse s = true →
    ∀ p : Purge, (Stmt.purgeElse inner dead s p).orphans = []
  | none, _, _ => rfl
  | some ⟨kind, span, ghost⟩, branched, p => by
    obtain ⟨inside, formed⟩ := Bool.and_eq_true_iff.1 branched
    refine StmtKind.orphans_purge span kind ?_ inside p
    rintro d rfl
    simp [Stmt.isBlock, Stmt.isIf] at formed
end

/-- What a statement may lose to a purge: its orphans are locals of its own, and a local that is
not one of them is still declared. -/
theorem Stmt.orphans_purge {s : Stmt} (branched : s.branched = true) (p : Purge) :
    (∀ x ∈ (s.purge inner dead p).orphans, x.2 = s.span) ∧
      ∀ n ∈ s.declares, (∀ s', (s.purge inner dead p).rest = some s' → n ∉ s'.declares) →
        (n, s.span) ∈ (s.purge inner dead p).orphans := by
  obtain ⟨kind, span, ghost⟩ := s
  by_cases decl : ∃ d, kind = .varDecl d
  · obtain ⟨d, rfl⟩ := decl
    refine ⟨fun x hx => VarDecl.orphans_purge hx, fun n hn lost => ?_⟩
    refine VarDecl.mem_orphans_purge hn fun d' rest => ?_
    exact lost ⟨.varDecl d', span, ghost⟩ (by simp [purge, StmtKind.purge, Purged.map, rest])
  · have none : (purge inner dead ⟨kind, span, ghost⟩ p).orphans = [] :=
      StmtKind.orphans_purge span kind (fun d h => decl ⟨d, h⟩) branched p
    refine ⟨by simp [none], fun n hn => ?_⟩
    cases kind <;> simp_all [declares]

/-- What stays of a statement keeps its span. -/
theorem Stmt.span_purge {s s' : Stmt} {p : Purge} (h : (s.purge inner dead p).rest = some s') :
    s'.span = s.span := by
  obtain ⟨kind, span, ghost⟩ := s
  obtain ⟨kind', -, rfl⟩ := Option.map_eq_some_iff.1 h
  rfl

/-- The orphans of a statement are purged from the rest of the list one after the other. -/
theorem Purge.adopted_adopt {purge : String → Nat → ListPurge} {limit depth : Nat}
    {area : Pos × Pos} {V : List Orphan} {o : Outline}
    (hc : ∀ z depth, D z → Cleansing U D z fuel (purge z depth))
    (hg : ∀ z depth, Growing (purge z depth)) (fit : o.Fit U D V) (outside : area ∉ o.areas)
    (small : o.areas.length ≤ fuel) {orphans : List Orphan}
    (same : ∀ x ∈ orphans, x.2.area = area) {list : List Stmt} {p : Purge}
    (h : Outline.Adopted U area V p.visited o (Stmt.outlineList list))
    (hp : (adopt limit purge depth orphans list p).2.Within D) :
    Outline.Adopted U area V (adopt limit purge depth orphans list p).2.visited o
        (Stmt.outlineList (adopt limit purge depth orphans list p).1) ∧
      ∀ x ∈ orphans, Seen (adopt limit purge depth orphans list p).2.visited x.1 area := by
  induction orphans generalizing list p with
  | nil => exact ⟨h, by simp⟩
  | cons orphan orphans ih =>
    have ih := @ih fun x hx => same x (List.mem_cons_of_mem _ hx)
    have here := same orphan List.mem_cons_self
    have later := growing_adopt limit depth hg orphans
    simp only [adopt] at hp ⊢
    by_cases deep : limit ≤ depth
    · simp only [if_pos deep] at hp
      cases hp.going
    simp only [if_neg deep] at hp ⊢
    by_cases visited : p.hasVisited orphan
    · simp only [if_pos visited] at hp ⊢
      obtain ⟨x, hx, name, at'⟩ := Purge.hasVisited_iff.1 visited
      obtain ⟨adopted, seen⟩ := ih h hp
      refine ⟨adopted, List.forall_mem_cons.2 ⟨?_, seen⟩⟩
      exact ⟨x, (later list p).visited x hx, name, at'.trans here⟩
    · simp only [visited, Bool.false_eq_true, if_false] at hp ⊢
      have purged := (later _ _).within hp
      have next : ∀ x ∈ (p.takeIn orphan).visited,
          x ∈ p.visited ∨ x.1 = orphan.1 ∧ x.2.area = area := by
        intro x hx
        rcases List.mem_cons.1 hx with rfl | hx
        · exact .inr ⟨rfl, here⟩
        · exact .inl hx
      have deleted : D orphan.1 := ((hg _ _ _ _).within purged).cascaded _
        (List.mem_append_right _ List.mem_cons_self)
      have clean := hc orphan.1 (depth + 1) deleted list (p.takeIn orphan)
        (Nat.le_trans h.shrinks.areas.length_le small) (h.fit fit outside next) purged
      obtain ⟨adopted, seen⟩ := ih (h.cleans outside next clean) hp
      refine ⟨adopted, List.forall_mem_cons.2 ⟨?_, seen⟩⟩
      exact ⟨orphan, (later _ _).visited _ ((hg _ _ _ _).visited _ List.mem_cons_self), rfl, here⟩

/-- The list with what is left of its first statement. -/
theorem Stmt.cleans_left {V V₁ V' : List Orphan} {s : Stmt} {left : Option Stmt}
    {list list' : List Stmt} (fit : (outlineList (s :: list)).Fit U D V)
    (span : ∀ s', left = some s' → s'.span = s.span)
    (first : Outline.Cleans U dead V V₁ s.outline (outlineOpt left))
    (rest : Outline.Adopted U s.span.area V₁ V' (outlineList list) (outlineList list'))
    (lost : ∀ n ∈ s.declares, (∀ s', left = some s' → n ∉ s'.declares) → Seen V' n s.span.area)
    (gone : dead ∉ s.declares → dead ∈ freeList list' → U dead) :
    Outline.Cleans U dead V V' (outlineList (s :: list)) (outlineList (left.toList ++ list')) := by
  rw [outlineList_cons] at fit ⊢
  cases left with
  | none =>
    refine Outline.Cleans.dropped (.before fit first rest (fun n hn _ => ?_) gone) rfl
    exact lost n hn (by simp)
  | some s' =>
    rw [Option.toList_some, List.singleton_append, outlineList_cons, span s' rfl]
    exact .before fit first rest (fun n hn gone => lost n hn (by simpa using gone)) gone

/-- The first step of the purge of a list leaves it clean if the purges of shorter lists do. -/
theorem Purge.cleans_cons {limit depth : Nat} (hd : D dead)
    (hc : ∀ z depth, D z → Cleansing U D z fuel (purgeList limit fuel z depth))
    {s : Stmt} {list : List Stmt} {p : Purge}
    (small : (Stmt.outlineList (s :: list)).areas.length ≤ fuel + 1)
    (fit : (Stmt.outlineList (s :: list)).Fit U D p.visited)
    (hp : (purgeList limit (fuel + 1) dead depth (s :: list) p).2.Within D) :
    Outline.Cleans U dead p.visited
      (purgeList limit (fuel + 1) dead depth (s :: list) p).2.visited
      (Stmt.outlineList (s :: list))
      (Stmt.outlineList (purgeList limit (fuel + 1) dead depth (s :: list) p).1) := by
  rw [Stmt.outlineList_cons, Outline.areas_before, List.length_append, List.length_cons] at small
  rw [Stmt.outlineList_cons] at fit
  have growing := growing_purgeList limit fuel
  have going := ((growing_purgeList limit (fuel + 1) dead depth (s :: list) p).within hp).going
  generalize hr : s.purge (purgeList limit fuel dead depth) dead p = r
  generalize hx : adopt limit (purgeList limit fuel) depth r.orphans list r.counted = x
  rw [purgeList_cons going hr hx rfl] at hp ⊢
  -- the state after the orphans of the statement were taken in, and before
  have adopted : x.2.Within D := by
    dsimp only at hp
    split at hp
    · exact hp
    · exact (growing dead depth _ _).within hp
  have purged : r.counted.Within D := by
    refine (?_ : r.counted.Grows x.2).within adopted
    rw [← hx]
    exact growing_adopt limit depth growing _ _ _
  have first : Outline.Cleans U dead p.visited r.counted.visited s.outline
      (Stmt.outlineOpt r.rest) := by
    subst hr
    rw [Purged.counted_visited]
    exact Stmt.cleans_purge (hc dead depth hd) (growing dead depth) hd s p (by omega) fit.first
      ((Grows.counted _).within purged)
  have own : ∀ o ∈ r.orphans, o.2.area = s.span.area := by
    subst hr
    exact fun o ho => congrArg Span.area ((Stmt.orphans_purge fit.first.branched p).1 o ho)
  obtain ⟨rest, seen⟩ := adopted_adopt hc growing (fit.rest first) fit.outside (by omega) own
    (Outline.Adopted.start fit first) (hx ▸ adopted)
  rw [hx] at rest seen
  have lost : ∀ n ∈ s.declares, (∀ s', r.rest = some s' → n ∉ s'.declares) →
      Seen x.2.visited n s.span.area := by
    subst hr
    exact fun n hn gone => seen _ ((Stmt.orphans_purge fit.first.branched p).2 n hn gone)
  have span : ∀ s', r.rest = some s' → s'.span = s.span := fun s' h => Stmt.span_purge (hr ▸ h)
  by_cases bound : s.declares.contains dead
  · simp only [if_pos bound] at hp ⊢
    exact Stmt.cleans_left fit span first rest lost fun unbound =>
      absurd (List.contains_iff_mem.1 bound) unbound
  · simp only [if_neg bound] at hp ⊢
    have next : ∀ o ∈ x.2.visited, o ∈ x.2.visited ∨ o.1 = dead ∧ o.2.area = s.span.area :=
      fun _ => .inl
    have clean := hc dead depth hd x.1 x.2
      (Nat.le_trans rest.shrinks.areas.length_le (by omega))
      (rest.fit (fit.rest first) fit.outside next) hp
    refine Stmt.cleans_left fit span first (rest.cleans fit.outside next clean)
      (fun n hn gone => ?_) fun _ => clean.gone
    obtain ⟨o, ho, name, area⟩ := lost n hn gone
    exact ⟨o, (growing dead depth _ _).visited o ho, name, area⟩

/-- A list shrinks when its first statement does and the rest is what the first one's orphans left.
-/
theorem Stmt.shrinks_left {V V' : List Orphan} {s : Stmt} {left : Option Stmt}
    {list list' : List Stmt} (span : ∀ s', left = some s' → s'.span = s.span)
    (first : s.outline.Shrinks U (outlineOpt left))
    (rest : Outline.Adopted U s.span.area V V' (outlineList list) (outlineList list'))
    (lost : ∀ n ∈ s.declares, (∀ s', left = some s' → n ∉ s'.declares) → Seen V' n s.span.area) :
    (outlineList (s :: list)).Shrinks U (outlineList (left.toList ++ list')) := by
  rw [outlineList_cons]
  cases left with
  | none =>
    exact Outline.Shrinks.dropped (first.before rest fun n hn _ => lost n hn (by simp)) rfl
  | some s' =>
    rw [Option.toList_some, List.singleton_append, outlineList_cons, span s' rfl]
    exact first.before rest fun n hn gone => lost n hn (by simpa using gone)

/-- A purge cleans every list of at most as many statements as it may visit. -/
theorem Purge.cleansing_purgeList (limit fuel : Nat) (dead : String) (depth : Nat)
    (hd : D dead) : Cleansing U D dead fuel (purgeList limit fuel dead depth) := by
  induction fuel generalizing dead depth with
  | zero =>
    intro list p small fit hp
    cases list with
    | nil => exact .same fit (by simp [Stmt.outlineList, Stmt.freeList])
    | cons s list =>
      rw [Stmt.outlineList_cons, Outline.areas_before] at small
      simp at small
  | succ fuel ih =>
    intro list p small fit hp
    cases list with
    | nil => exact .same fit (by simp [Stmt.outlineList, Stmt.freeList])
    | cons s list => exact Purge.cleans_cons hd (fun z depth hz => ih z depth hz) small fit hp

mutual
/-- Fewer statements stand inside a statement than it weighs. -/
theorem Stmt.standing_length_le : (s : Stmt) → s.standing.length < s.weight
  | ⟨kind, _, _⟩ => Nat.lt_succ_of_le (StmtKind.standing_length_le kind)

/-- One case per form: what stands in its blocks is counted in the weight of the blocks. -/
theorem StmtKind.standing_length_le : (kind : StmtKind) → kind.standing.length ≤ kind.weight
  | .ifElse _ thenBranch elseBranch => by
    have first := Block.standing_length_le thenBranch
    have second := Stmt.standingOpt_length_le elseBranch
    simp only [StmtKind.standing, StmtKind.weight, List.length_append]
    omega
  | .whileLoop _ _ _ body => Block.standing_length_le body
  | .forLoop _ _ _ _ _ body => Block.standing_length_le body
  | .block b => Block.standing_length_le b
  | .matchOn _ cases => MatchCase.standingList_length_le cases
  | .varDecl _ | .update _ | .expr _ | .ret _ | .breakLoop | .continueLoop | .assert _
  | .assume _ | .print _ => Nat.le_refl _

/-- What stands in a block is what stands in its list. -/
theorem Block.standing_length_le : (b : Block) → b.standing.length ≤ b.weight
  | ⟨list, _⟩ => Stmt.standingList_length_le list

/-- The statements of a list, with those inside them, are no more than its weight. -/
theorem Stmt.standingList_length_le :
    (list : List Stmt) → (Stmt.standingList list).length ≤ Stmt.weightList list
  | [] => Nat.le_refl _
  | s :: list => by
    have first := Stmt.standing_length_le s
    have rest := Stmt.standingList_length_le list
    simp only [Stmt.standingList, Stmt.weightList, List.length_append, List.length_cons]
    omega

/-- The same, of a branch that may be absent. -/
theorem Stmt.standingOpt_length_le :
    (s : Option Stmt) → (Stmt.standingOpt s).length ≤ Stmt.weightOpt s
  | none => Nat.le_refl _
  | some s => Nat.le_of_lt (Stmt.standing_length_le s)

/-- The same, of the cases of a match. -/
theorem MatchCase.standingList_length_le :
    (cases : List MatchCase) → (MatchCase.standingList cases).length ≤ MatchCase.weightList cases
  | [] => Nat.le_refl _
  | ⟨_, body, _⟩ :: cases => by
    have first := Stmt.standingList_length_le body
    have rest := MatchCase.standingList_length_le cases
    simp only [MatchCase.standingList, MatchCase.weightList, List.length_append]
    omega
end

/-- The weight of a list bounds the number of its statements that a purge may visit. -/
theorem Stmt.areas_length_le (list : List Stmt) :
    (outlineList list).areas.length ≤ weightList list := by
  simpa [Outline.areas, outlineList] using standingList_length_le list

/-- A pair that goes takes its value along and leaves the others. -/
theorem Update.mem_values_erasePair {u : Update} {k : Nat} {e : Expr}
    (h : e ∈ (u.erasePair k).values) : e ∈ u.values := by
  unfold Update.erasePair at h
  split at h
  · exact List.mem_of_mem_eraseIdx h
  · exact h

/-- What is left of a declaration without one of its locals has no value that was not there. -/
theorem VarDecl.names_drop {name : String} {d d' : VarDecl} (h : (d.drop name).1 = some d')
    {n : String} (hn : n ∈ d'.valueNames) : n ∈ d.valueNames := by
  obtain ⟨locals, init⟩ := d
  unfold VarDecl.drop at h
  split at h
  · cases h
    exact hn
  · cases init with
    | none =>
      dsimp only at h
      split at h <;> cases h
      cases hn
    | some init =>
      dsimp only at h
      split at h
      · dsimp only at h
        split at h <;> cases h
        simp only [VarDecl.valueNames, Expr.namesList_eq, List.mem_flatMap] at hn ⊢
        obtain ⟨e, he, hn⟩ := hn
        exact ⟨e, Update.mem_values_erasePair he, hn⟩
      · cases h

/-- A local that is lost beside the deleted one is an orphan. -/
theorem VarDecl.mem_orphans_drop {name : String} {d : VarDecl} {n : String} (hn : n ∈ d.names)
    (other : n ≠ name) (lost : ∀ d', (d.drop name).1 = some d' → n ∉ d'.names) :
    n ∈ (d.drop name).2 := by
  obtain ⟨locals, init⟩ := d
  unfold VarDecl.drop at lost ⊢
  cases found : locals.findIdx? fun v => v.name == name with
  | none =>
    simp only [found] at lost
    exact absurd hn (lost _ rfl)
  | some k =>
    have kept : n ∈ (locals.eraseIdx k).map (·.name) := by
      obtain ⟨v, hv, rfl⟩ := List.mem_map.1 hn
      obtain ⟨i, hi, rfl⟩ := List.mem_iff_getElem.1 hv
      obtain ⟨hk, same, -⟩ := List.findIdx?_eq_some_iff_getElem.1 found
      refine List.mem_map_of_mem (List.mem_eraseIdx_iff_getElem.2 ⟨i, hi, ?_, rfl⟩)
      rintro rfl
      exact other (beq_iff_eq.1 same)
    have left : (locals.eraseIdx k).isEmpty = false := by
      rw [List.isEmpty_eq_false_iff]
      rintro empty
      simp [empty] at kept
    simp only [found, left] at lost ⊢
    cases init with
    | none => exact absurd kept (lost _ rfl)
    | some init =>
      dsimp only at lost ⊢
      split at lost
      · exact absurd kept (lost _ rfl)
      · rename_i unaligned
        rw [if_neg unaligned]
        simpa [other] using hn

/-- A deletion purges the local from the statements behind its declaration, then the other locals
that the declaration has lost. -/
theorem Purge.exists_deleteLocal (limit : Nat) (name : String) (d : VarDecl) (span : Span)
    (ghost : Bool) (list : List Stmt) :
    ∃ p : Purge, p.visited = [(name, span)] ∧ p.exhausted = false ∧
      let x := purgeList limit (Stmt.weightList list) name 0 list p
      let y := adopt limit (purgeList limit (Stmt.weightList list)) 0
        ((d.drop name).2.map fun n => (n, span)) x.1 x.2
      deleteLocal limit name ⟨.varDecl d, span, ghost⟩ list =
        (((d.drop name).1.map fun d => ⟨.varDecl d, span, ghost⟩).toList ++ y.1, y.2) := by
  refine ⟨_, ?_, ?_, rfl⟩
  · rw [apply_ite Purge.visited]
    exact ite_self _
  · rw [apply_ite Purge.exhausted]
    exact ite_self _

/-- Deleting a local from its declaration and from the statements behind it. -/
theorem Purge.shrinks_deleteLocal {limit : Nat} {name : String} {s : Stmt} {list : List Stmt}
    (hd : D name) (declares : name ∈ s.declares) (fit : (Stmt.outlineList (s :: list)).Fit U D [])
    (hp : (deleteLocal limit name s list).2.Within D) :
    (Stmt.outlineList (s :: list)).Shrinks U
      (Stmt.outlineList (deleteLocal limit name s list).1) := by
  obtain ⟨kind, span, ghost⟩ := s
  obtain ⟨d, rfl⟩ : ∃ d, kind = .varDecl d := by
    cases kind <;> simp_all [Stmt.declares]
  obtain ⟨p, visited, -, eq⟩ := exists_deleteLocal limit name d span ghost list
  rw [Stmt.outlineList_cons] at fit
  rw [eq] at hp ⊢
  have growing := growing_purgeList limit (Stmt.weightList list)
  have adopting := growing_adopt limit 0 growing ((d.drop name).2.map fun n => (n, span))
  have start : Outline.Adopted U span.area [] [] (Stmt.outlineList list) (Stmt.outlineList list) :=
    .start fit (.lost : Outline.Cleans U name _ _ _ _)
  have next : ∀ o ∈ p.visited, o ∈ [] ∨ o.1 = name ∧ o.2.area = span.area := by
    simp [visited]
  have clean := cleansing_purgeList limit (Stmt.weightList list) name 0 hd list p
    (Stmt.areas_length_le list) (start.fit fit.behind fit.outside next)
    ((adopting _ _).within hp)
  obtain ⟨rest, seen⟩ := adopted_adopt
    (fun z depth => cleansing_purgeList limit (Stmt.weightList list) z depth) growing fit.behind
    fit.outside (Stmt.areas_length_le list) (by simp)
    (start.cleans fit.outside next clean) hp
  refine Stmt.shrinks_left (by simp) ?_ rest fun n hn lost => ?_
  · cases left : (d.drop name).1 with
    | none => exact .lost
    | some d' =>
      exact
        { free := .of_subset fun n hn => VarDecl.names_drop left hn
          linked := .refl _
          link := .refl _
          areas := .refl _
          standing := by simp [Stmt.outlineOpt, Stmt.outline, Stmt.standing, StmtKind.standing]
          branched := rfl }
  · by_cases same : n = name
    · subst same
      exact ⟨(n, span), (adopting _ _).visited _ ((growing _ _ _ _).visited _ (by simp [visited])),
        rfl, rfl⟩
    · refine seen (n, span) (List.mem_map_of_mem (VarDecl.mem_orphans_drop hn same fun d' h => ?_))
      exact lost ⟨.varDecl d', span, ghost⟩ (by simp [h])

/-- A list that is fit for a purge is fit from any of its statements on. -/
theorem Stmt.fit_suffix {V : List Orphan} (front : List Stmt) {list : List Stmt}
    (h : (outlineList (front ++ list)).Fit U D V) : (outlineList list).Fit U D V := by
  induction front with
  | nil => exact h
  | cons s front ih =>
    rw [List.cons_append, outlineList_cons] at h
    exact ih h.behind

/-- Statements in front of those that narrowed add the same free names to both. -/
theorem Stmt.narrows_front (front : List Stmt) {list list' : List Stmt}
    (h : Narrows U (freeList list) (freeList list')) :
    Narrows U (freeList (front ++ list)) (freeList (front ++ list')) := by
  induction front with
  | nil => exact h
  | cons s front ih => exact (Narrows.refl s.free).append ih.filter

end

/-- The locals that a note says were deleted. -/
def Note.deleted : Note → List String
  | .variableDeleted name _ _ _ cascaded => name :: cascaded
  | _ => []

/-- Before anything is purged, a list with its statements apart is fit, where the names that its
links read are allowed to stay. -/
theorem Stmt.fit_start {list : List Stmt} (D : String → Prop) (apart : Apart list)
    (branched : branchedList list = true) :
    (outlineList list).Fit (fun n => n ∈ linkedList list ∧ D n) D [] where
  safe := fun _ linked deleted => ⟨linked, deleted⟩
  branched := branched
  apart := apart
  settled := by simp [Outline.Settled, Seen]

/-- Only a deleted name can be newly free, and only if the guard of an `else if` and the branch
behind it share it. -/
theorem Stmt.free_deleteVariable {site : Site} {x : String} {list list' : List Stmt} {span : Span}
    {notes : List Note} (apart : Apart list) (branched : branchedList list = true)
    (done : deleteVariable site x list = (.done (list', span), notes)) :
    Narrows (fun n => n ∈ linkedList list ∧ n ∈ notes.flatMap Note.deleted) (freeList list)
      (freeList list') := by
  unfold deleteVariable at done
  split at done
  · cases done
  · rename_i front s after found
    obtain ⟨rfl, target⟩ := splitAtFirst_eq_some found
    dsimp only at done
    split at done
    · cases done
    · rename_i going
      obtain ⟨first, noted⟩ := Prod.mk.inj done
      obtain ⟨rfl, -⟩ := Prod.mk.inj (Outcome.done.inj first)
      have fit := fit_suffix front
        (fit_start (fun n => n ∈ notes.flatMap Note.deleted) apart branched)
      refine narrows_front front (Purge.shrinks_deleteLocal ?_ ?_ fit ⟨?_, ?_⟩).free
      · simp [← noted, Note.deleted]
      · exact List.contains_iff_mem.1 (Bool.and_eq_true_iff.1 target).2
      · simpa using going
      · intro z hz
        simp [← noted, Note.deleted, hz]

/-- A deletion leaves no dangling name exactly when it leaves none that the guard of an `else if`
shares with the branch behind it. -/
theorem Stmt.deleteVariable_free_iff {site : Site} {x : String} {list list' : List Stmt}
    {span : Span} {notes : List Note} (apart : Stmt.Apart list)
    (branched : Stmt.branchedList list = true)
    (done : Stmt.deleteVariable site x list = (.done (list', span), notes)) :
    (∀ n ∈ Stmt.freeList list', n ∈ Stmt.freeList list) ↔
      ∀ n ∈ Stmt.linkedList list, n ∈ notes.flatMap Note.deleted →
        n ∈ Stmt.freeList list' → n ∈ Stmt.freeList list := by
  constructor
  · exact fun h n _ _ hn => h n hn
  · intro h n hn
    rcases Stmt.free_deleteVariable apart branched done n hn with old | ⟨linked, deleted⟩
    · exact old
    · exact h n linked deleted hn

/-- A local, another that depends on it, and a read of the other one. -/
def Stmt.following : List Stmt :=
  [⟨.varDecl (.withInit [⟨"x", .int, .token 2, false⟩] [⟨.literal .null, .token 3, .int⟩]),
      .range 1 4, false⟩,
    ⟨.varDecl (.withInit [⟨"y", .int, .token 6, false⟩] [⟨.name "x", .token 7, .int⟩]),
      .range 5 8, false⟩,
    ⟨.print [⟨.name "c", .token 10, .int⟩, ⟨.name "y", .token 11, .int⟩], .range 9 12, false⟩]

/-- A local with one dependent: both go, and neither is free in what stays. -/
theorem Stmt.following_deleteVariable :
    Stmt.deleteVariable ⟨.range 1 4, none, 64, {}⟩ "x" following =
        (.done ([⟨.print [⟨.name "c", .token 10, .int⟩], .range 9 12, false⟩], .range 1 4),
          [.variableDeleted "x" .statementsDeleted 2 0 ["y"]]) ∧
      ∀ n ∈ Stmt.freeList [⟨.print [⟨.name "c", .token 10, .int⟩], .range 9 12, false⟩],
        n ∈ Stmt.freeList following := by
  have done : Stmt.deleteVariable ⟨.range 1 4, none, 64, {}⟩ "x" following =
      (.done ([⟨.print [⟨.name "c", .token 10, .int⟩], .range 9 12, false⟩], .range 1 4),
        [.variableDeleted "x" .statementsDeleted 2 0 ["y"]]) := rfl
  refine ⟨done, (Stmt.deleteVariable_free_iff (by decide) rfl done).2 ?_⟩
  intro n linked
  cases linked

/-- A local that is the guard of an `else if` and is read in the branch behind it. -/
def Stmt.guarding : List Stmt :=
  [⟨.varDecl (.withInit [⟨"x", .int, .token 2, false⟩] [⟨.literal (.int (.ofByte 1)), .token 3, .int⟩]),
      .range 1 4, false⟩,
    ⟨.ifElse (some ⟨.name "c", .token 6, .bool⟩) ⟨[], .range 7 8⟩
      (some ⟨.ifElse
        (some ⟨.binary .gt ⟨.name "x", .token 12, .int⟩ ⟨.literal (.int .zero), .token 14, .int⟩,
          ⟨12, 14, 13⟩, .bool⟩) ⟨[], .range 15 16⟩
        (some ⟨.block ⟨[⟨.print [⟨.name "x", .token 20, .int⟩], .range 19 21, false⟩],
          .range 18 22⟩, .range 18 22, false⟩), .range 11 22, false⟩), .range 5 22, false⟩]

/-- The `else if` goes with its guard, and the read of the deleted local takes its place. -/
theorem Stmt.guarding_deleteVariable :
    Stmt.Apart guarding ∧ Stmt.branchedList guarding = true ∧
      ∃ list' span notes, Stmt.deleteVariable ⟨.range 1 4, none, 64, {}⟩ "x" guarding =
          (.done (list', span), notes) ∧
        "x" ∈ Stmt.freeList list' ∧ "x" ∉ Stmt.freeList guarding :=
  ⟨by decide, rfl, _, _, _, rfl, by decide, by decide⟩

end Mutation
