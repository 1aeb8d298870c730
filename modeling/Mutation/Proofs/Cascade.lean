import Mutation.Proofs.Deletion

/-!
# How far a deletion cascades

A deletion gives up on an orphan that lies deeper than its limit. Every step down takes in one
more local, and every local taken in is one that the list has lost, so what a purge takes in and
what it leaves never add up to more locals than there were (`Purge.Spends`). A list with no more
locals than the limit and one therefore never exhausts a deletion
(`Stmt.deleteVariable_exhausted`).
-/

namespace Mutation

mutual
/-- The number of locals that a statement declares, at any depth. -/
def Stmt.localCount : Stmt → Nat
  | ⟨kind, _, _⟩ => kind.localCount

def StmtKind.localCount : StmtKind → Nat
  | .varDecl d => d.locals.length
  | .ifElse _ thenBranch elseBranch => thenBranch.localCount + Stmt.localCountOpt elseBranch
  | .whileLoop _ _ _ body => body.localCount
  | .forLoop _ _ _ _ _ body => body.localCount
  | .block b => b.localCount
  | .matchOn _ cases => MatchCase.localCountList cases
  | .update _ | .expr _ | .ret _ | .breakLoop | .continueLoop | .assert _ | .assume _
  | .print _ => 0

def Block.localCount : Block → Nat
  | ⟨list, _⟩ => Stmt.localCountList list

def Stmt.localCountList : List Stmt → Nat
  | [] => 0
  | s :: list => s.localCount + Stmt.localCountList list

def Stmt.localCountOpt : Option Stmt → Nat
  | none => 0
  | some s => s.localCount

/-- The number of locals that are declared in the bodies of some cases. -/
def MatchCase.localCountList : List MatchCase → Nat
  | [] => 0
  | ⟨_, body, _⟩ :: cases => Stmt.localCountList body + MatchCase.localCountList cases
end

theorem Stmt.localCountList_append (front list : List Stmt) :
    Stmt.localCountList (front ++ list) = Stmt.localCountList front + Stmt.localCountList list := by
  induction front with
  | nil => simp [Stmt.localCountList]
  | cons s front ih => simp [Stmt.localCountList, ih, Nat.add_assoc]

theorem Stmt.localCountList_toList (s : Option Stmt) :
    Stmt.localCountList s.toList = Stmt.localCountOpt s := by
  cases s <;> rfl

/-- A purge at some depth has turned code with `n` locals into code with `n'` of them. It has taken
in no more than was lost, and gives up only when there were more than its limit and one. -/
structure Purge.Spends (limit depth n n' : Nat) (p p' : Purge) : Prop where
  grows : p.visited.length ≤ p'.visited.length
  pays : n' + p'.visited.length ≤ n + p.visited.length
  deep : depth < p.visited.length → p'.exhausted = true →
    p.exhausted = true ∨ limit + 1 < n + p.visited.length

namespace Purge.Spends

variable {limit depth n n' n'' : Nat} {p q r : Purge}

theorem idle (visited : q.visited = p.visited) (exhausted : q.exhausted = p.exhausted)
    (h : n' ≤ n) : Spends limit depth n n' p q where
  grows := Nat.le_of_eq (by rw [visited])
  pays := by rw [visited]; omega
  deep := fun _ hq => .inl (exhausted ▸ hq)

theorem refl (limit depth n : Nat) (p : Purge) : Spends limit depth n n p p :=
  .idle rfl rfl (Nat.le_refl n)

theorem trans (h : Spends limit depth n n' p q) (h' : Spends limit depth n' n'' q r) :
    Spends limit depth n n'' p r where
  grows := Nat.le_trans h.grows h'.grows
  pays := Nat.le_trans h'.pays h.pays
  deep := fun start hr => by
    rcases h'.deep (Nat.lt_of_lt_of_le start h.grows) hr with hq | many
    · exact h.deep start hq
    · exact .inr (Nat.lt_of_lt_of_le many h.pays)

/-- Code beside the purged code stays as it is. -/
theorem beside (h : Spends limit depth n n' p q) (k : Nat) :
    Spends limit depth (n + k) (n' + k) p q where
  grows := h.grows
  pays := by have := h.pays; omega
  deep := fun start hq => (h.deep start hq).imp_right fun many => by omega

theorem append {k k' : Nat} (h : Spends limit depth n n' p q)
    (h' : Spends limit depth k k' q r) : Spends limit depth (n + k) (n' + k') p r := by
  have second := h'.beside n'
  rw [Nat.add_comm k, Nat.add_comm k'] at second
  exact (h.beside k).trans second

theorem weaken (h : Spends limit depth n' n'' p q) (more : n' ≤ n) :
    Spends limit depth n n'' p q :=
  (idle rfl rfl more : Spends limit depth n n' p p).trans h

/-- An orphan is paid for by a local that was lost. -/
theorem takeIn {orphan : Orphan} (h : Spends limit (depth + 1) n n' (p.takeIn orphan) q) :
    Spends limit depth (n + 1) n' p q where
  grows := Nat.le_trans (Nat.le_succ _) h.grows
  pays := by
    have := h.pays
    simp only [Purge.takeIn, List.length_cons] at this
    omega
  deep := fun start hq => by
    refine (h.deep (Nat.succ_lt_succ start) hq).imp id fun many => ?_
    simp only [Purge.takeIn, List.length_cons] at many
    omega

theorem exhaust {name : String} (deeper : limit ≤ depth) (h : n' < n) :
    Spends limit depth n n' p (p.exhaust name depth) where
  grows := Nat.le_refl _
  pays := Nat.add_le_add_right (Nat.le_of_lt h) _
  deep := fun start _ => .inr (by omega)

theorem collapsed {k : Nat} (h : Spends limit depth n n' (p.countCollapsed k) q) :
    Spends limit depth n n' p q :=
  (idle rfl rfl (Nat.le_refl n) : Spends limit depth n n p (p.countCollapsed k)).trans h

theorem counted {α : Type} {s : Purged α} (h : Spends limit depth n n' p s.state) :
    Spends limit depth n n' p s.counted := by
  refine h.trans (.idle (Purged.counted_visited s) ?_ (Nat.le_refl _))
  unfold Purged.counted
  split <;> rfl

end Purge.Spends

/-- A purge of lists that pays for what it takes in. -/
def Spending (limit depth : Nat) (inner : ListPurge) : Prop :=
  ∀ (list : List Stmt) (p : Purge), Purge.Spends limit depth (Stmt.localCountList list)
    (Stmt.localCountList (inner list p).1) p (inner list p).2

section

variable {limit depth : Nat} {inner : ListPurge} {dead : String} {p : Purge}

theorem Block.spends_purge (hi : Spending limit depth inner) (b : Block) (p : Purge) :
    Purge.Spends limit depth b.localCount (b.purge inner p).1.localCount p
      (b.purge inner p).2 := by
  obtain ⟨list, span⟩ := b
  exact hi list p

theorem MatchCase.spends_purgeList (hi : Spending limit depth inner) (cases : List MatchCase)
    (p : Purge) : Purge.Spends limit depth (MatchCase.localCountList cases)
      (MatchCase.localCountList (MatchCase.purgeList inner dead cases p).1) p
      (MatchCase.purgeList inner dead cases p).2 := by
  induction cases generalizing p with
  | nil => exact .refl _ _ _ p
  | cons c cases ih =>
    obtain ⟨pattern, body, span⟩ := c
    simp only [MatchCase.purgeList]
    split
    · exact (Purge.Spends.refl _ _ _ p).append (ih p)
    · exact (hi body p).append (ih _)

theorem VarDecl.length_reduceLocals (dead : String) (pairs : List (Variable × Expr × Expr)) :
    (VarDecl.reduceLocals dead pairs).1.length + (VarDecl.reduceLocals dead pairs).2.1.length =
      pairs.length := by
  induction pairs with
  | nil => rfl
  | cons pair pairs ih =>
    obtain ⟨v, target, value⟩ := pair
    rcases rest : VarDecl.reduceLocals dead pairs with ⟨left, lost, n⟩
    simp only [rest] at ih
    simp only [VarDecl.reduceLocals, rest]
    split <;> simp only [List.length_cons] <;> omega

/-- The locals of a declaration stay or become orphans. -/
theorem VarDecl.length_purge (dead : String) (span : Span) (d : VarDecl) (p : Purge) :
    ((d.purge dead span p).rest.elim 0 fun d => d.locals.length) +
      (d.purge dead span p).orphans.length ≤ d.locals.length := by
  obtain ⟨locals, init⟩ := d
  cases init with
  | none => exact Nat.le_refl _
  | some init =>
    simp only [VarDecl.purge]
    split
    · have parts := VarDecl.length_reduceLocals dead (locals.zip (init.targets.zip init.values))
      have pairs : (locals.zip (init.targets.zip init.values)).length ≤ locals.length := by
        rw [List.length_zip]
        exact Nat.min_le_left _ _
      rcases eq : VarDecl.reduceLocals dead (locals.zip (init.targets.zip init.values)) with
        ⟨left, lost, n⟩
      simp only [eq] at parts
      cases left with
      | nil =>
        simp only [List.isEmpty_nil, if_true, Option.elim_none, List.length_map] at parts ⊢
        simp only [List.length_nil] at parts
        omega
      | cons first left =>
        simp only [List.isEmpty_cons, Bool.false_eq_true, if_false, Option.elim_some,
          List.length_map]
        omega
    · split
      · simp [VarDecl.names]
      · exact Nat.le_refl _

theorem VarDecl.purge_exhausted (span : Span) (d : VarDecl) (p : Purge) :
    (d.purge dead span p).state.exhausted = p.exhausted := by
  unfold VarDecl.purge
  split
  · rfl
  · split
    · rfl
    · split <;> rfl

/-- What is left of an assignment, of a clause or of a condition declares nothing. -/
theorem StmtKind.spends_leaf {s : Purged StmtKind} {n : Nat}
    (none : ∀ k ∈ s.rest, k.localCount = 0) (orphans : s.orphans = [])
    (visited : s.state.visited = p.visited) (exhausted : s.state.exhausted = p.exhausted) :
    Purge.Spends limit depth n (s.rest.elim 0 StmtKind.localCount + s.orphans.length) p
      s.state := by
  refine .idle visited exhausted ?_
  rw [orphans]
  cases left : s.rest with
  | none => exact Nat.zero_le _
  | some kind => simp [none kind left]

mutual
/-- What is left of a statement and its orphans are paid for by its locals. -/
theorem Stmt.spends_purge (dead : String) (hi : Spending limit depth inner) : (s : Stmt) → ∀ p : Purge,
    Purge.Spends limit depth s.localCount
      (Stmt.localCountOpt (s.purge inner dead p).rest + (s.purge inner dead p).orphans.length) p
      (s.purge inner dead p).state
  | ⟨kind, span, ghost⟩, p => by
    have inside := StmtKind.spends_purge dead hi span kind p
    simp only [Stmt.purge, Purged.map]
    cases left : (kind.purge inner dead span p).rest <;> rw [left] at inside <;> exact inside

theorem StmtKind.spends_purge (dead : String) (hi : Spending limit depth inner) (span : Span) :
    (kind : StmtKind) → ∀ p : Purge, Purge.Spends limit depth kind.localCount
      ((kind.purge inner dead span p).rest.elim 0 StmtKind.localCount +
        (kind.purge inner dead span p).orphans.length) p (kind.purge inner dead span p).state
  | .varDecl d, p => by
    refine .idle (VarDecl.purge_visited span d p) (VarDecl.purge_exhausted span d p) ?_
    have total := VarDecl.length_purge dead span d p
    simp only [StmtKind.purge, Purged.map]
    cases left : (d.purge dead span p).rest <;> rw [left] at total <;> exact total
  | .update u, p => by
    refine StmtKind.spends_leaf ?_ ?_ (Update.purge_visited u p) ?_
    · intro kind hk
      obtain ⟨_, -, rfl⟩ := Option.map_eq_some_iff.1 hk
      rfl
    · simp only [StmtKind.purge, Purged.map, Update.purge]
      split <;> rfl
    · simp only [StmtKind.purge, Purged.map, Update.purge]
      split <;> rfl
  | .expr _, p | .ret _, p => by
    refine StmtKind.spends_leaf (fun kind hk => ?_) rfl rfl rfl
    obtain ⟨_, -, rfl⟩ := Option.map_eq_some_iff.1 hk
    rfl
  | .print args, p => by
    refine StmtKind.spends_leaf (fun kind hk => ?_) rfl rfl rfl
    simp only [StmtKind.purge] at hk
    split at hk <;> cases hk
    rfl
  | .assert _, p | .assume _, p => by
    refine StmtKind.spends_leaf (fun kind hk => ?_) rfl rfl rfl
    simp only [StmtKind.purge] at hk
    split at hk <;> cases hk
    rfl
  | .breakLoop, p | .continueLoop, p => .refl _ _ _ p
  | .ifElse guard thenBranch elseBranch, p => by
    simp only [StmtKind.purge, Reduction.purged]
    split
    · exact .idle rfl rfl (Nat.zero_le _)
    · have first := Block.spends_purge hi thenBranch
        (p.countCollapsed (Expr.reduceOpt dead guard).collapsed)
      have second := Stmt.spends_purgeElse dead hi elseBranch
        (thenBranch.purge inner (p.countCollapsed (Expr.reduceOpt dead guard).collapsed)).2
      have both := first.append second
      rw [← Nat.add_assoc] at both
      exact both.collapsed
  | .whileLoop guard invariants decreases body, p => by
    simp only [StmtKind.purge, Reduction.purged]
    split
    · exact .idle rfl rfl (Nat.zero_le _)
    · exact .collapsed (Block.spends_purge hi body _)
  | .forLoop index start stop ascending invariants body, p => by
    simp only [StmtKind.purge, Reduction.purged]
    split
    · exact .idle rfl rfl (Nat.zero_le _)
    · split
      · exact .idle rfl rfl (Nat.le_refl _)
      · exact .collapsed (Block.spends_purge hi body _)
  | .block b, p => Block.spends_purge hi b p
  | .matchOn source cases, p => by
    simp only [StmtKind.purge, Reduction.purged]
    split
    · exact .idle rfl rfl (Nat.zero_le _)
    · exact .collapsed (MatchCase.spends_purgeList hi cases _)

theorem Stmt.spends_purgeElse (dead : String) (hi : Spending limit depth inner) :
    (s : Option Stmt) → ∀ p : Purge, Purge.Spends limit depth (Stmt.localCountOpt s)
      (Stmt.localCountOpt (Stmt.purgeElse inner dead s p).rest +
        (Stmt.purgeElse inner dead s p).orphans.length) p (Stmt.purgeElse inner dead s p).state
  | none, p => .refl _ _ _ p
  | some branch, p => by
    have purged := Stmt.spends_purge dead hi branch p
    simp only [Stmt.purgeElse]
    cases left : (branch.purge inner dead p).rest with
    | some kept => rw [left] at purged; exact purged
    | none =>
      rw [left] at purged
      obtain ⟨kind, area, ghost⟩ := branch
      cases kind with
      | ifElse guard thenBranch next =>
        -- the guard is lost, so that nothing has been purged yet
        simp only [Stmt.purge, StmtKind.purge, Reduction.purged, Purged.map] at left ⊢
        split at left
        · exact .idle rfl rfl (Nat.le_add_left _ _)
        · cases left
      | _ => exact purged
end

theorem Purge.spends_adopt {purge : String → Nat → ListPurge}
    (hp : ∀ name, Spending limit (depth + 1) (purge name (depth + 1))) (orphans : List Orphan)
    (list : List Stmt) (p : Purge) :
    Purge.Spends limit depth (Stmt.localCountList list + orphans.length)
      (Stmt.localCountList (adopt limit purge depth orphans list p).1) p
      (adopt limit purge depth orphans list p).2 := by
  induction orphans generalizing list p with
  | nil => exact .refl _ _ _ p
  | cons orphan orphans ih =>
    rw [adopt, List.length_cons]
    split
    · rename_i deeper
      exact .exhaust deeper (by simp only; omega)
    · split
      · exact (ih list p).weaken (by omega)
      · have first := ((hp orphan.1 list (p.takeIn orphan)).takeIn).beside orphans.length
        exact (first.trans (ih _ _)).weaken (by omega)

theorem Purge.spending_purgeList (limit fuel : Nat) (dead : String) (depth : Nat) :
    Spending limit depth (purgeList limit fuel dead depth) := by
  refine purgeList_induct (P := fun _ _ depth list p x => Spends limit depth
    (Stmt.localCountList list) (Stmt.localCountList x.1) p x.2) (fun _ _ _ _ p _ => .refl _ _ _ p)
    ?_ fuel dead depth
  rintro fuel dead depth s list p r x y ih - hr hx rfl
  have purged := (Stmt.spends_purge dead (ih dead depth) s p).counted
  have adopted := spends_adopt (ih · (depth + 1)) r.orphans list r.counted
  rw [hr] at purged
  rw [hx] at adopted
  simp only [Stmt.localCountList_append, Stmt.localCountList_toList, Stmt.localCountList]
  -- what is left of the statement stands beside the purge of the list behind it
  have kept := adopted.beside (Stmt.localCountOpt r.rest)
  have through := (purged.beside (Stmt.localCountList list)).trans (kept.weaken (by omega))
  split
  · rwa [Nat.add_comm (Stmt.localCountOpt r.rest)]
  · have rest := (ih dead depth x.1 x.2).beside (Stmt.localCountOpt r.rest)
    rw [Nat.add_comm (Stmt.localCountOpt r.rest)]
    exact through.trans rest

/-- A local that is dropped leaves the others or makes them orphans. -/
theorem VarDecl.length_drop {name : String} {d : VarDecl} (h : name ∈ d.names) :
    ((d.drop name).1.elim 0 fun d => d.locals.length) + (d.drop name).2.length <
      d.locals.length := by
  obtain ⟨v, hv, rfl⟩ := List.mem_map.1 h
  obtain ⟨k, found⟩ : ∃ k, (d.locals.findIdx? fun w => w.name == v.name) = some k := by
    rw [← Option.isSome_iff_exists, List.findIdx?_isSome, List.any_eq_true]
    exact ⟨v, hv, beq_self_eq_true _⟩
  have inside : k < d.locals.length := (List.findIdx?_eq_some_iff_getElem.1 found).1
  have erased : (d.locals.eraseIdx k).length < d.locals.length := by
    rw [List.length_eraseIdx_of_lt inside]
    omega
  have left (init : Option Update) :
      ((if (d.locals.eraseIdx k).isEmpty then none
        else some (VarDecl.mk (d.locals.eraseIdx k) init)).elim 0 fun d => d.locals.length) <
        d.locals.length := by
    split
    · exact Nat.zero_lt_of_lt erased
    · exact erased
  simp only [VarDecl.drop, found]
  split
  · exact left none
  · split
    · exact left _
    · rw [Option.elim_none, Nat.zero_add]
      have fewer : (d.names.filter fun n => n ≠ v.name).length < d.names.length :=
        List.length_filter_lt_length_iff_exists.2 ⟨v.name, h, by simp⟩
      rwa [VarDecl.names, List.length_map] at fewer

/-- A deletion leaves fewer locals, and is given up only in a list with more of them than its limit
and one. -/
theorem Purge.localCount_deleteLocal {name : String} {s : Stmt} {list : List Stmt}
    (declares : name ∈ s.declares) :
    Stmt.localCountList (deleteLocal limit name s list).1 < Stmt.localCountList (s :: list) ∧
      ((deleteLocal limit name s list).2.exhausted = true →
        limit + 1 < Stmt.localCountList (s :: list)) := by
  obtain ⟨kind, span, ghost⟩ := s
  obtain ⟨d, rfl⟩ : ∃ d, kind = .varDecl d := by
    cases kind <;> simp_all [Stmt.declares]
  obtain ⟨p, visited, going, eq⟩ := exists_deleteLocal limit name d span ghost list
  have spending := spending_purgeList limit (Stmt.weightList list)
  have purged := (spending name 0 list p).beside (d.drop name).2.length
  have adopted := spends_adopt (spending · 1) ((d.drop name).2.map fun n => (n, span))
    (purgeList limit (Stmt.weightList list) name 0 list p).1
    (purgeList limit (Stmt.weightList list) name 0 list p).2
  rw [List.length_map] at adopted
  have spent := purged.trans adopted
  have fewer := VarDecl.length_drop declares
  have whole : Stmt.localCountList (⟨.varDecl d, span, ghost⟩ :: list) =
      d.locals.length + Stmt.localCountList list := rfl
  rw [eq, whole]
  constructor
  · have kept : Stmt.localCountList
        ((d.drop name).1.map fun d => Stmt.mk (.varDecl d) span ghost).toList =
          (d.drop name).1.elim 0 fun d => d.locals.length := by
      cases (d.drop name).1 <;> rfl
    have pays := spent.pays
    have grows := spent.grows
    rw [Stmt.localCountList_append, kept]
    omega
  · intro given
    rcases spent.deep (by simp [visited]) given with exhausted | many
    · rw [going] at exhausted
      cases exhausted
    · rw [visited, List.length_singleton] at many
      omega

end

/-- A deletion is refused only in a list that declares more locals than its limit and one. -/
theorem Stmt.deleteVariable_exhausted {site : Site} {name : String} {list : List Stmt}
    {reason : Refusal} {left : List Stmt}
    (refused : (Stmt.deleteVariable site name list).1 = .refused reason left) :
    site.cascadeLimit + 1 < Stmt.localCountList list := by
  simp only [Stmt.deleteVariable] at refused
  split at refused
  · cases refused
  · rename_i before s after found
    obtain ⟨rfl, here⟩ := splitAtFirst_eq_some found
    have declares : name ∈ s.declares := by
      simpa using (Bool.and_eq_true_iff.1 here).2
    split at refused
    · rename_i given
      rw [Stmt.localCountList_append]
      exact Nat.lt_of_lt_of_le ((Purge.localCount_deleteLocal declares).2 given)
        (Nat.le_add_left _ _)
    · cases refused

end Mutation
