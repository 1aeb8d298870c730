import Mutation.Proofs.Deletion
import Mutation.Proofs.Reduction
import Mutation.Proofs.Size

/-!
# What a purge costs

A purge counts the statements that it deletes and the expressions that it collapses. Every count
is paid for by a node that is gone, so the counts and the size of what is left never add up to
more than there was (`Purge.Pays`). The counts of a deletion are therefore bounded by the size of
the list, and no list gets larger or heavier on the way.
-/

namespace Mutation

/-- What is left of code of size `n`, and the expressions that gave way to an operand, are no more
than there was. -/
def Reduction.Pays {α : Type} (r : Reduction α) (size : α → Nat) (n : Nat) : Prop :=
  r.collapsed + r.rest.elim 0 size ≤ n

namespace Reduction.Pays

variable {α β : Type} {r : Reduction α} {size : α → Nat} {n m : Nat}

/-- What is put together of what is left costs no more than what is left. -/
theorem map {f : α → β} {size' : β → Nat} (h : r.Pays size n)
    (same : ∀ a, r.rest = some a → size' (f a) ≤ size a) : (r.map f).Pays size' n := by
  obtain ⟨rest, k⟩ := r
  cases rest with
  | none => exact h
  | some a => exact Nat.le_trans (Nat.add_le_add_left (same a rfl) k) h

/-- Two reductions side by side pay for themselves side by side. -/
theorem both {k : Unit → Reduction β} {size' : β → Nat} (h : r.Pays size n)
    (hk : (k ()).Pays size' m) : (r.both k).Pays (fun (a, b) => size a + size' b) (n + m) := by
  obtain ⟨rest, c⟩ := r
  cases rest with
  | none => exact Nat.le_trans h (Nat.le_add_right n m)
  | some a =>
    simp only [Reduction.Pays, Reduction.both, Option.elim_some] at h hk ⊢
    cases left : (k ()).rest with
    | none =>
      rw [left] at hk
      simp only [Option.map_none, Option.elim_none] at hk ⊢
      omega
    | some b =>
      rw [left] at hk
      simp only [Option.map_some, Option.elim_some] at hk ⊢
      omega

/-- The node around the parts. -/
theorem around (h : r.Pays size n) : r.Pays (fun a => size a + 1) (n + 1) := by
  obtain ⟨rest, k⟩ := r
  cases rest with
  | none => exact Nat.le_succ_of_le h
  | some a => exact Nat.succ_le_succ h

theorem collapsed_le (h : r.Pays size n) : r.collapsed ≤ n := Nat.le_trans (Nat.le_add_right _ _) h

end Reduction.Pays

/-- A list pays as its members do. -/
theorem Expr.pays_reduceList {dead : String} {es : List Expr}
    (h : ∀ e ∈ es, (e.reduce dead e.ty).Pays size e.size) :
    (Expr.reduceList dead es).Pays sizeList (sizeList es) := by
  induction es with
  | nil => exact Nat.le_refl 0
  | cons e es ih =>
    obtain ⟨he, hes⟩ := List.forall_mem_cons.1 h
    rw [sizeList_cons]
    exact (he.both (ih hes)).map fun a _ => Nat.le_of_eq (sizeList_cons a.1 a.2)

/-- An operand that stands for a binary expression pays for the collapse with the expression. -/
theorem Reduction.pays_either {left right : Reduction Expr} {l r : Bool}
    {f : Expr → Expr → Expr} {n m : Nat} (hl : left.Pays Expr.size n) (hr : right.Pays Expr.size m)
    (size : ∀ a b, (f a b).size = a.size + b.size + 1) :
    (Reduction.either left right l r f).Pays Expr.size (n + m + 1) := by
  obtain ⟨a, i⟩ := left
  obtain ⟨b, j⟩ := right
  cases a <;> cases b <;> cases l <;> cases r <;>
    simp only [Reduction.Pays, Reduction.either, Option.elim_some, Option.elim_none, size, if_true,
      Bool.false_eq_true, if_false] at hl hr ⊢ <;>
    omega

/-- An expression pays for each collapse with a node that is gone. -/
theorem Expr.pays_reduce (dead : String) (e : Expr) (wanted : Ty) :
    (e.reduce dead wanted).Pays size e.size := by
  induction e using Expr.induct generalizing wanted with
  | step e ih =>
    have parts : (Expr.reduceList dead e.kind.parts).Pays sizeList (sizeList e.kind.parts) :=
      Expr.pays_reduceList fun c hc => ih c hc c.ty
    obtain ⟨kind, span, ty⟩ := e
    by_cases name : ∃ n, kind = .name n
    · obtain ⟨n, rfl⟩ := name
      simp only [Expr.reduce, ExprKind.reduce]
      split
      · exact Nat.zero_le _
      · exact Nat.le_of_eq (Nat.zero_add _)
    by_cases binary : ∃ op l r, kind = .binary op l r
    · obtain ⟨op, l, r, rfl⟩ := binary
      have sized (op : BinaryOp) (a b : Expr) (span : Span) (ty : Ty) :
          (Expr.mk (.binary op a b) span ty).size = a.size + b.size + 1 := by
        rw [Expr.size_eq]
        simp [ExprKind.parts]
      rw [sized]
      exact Reduction.pays_either (ih l (by simp [ExprKind.parts]) l.ty)
        (ih r (by simp [ExprKind.parts]) r.ty) fun a b => sized op a b span ty
    -- all parts are left or nothing is, and a chain keeps its operands when it is brought in step
    have kept {f : List Expr → Expr} (size : ∀ es : List Expr, es.length = kind.parts.length →
        (f es).size = sizeList es + 1) :
        ((Expr.reduceList dead kind.parts).map f).Pays Expr.size (sizeList kind.parts + 1) :=
      parts.around.map fun es left => Nat.le_of_eq (size es (length_reduceList left))
    rw [Expr.size_eq]
    by_cases chain : ∃ c, kind = .chain c
    · obtain ⟨⟨operands, ops, resolved⟩, rfl⟩ := chain
      simp only [Expr.reduce, ExprKind.reduce, Chain.reduce, Reduction.map_map]
      exact kept fun es _ => Expr.size_eq _
    · rw [Expr.reduce, ExprKind.reduce_eq (fun n h => name ⟨n, h⟩)
        (fun op l r h => binary ⟨op, l, r, h⟩) fun c h => chain ⟨c, h⟩]
      exact kept fun es length => by rw [Expr.size_eq, ExprKind.parts_withParts length]

theorem Expr.pays_reduceOpt (dead : String) (e : Option Expr) :
    (Expr.reduceOpt dead e).Pays sizeOpt (sizeOpt e) := by
  cases e with
  | none => exact Nat.le_refl 0
  | some e => exact (Expr.pays_reduce dead e e.ty).map fun a _ => Nat.le_refl _

theorem Expr.sizeList_le_of_sublist {es fs : List Expr} (h : es.Sublist fs) :
    sizeList es ≤ sizeList fs := by
  rw [sizeList_eq_sum, sizeList_eq_sum]
  exact (h.map size).sum_le_sum fun _ _ => Nat.zero_le _

theorem Expr.sizeList_without_le (dead : String) (es : List Expr) :
    sizeList (Expr.without dead es) ≤ sizeList es :=
  sizeList_le_of_sublist List.filter_sublist

/-- The pairs of an assignment pay for their collapses. -/
theorem Update.pays_reducePairs (dead : String) (pairs : List (Expr × Expr)) :
    (reducePairs dead pairs).2 + Expr.sizeList ((reducePairs dead pairs).1.map (·.1)) +
        Expr.sizeList ((reducePairs dead pairs).1.map (·.2)) ≤
      Expr.sizeList (pairs.map (·.1)) + Expr.sizeList (pairs.map (·.2)) := by
  induction pairs with
  | nil => exact Nat.le_refl 0
  | cons pair pairs ih =>
    obtain ⟨target, value⟩ := pair
    have paid := Expr.pays_reduce dead value target.ty
    rcases rest : reducePairs dead pairs with ⟨left, n⟩
    simp only [rest] at ih
    simp only [reducePairs, rest, List.map_cons, Expr.sizeList_cons]
    split
    · dsimp only
      omega
    · cases kept : (value.reduce dead target.ty).rest with
      | none =>
        rw [Reduction.Pays, kept, Option.elim_none] at paid
        dsimp only
        omega
      | some value =>
        rw [Reduction.Pays, kept, Option.elim_some] at paid
        simp only [List.map_cons, Expr.sizeList_cons]
        omega

/-- The locals of a declaration pay for theirs. -/
theorem VarDecl.pays_reduceLocals (dead : String) (pairs : List (Variable × Expr × Expr)) :
    (reduceLocals dead pairs).2.2 + Expr.sizeList ((reduceLocals dead pairs).1.map (·.2.1)) +
        Expr.sizeList ((reduceLocals dead pairs).1.map (·.2.2)) ≤
      Expr.sizeList (pairs.map (·.2.1)) + Expr.sizeList (pairs.map (·.2.2)) := by
  induction pairs with
  | nil => exact Nat.le_refl 0
  | cons pair pairs ih =>
    obtain ⟨v, target, value⟩ := pair
    have paid := Expr.pays_reduce dead value v.ty
    rcases rest : reduceLocals dead pairs with ⟨left, lost, n⟩
    simp only [rest] at ih
    simp only [reduceLocals, rest, List.map_cons, Expr.sizeList_cons]
    cases kept : (value.reduce dead v.ty).rest with
    | none =>
      rw [Reduction.Pays, kept, Option.elim_none] at paid
      dsimp only
      omega
    | some value =>
      rw [Reduction.Pays, kept, Option.elim_some] at paid
      simp only [List.map_cons, Expr.sizeList_cons]
      omega

/-- The arguments of a `print` pay for theirs. -/
theorem Stmt.pays_reduceArgs (dead : String) (es : List Expr) :
    (reduceArgs dead es).2 + Expr.sizeList (reduceArgs dead es).1 ≤ Expr.sizeList es := by
  induction es with
  | nil => exact Nat.le_refl 0
  | cons e es ih =>
    have paid := Expr.pays_reduce dead e e.ty
    simp only [reduceArgs, Expr.sizeList_cons]
    cases left : (e.reduce dead e.ty).rest with
    | none =>
      rw [Reduction.Pays, left, Option.elim_none] at paid
      dsimp only
      omega
    | some rest =>
      rw [Reduction.Pays, left, Option.elim_some] at paid
      simp only [Expr.sizeList_cons]
      omega

/-- The number of nodes that a purge has counted. -/
def Purge.spent (p : Purge) : Nat := p.deleted + p.collapsed

/-- A purge has turned code of a weight `w` and a size `n` into code of a weight `w'` and a size
`n'`, and what it has counted is gone. -/
structure Purge.Pays (w w' n n' : Nat) (p p' : Purge) : Prop where
  lighter : w' ≤ w
  pays : p'.spent + n' ≤ p.spent + n

namespace Purge.Pays

variable {w w' w'' n n' n'' : Nat} {p q r : Purge}

/-- The code stays as it is, and nothing is counted. -/
theorem idle (w n : Nat) (h : q.spent = p.spent) : Pays w w n n p q :=
  ⟨Nat.le_refl w, by rw [h]⟩

theorem refl (w n : Nat) (p : Purge) : Pays w w n n p p := .idle w n rfl

/-- What pays in two steps pays. -/
theorem trans (h : Pays w w' n n' p q) (h' : Pays w' w'' n' n'' q r) : Pays w w'' n n'' p r :=
  ⟨Nat.le_trans h'.lighter h.lighter, Nat.le_trans h'.pays h.pays⟩

/-- Code beside the purged code stays as it is. -/
theorem beside (h : Pays w w' n n' p q) (v k : Nat) : Pays (w + v) (w' + v) (n + k) (n' + k) p q :=
  ⟨Nat.add_le_add_right h.lighter v, by have := h.pays; omega⟩

/-- Two pieces pay side by side. -/
theorem append {v v' k k' : Nat} (h : Pays w w' n n' p q) (h' : Pays v v' k k' q r) :
    Pays (w + v) (w' + v') (n + k) (n' + k') p r :=
  ⟨Nat.add_le_add h.lighter h'.lighter, by have := h.pays; have := h'.pays; omega⟩

/-- Collapsed expressions are counted. -/
theorem collapsed {k : Nat} (lighter : w' ≤ w) (paid : k + n' ≤ n) :
    Pays w w' n n' p (p.countCollapsed k) :=
  ⟨lighter, by simp only [spent, Purge.countCollapsed]; omega⟩

/-- A part that is reduced stands beside the purged code. -/
theorem reduced {α : Type} {r : Reduction α} {size : α → Nat} {m m' k : Nat} {a : α}
    (paid : r.Pays size k) (left : r.rest = some a)
    (h : Pays w w' n n' (p.countCollapsed r.collapsed) q) (before : k + n ≤ m)
    (after : m' ≤ size a + n') : Pays w w' m m' p q := by
  rw [Reduction.Pays, left, Option.elim_some] at paid
  have first : Pays w w m (size a + n) p (p.countCollapsed r.collapsed) :=
    .collapsed (Nat.le_refl w) (by omega)
  have pays := h.pays
  exact first.trans ⟨h.lighter, by omega⟩

/-- A part that is lost loses the whole. -/
theorem lost {α : Type} {r : Reduction α} {size : α → Nat} {k : Nat} (paid : r.Pays size k)
    (before : k ≤ n) : Pays w 0 n 0 p (p.countCollapsed r.collapsed) :=
  .collapsed (Nat.zero_le w) (Nat.le_trans paid.collapsed_le before)

/-- Code that is reduced as a whole. -/
theorem ofReduction {α β : Type} {r : Reduction α} {f : α → β} {weight size : β → Nat}
    {size' : α → Nat} (paid : r.Pays size' n) (weightless : ∀ a, weight (f a) = 0)
    (same : ∀ a, size (f a) = size' a) :
    Pays 0 ((r.rest.map f).elim 0 weight) n ((r.rest.map f).elim 0 size) p
      (p.countCollapsed r.collapsed) := by
  cases left : r.rest with
  | none => exact .lost paid (Nat.le_refl n)
  | some a =>
    rw [Reduction.Pays, left, Option.elim_some] at paid
    simp only [Option.map_some, Option.elim_some, weightless, same]
    exact .collapsed (Nat.le_refl 0) paid

/-- Code that is deleted without being reduced. -/
theorem deleted (w n : Nat) (p : Purge) : Pays w 0 n 0 p p :=
  ⟨Nat.zero_le w, Nat.add_le_add_left (Nat.zero_le n) _⟩

end Purge.Pays

theorem Purged.spent_le_counted {α : Type} (r : Purged α) : r.state.spent ≤ r.counted.spent := by
  unfold Purged.counted
  split
  · simp only [Purge.spent, Purge.countDeleted]
    omega
  · exact Nat.le_refl _

/-- A purge of lists that pays for what it counts. -/
def Paying (inner : ListPurge) : Prop :=
  ∀ (list : List Stmt) (p : Purge), Purge.Pays (Stmt.weightList list)
    (Stmt.weightList (inner list p).1) (Stmt.sizeList list) (Stmt.sizeList (inner list p).1) p
    (inner list p).2

section

variable {inner : ListPurge} {dead : String} {p : Purge}

/-- A block pays as its list does. -/
theorem Block.pays_purge (hi : Paying inner) (b : Block) (p : Purge) :
    Purge.Pays b.weight (b.purge inner p).1.weight b.size (b.purge inner p).1.size p
      (b.purge inner p).2 := by
  obtain ⟨list, span⟩ := b
  exact hi list p

/-- The cases of a match pay as their bodies do. -/
theorem MatchCase.pays_purgeList (hi : Paying inner) (cases : List MatchCase) (p : Purge) :
    Purge.Pays (MatchCase.weightList cases)
      (MatchCase.weightList (MatchCase.purgeList inner dead cases p).1) (MatchCase.sizeList cases)
      (MatchCase.sizeList (MatchCase.purgeList inner dead cases p).1) p
      (MatchCase.purgeList inner dead cases p).2 := by
  induction cases generalizing p with
  | nil => exact .refl _ _ p
  | cons c cases ih =>
    obtain ⟨pattern, body, span⟩ := c
    simp only [MatchCase.purgeList]
    split
    · exact (Purge.Pays.refl _ _ p).append (ih p)
    · exact (hi body p).append (ih _)

theorem Update.pays_purge (dead : String) (u : Update) (p : Purge) :
    Purge.Pays 0 0 u.size ((u.purge dead p).rest.elim 0 Update.size) p (u.purge dead p).state := by
  unfold Update.purge
  split
  · rename_i parallel
    have length : u.targets.length = u.values.length := by simpa [Update.isParallel] using parallel
    have paid := Update.pays_reducePairs dead (u.targets.zip u.values)
    rw [List.map_fst_zip length.le, List.map_snd_zip length.ge] at paid
    refine .collapsed (Nat.le_refl 0) ?_
    unfold Update.size
    dsimp only
    split
    · simp only [Option.elim_none]
      omega
    · simp only [Option.elim_some, Update.make, Update.sync]
      omega
  · dsimp only
    split
    · exact .deleted 0 _ p
    · exact .refl 0 _ p

/-- A declaration that loses locals loses their targets and values. -/
theorem VarDecl.pays_purge (dead : String) (span : Span) (d : VarDecl) (p : Purge) :
    Purge.Pays 0 0 d.size ((d.purge dead span p).rest.elim 0 VarDecl.size) p
      (d.purge dead span p).state := by
  obtain ⟨locals, init⟩ := d
  cases init with
  | none => exact .refl 0 _ p
  | some init =>
    unfold VarDecl.purge
    dsimp only
    split
    · rename_i aligned
      simp only [VarDecl.isAligned, Update.isParallel, Bool.and_eq_true, beq_iff_eq] at aligned
      obtain ⟨paired, owned⟩ := aligned
      have paid := VarDecl.pays_reduceLocals dead (locals.zip (init.targets.zip init.values))
      obtain ⟨-, targets, values⟩ := map_zip_zip owned paired
      rw [targets, values] at paid
      generalize VarDecl.reduceLocals dead (locals.zip (init.targets.zip init.values)) = r at paid ⊢
      obtain ⟨left, lost, n⟩ := r
      dsimp only at paid
      refine .collapsed (Nat.le_refl 0) ?_
      unfold VarDecl.size Update.size
      dsimp only
      split
      · simp only [Option.elim_none]
        omega
      · simp only [Option.elim_some, Update.make, Update.sync]
        omega
    · split
      · exact .deleted 0 _ p
      · exact .refl 0 _ p

mutual
/-- What is left of a statement, and the statement when it is deleted, are paid for by its nodes. -/
theorem Stmt.pays_purge (dead : String) (hi : Paying inner) : (s : Stmt) → ∀ p : Purge,
    Purge.Pays s.weight (Stmt.weightOpt (s.purge inner dead p).rest) s.size
      (Stmt.sizeOpt (s.purge inner dead p).rest) p (s.purge inner dead p).counted
  | ⟨kind, span, ghost⟩, p => by
    obtain ⟨lighter, pays⟩ := StmtKind.pays_purge dead hi span kind p
    rw [Stmt.purge]
    generalize kind.purge inner dead span p = r at lighter pays
    obtain ⟨rest, orphans, q⟩ := r
    cases rest with
    | none =>
      refine ⟨Nat.zero_le _, ?_⟩
      simp only [Purge.spent, Option.elim_none] at pays
      simp only [Purged.map, Purged.counted, Option.map_none, Option.isNone_none, if_true,
        Purge.spent, Purge.countDeleted, Stmt.sizeOpt, Stmt.size]
      omega
    | some rest => exact ⟨Nat.succ_le_succ lighter, Nat.succ_le_succ pays⟩

/-- One case per form: its expressions and its lists pay side by side. -/
theorem StmtKind.pays_purge (dead : String) (hi : Paying inner) (span : Span) :
    (kind : StmtKind) → ∀ p : Purge, Purge.Pays kind.weight
      ((kind.purge inner dead span p).rest.elim 0 StmtKind.weight) kind.size
      ((kind.purge inner dead span p).rest.elim 0 StmtKind.size) p
      (kind.purge inner dead span p).state
  | .varDecl d, p => by
    have paid := VarDecl.pays_purge dead span d p
    simp only [StmtKind.purge, Purged.map]
    cases left : (d.purge dead span p).rest <;> rw [left] at paid <;> exact paid
  | .update u, p => by
    have paid := Update.pays_purge dead u p
    simp only [StmtKind.purge, Purged.map]
    cases left : (u.purge dead p).rest <;> rw [left] at paid <;> exact paid
  | .expr e, p => .ofReduction (Expr.pays_reduce dead e e.ty) (fun _ => rfl) fun _ => rfl
  | .ret values, p =>
    .ofReduction (Expr.pays_reduceList fun e _ => Expr.pays_reduce dead e e.ty) (fun _ => rfl)
      fun _ => rfl
  | .print args, p => by
    have paid := Stmt.pays_reduceArgs dead args
    simp only [StmtKind.purge]
    split
    · exact .collapsed (Nat.le_refl 0) (Nat.le_trans (Nat.le_add_right _ _) paid)
    · exact .collapsed (Nat.le_refl 0) paid
  | .assert _, p | .assume _, p => by
    simp only [StmtKind.purge]
    split
    · exact .deleted 0 _ p
    · exact .refl _ _ p
  | .breakLoop, p | .continueLoop, p => .refl _ _ p
  | .ifElse guard thenBranch elseBranch, p => by
    have paid := Expr.pays_reduceOpt dead guard
    simp only [StmtKind.purge, Reduction.purged]
    split
    · exact .lost paid (by simp only [StmtKind.size]; omega)
    · have first := Block.pays_purge hi thenBranch
        (p.countCollapsed (Expr.reduceOpt dead guard).collapsed)
      have second := Stmt.pays_purgeElse dead hi elseBranch
        (thenBranch.purge inner (p.countCollapsed (Expr.reduceOpt dead guard).collapsed)).2
      exact .reduced paid ‹_› (first.append second) (by simp only [StmtKind.size]; omega)
        (by simp only [Option.elim_some, StmtKind.size]; omega)
  | .whileLoop guard invariants decreases body, p => by
    have paid := Expr.pays_reduceOpt dead guard
    have kept := Expr.sizeList_without_le dead invariants
    have kept' := Expr.sizeList_without_le dead decreases
    simp only [StmtKind.purge, Reduction.purged]
    split
    · exact .lost paid (by simp only [StmtKind.size]; omega)
    · have inside := (Block.pays_purge hi body
        (p.countCollapsed (Expr.reduceOpt dead guard).collapsed)).beside 0
          (Expr.sizeList invariants + Expr.sizeList decreases)
      exact .reduced paid ‹_› inside (by simp only [StmtKind.size]; omega)
        (by simp only [Option.elim_some, StmtKind.size]; omega)
  | .forLoop index start stop ascending invariants body, p => by
    have paid := Reduction.Pays.both (k := fun _ => Expr.reduceOpt dead stop)
      (Expr.pays_reduce dead start start.ty) (Expr.pays_reduceOpt dead stop)
    have kept := Expr.sizeList_without_le dead invariants
    simp only [StmtKind.purge, Reduction.purged]
    split
    · exact .lost paid (by simp only [StmtKind.size]; omega)
    · split
      · exact .reduced paid ‹_› (.refl _ (Expr.sizeList invariants + body.size) _)
          (by simp only [StmtKind.size]; omega)
          (by simp only [Option.elim_some, StmtKind.size]; omega)
      · have inside := (Block.pays_purge hi body (p.countCollapsed
          ((start.reduce dead start.ty).both fun _ => Expr.reduceOpt dead stop).collapsed)).beside 0
            (Expr.sizeList invariants)
        exact .reduced paid ‹_› inside (by simp only [StmtKind.size]; omega)
          (by simp only [Option.elim_some, StmtKind.size]; omega)
  | .block b, p => Block.pays_purge hi b p
  | .matchOn source cases, p => by
    have paid := Expr.pays_reduce dead source source.ty
    simp only [StmtKind.purge, Reduction.purged]
    split
    · exact .lost paid (by simp only [StmtKind.size]; omega)
    · exact .reduced paid ‹_› (MatchCase.pays_purgeList hi cases _)
        (by simp only [StmtKind.size]; omega)
        (by simp only [Option.elim_some, StmtKind.size]; omega)

theorem Stmt.pays_purgeElse (dead : String) (hi : Paying inner) :
    (s : Option Stmt) → ∀ p : Purge, Purge.Pays (Stmt.weightOpt s)
      (Stmt.weightOpt (Stmt.purgeElse inner dead s p).rest) (Stmt.sizeOpt s)
      (Stmt.sizeOpt (Stmt.purgeElse inner dead s p).rest) p (Stmt.purgeElse inner dead s p).state
  | none, p => .refl _ _ p
  | some branch, p => by
    obtain ⟨lighter, pays⟩ := Stmt.pays_purge dead hi branch p
    have uncounted := Purged.spent_le_counted (branch.purge inner dead p)
    rw [Stmt.purgeElse]
    cases left : (branch.purge inner dead p).rest with
    | some kept =>
      rw [Purged.counted, left] at pays
      rw [left] at lighter
      exact ⟨lighter, pays⟩
    | none =>
      rw [left] at lighter pays
      obtain ⟨kind, area, ghost⟩ := branch
      cases kind with
      | ifElse guard thenBranch next =>
        -- the guard is lost, so that nothing has been purged yet
        have paid := (Expr.pays_reduceOpt dead guard).collapsed_le
        have lost : (Expr.reduceOpt dead guard).rest = none := by
          simp only [Stmt.purge, StmtKind.purge, Reduction.purged, Purged.map] at left
          split at left
          · assumption
          · cases left
        simp only [Stmt.purge, StmtKind.purge, Reduction.purged, lost]
        refine .collapsed ?_ ?_
        · simp only [Option.none_or, Stmt.elseBranch?, Stmt.weightOpt, Stmt.weight,
            StmtKind.weight]
          omega
        · simp only [Option.none_or, Stmt.elseBranch?, Stmt.sizeOpt, Stmt.size, StmtKind.size]
          omega
      | _ => exact ⟨lighter, Nat.le_trans (Nat.add_le_add_right uncounted 0) pays⟩
end

theorem Stmt.weight_pos (s : Stmt) : 0 < s.weight := by
  obtain ⟨kind, span, ghost⟩ := s
  exact Nat.succ_pos _

theorem Stmt.weightList_append (front list : List Stmt) :
    weightList (front ++ list) = weightList front + weightList list := by
  induction front with
  | nil => simp [weightList]
  | cons s front ih => simp [weightList, ih, Nat.add_assoc]

theorem Stmt.weightList_toList (s : Option Stmt) : weightList s.toList = weightOpt s := by
  cases s <;> rfl

theorem Stmt.sizeList_toList (s : Option Stmt) : sizeList s.toList = sizeOpt s := by
  cases s <;> rfl

/-- Following the locals that fell is purging the list again, and each purge pays. -/
theorem Purge.paying_adopt (limit depth : Nat) {purge : String → Nat → ListPurge}
    (hp : ∀ name depth, Paying (purge name depth)) (orphans : List Orphan) :
    Paying (adopt limit purge depth orphans) := by
  induction orphans with
  | nil => exact fun list p => .refl _ _ p
  | cons orphan orphans ih =>
    intro list p
    rw [adopt]
    split
    · exact .idle _ _ rfl
    · split
      · exact ih list p
      · have taken : (p.takeIn orphan).spent = p.spent := rfl
        exact (Pays.idle _ _ taken).trans ((hp orphan.1 (depth + 1) list _).trans (ih _ _))

/-- The run: by induction on the fuel, a purge never counts more than the list was large. -/
theorem Purge.paying_purgeList (limit fuel : Nat) (dead : String) (depth : Nat) :
    Paying (purgeList limit fuel dead depth) := by
  refine purgeList_induct (P := fun _ _ _ list p x => Pays (Stmt.weightList list)
    (Stmt.weightList x.1) (Stmt.sizeList list) (Stmt.sizeList x.1) p x.2)
    (fun _ _ _ _ p _ => .refl _ _ p) ?_ fuel dead depth
  rintro fuel dead depth s list p r x y ih - hr hx rfl
  have purged := Stmt.pays_purge dead (ih dead depth) s p
  have adopted := paying_adopt limit depth ih r.orphans list r.counted
  rw [hr] at purged
  rw [hx] at adopted
  simp only [Stmt.weightList_append, Stmt.weightList_toList, Stmt.weightList,
    Stmt.sizeList_append, Stmt.sizeList_toList, Stmt.sizeList]
  split
  · exact purged.append adopted
  · exact purged.append (adopted.trans (ih dead depth x.1 x.2))

end

end Mutation
