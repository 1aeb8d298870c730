import Mutation.Proofs.CascadeLimit
import Mutation.Proofs.Coherence

/-!
# What a deletion leaves alone

A purge of a name does nothing to code that does not mention the name, if the copies in that code
are in step and no part of it is empty already (`Stmt.purge_of_absent`,
`Purge.purgeList_of_absent`). Of the statements behind a deleted declaration, each one that
mentions neither the deleted local nor an orphan therefore stays as it is, and what is left of the
others stays in their places (`Leaves`).
-/

namespace Mutation

mutual
/-- No `print` of the statement lacks arguments, no assignment targets and no declaration
locals. -/
def Stmt.filled : Stmt → Bool
  | ⟨kind, _, _⟩ => kind.filled

/-- No `print` of a shape of statement lacks arguments, no assignment targets and no declaration
locals. -/
def StmtKind.filled : StmtKind → Bool
  | .varDecl d => !d.locals.isEmpty
  | .update u => !u.targets.isEmpty
  | .print args => !args.isEmpty
  | .ifElse _ thenBranch elseBranch => thenBranch.filled && Stmt.filledElse elseBranch
  | .whileLoop _ _ _ body => body.filled
  | .forLoop _ _ _ _ _ body => body.filled
  | .block b => b.filled
  | .matchOn _ cases => MatchCase.filledList cases
  | .expr _ | .ret _ | .breakLoop | .continueLoop | .assert _ | .assume _ => true

def Block.filled : Block → Bool
  | ⟨list, _⟩ => Stmt.filledList list

def Stmt.filledList : List Stmt → Bool
  | [] => true
  | s :: list => s.filled && Stmt.filledList list

/-- Nothing in an `else` branch is empty. -/
def Stmt.filledElse : Option Stmt → Bool
  | none => true
  | some branch => branch.filled

def MatchCase.filledList : List MatchCase → Bool
  | [] => true
  | ⟨_, body, _⟩ :: cases => Stmt.filledList body && MatchCase.filledList cases
end

section

variable {dead : String}

theorem Expr.reduceList_whole {es : List Expr}
    (h : ∀ e ∈ es, e.reduce dead e.ty = .whole e) : Expr.reduceList dead es = .whole es := by
  induction es with
  | nil => rfl
  | cons e es ih =>
    obtain ⟨first, later⟩ := List.forall_mem_cons.1 h
    rw [Expr.reduceList, first, ih later]
    rfl

/-- Nothing is taken from an expression that does not mention the name. -/
theorem Expr.reduce_of_absent {e : Expr} (coherent : e.Coherent) (absent : dead ∉ e.names)
    (wanted : Ty) : e.reduce dead wanted = .whole e := by
  induction e using Expr.induct generalizing wanted with
  | step e ih =>
    obtain ⟨kind, span, ty⟩ := e
    simp only [Expr.names, Expr.reduce] at absent ⊢
    by_cases name : ∃ n, kind = .name n
    · obtain ⟨n, rfl⟩ := name
      have other : n ≠ dead := by
        rintro rfl
        simp [ExprKind.names] at absent
      rw [ExprKind.reduce, if_neg other]
    have notName := fun n h => name ⟨n, h⟩
    rw [ExprKind.names_eq notName, Expr.namesList_eq, List.mem_flatMap] at absent
    have each : ∀ c ∈ kind.parts, ∀ wanted, c.reduce dead wanted = .whole c :=
      fun c hc wanted => ih c hc (coherent.parts c hc) (fun hd => absent ⟨c, hc, hd⟩) wanted
    have all := Expr.reduceList_whole fun c hc => each c hc c.ty
    by_cases binary : ∃ op l r, kind = .binary op l r
    · obtain ⟨op, l, r, rfl⟩ := binary
      rw [ExprKind.reduce, each l (by simp [ExprKind.parts]), each r (by simp [ExprKind.parts])]
      rfl
    by_cases chain : ∃ c, kind = .chain c
    · obtain ⟨⟨operands, ops, resolved⟩, rfl⟩ := chain
      have step : (Chain.mk operands ops resolved).rebuild = ⟨operands, ops, resolved⟩ := by
        cases coherent with
        | mk parts step copies => exact step _ rfl
      change Expr.reduceList dead operands = .whole operands at all
      rw [ExprKind.reduce, Chain.reduce, all]
      simp only [Reduction.whole, Reduction.map, Option.map_some, step]
    · rw [ExprKind.reduce_eq notName (fun op l r h => binary ⟨op, l, r, h⟩)
        fun c h => chain ⟨c, h⟩, all]
      simp [Reduction.whole, Reduction.map]

theorem Expr.reduceList_of_absent {es : List Expr} (coherent : ∀ e ∈ es, e.Coherent)
    (absent : dead ∉ Expr.namesList es) : Expr.reduceList dead es = .whole es := by
  rw [Expr.namesList_eq, List.mem_flatMap] at absent
  exact Expr.reduceList_whole fun e he =>
    Expr.reduce_of_absent (coherent e he) (fun hd => absent ⟨e, he, hd⟩) e.ty

theorem Expr.reduceOpt_of_absent {e : Option Expr} (coherent : ∀ a ∈ e, a.Coherent)
    (absent : dead ∉ Expr.namesOpt e) : Expr.reduceOpt dead e = .whole e := by
  cases e with
  | none => rfl
  | some a =>
    rw [Expr.reduceOpt, Expr.reduce_of_absent (coherent a rfl) absent]
    rfl

theorem Expr.without_of_absent {es : List Expr} (absent : dead ∉ Expr.namesList es) :
    Expr.without dead es = es := by
  rw [Expr.namesList_eq, List.mem_flatMap] at absent
  refine List.filter_eq_self.2 fun e he => ?_
  simpa [Expr.mentions] using fun hd => absent ⟨e, he, hd⟩

theorem Update.reducePairs_of_absent {pairs : List (Expr × Expr)}
    (targets : ∀ t ∈ pairs, dead ∉ t.1.names)
    (values : ∀ t ∈ pairs, t.2.Coherent ∧ dead ∉ t.2.names) :
    Update.reducePairs dead pairs = (pairs, 0) := by
  induction pairs with
  | nil => rfl
  | cons pair pairs ih =>
    obtain ⟨target, value⟩ := pair
    obtain ⟨first, targets⟩ := List.forall_mem_cons.1 targets
    obtain ⟨⟨coherent, absent⟩, values⟩ := List.forall_mem_cons.1 values
    have kept : target.mentions dead = false := by simpa [Expr.mentions] using first
    rw [Update.reducePairs, ih targets values, Expr.reduce_of_absent coherent absent]
    simp [kept, Reduction.whole]

theorem VarDecl.reduceLocals_of_absent {pairs : List (Variable × Expr × Expr)}
    (values : ∀ t ∈ pairs, t.2.2.Coherent ∧ dead ∉ t.2.2.names) :
    VarDecl.reduceLocals dead pairs = (pairs, [], 0) := by
  induction pairs with
  | nil => rfl
  | cons pair pairs ih =>
    obtain ⟨v, target, value⟩ := pair
    obtain ⟨⟨coherent, absent⟩, values⟩ := List.forall_mem_cons.1 values
    rw [VarDecl.reduceLocals, ih values, Expr.reduce_of_absent coherent absent]
    rfl

theorem Stmt.reduceArgs_of_absent {es : List Expr} (coherent : ∀ e ∈ es, e.Coherent)
    (absent : dead ∉ Expr.namesList es) : Stmt.reduceArgs dead es = (es, 0) := by
  induction es with
  | nil => rfl
  | cons e es ih =>
    rw [Expr.namesList, List.mem_append, not_or] at absent
    obtain ⟨first, later⟩ := List.forall_mem_cons.1 coherent
    rw [Stmt.reduceArgs, ih later absent.2, Expr.reduce_of_absent first absent.1]
    rfl

theorem Update.purge_of_absent {u : Update} (coherent : u.Coherent) (filled : u.targets ≠ [])
    (absent : dead ∉ u.names) (p : Purge) : u.purge dead p = { rest := some u, state := p } := by
  unfold Update.purge
  split
  · rename_i parallel
    have length : u.targets.length = u.values.length := by simpa [Update.isParallel] using parallel
    simp only [Update.names, List.mem_append, not_or, Expr.namesList_eq, List.mem_flatMap,
      not_exists, not_and] at absent
    have pairs : Update.reducePairs dead (u.targets.zip u.values) = (u.targets.zip u.values, 0) :=
      reducePairs_of_absent (fun t ht => absent.1 _ (List.of_mem_zip ht).1)
        fun t ht => ⟨coherent.values _ (List.of_mem_zip ht).2, absent.2 _ (List.of_mem_zip ht).2⟩
    have targets : (u.targets.zip u.values).map (·.1) = u.targets := List.map_fst_zip (Nat.le_of_eq length)
    have values : (u.targets.zip u.values).map (·.2) = u.values := List.map_snd_zip (Nat.le_of_eq length.symm)
    have step : Update.make u.targets u.values = u := coherent.step
    rw [pairs]
    simp only [targets, values, step]
    rw [if_neg fun empty => filled (by rw [← targets, List.isEmpty_iff.1 empty, List.map_nil])]
    rfl
  · rw [if_neg (by simpa using absent)]

theorem VarDecl.purge_of_absent {d : VarDecl} {span : Span} (coherent : ∀ u ∈ d.init, u.Coherent)
    (filled : d.locals ≠ []) (absent : dead ∉ d.valueNames) (p : Purge) :
    d.purge dead span p = { rest := some d, state := p } := by
  obtain ⟨locals, init⟩ := d
  cases init with
  | none => rfl
  | some u =>
    have coherent := coherent u rfl
    simp only [VarDecl.valueNames] at absent
    unfold VarDecl.purge
    dsimp only
    split
    · rename_i aligned
      simp only [VarDecl.isAligned, Update.isParallel, Bool.and_eq_true, beq_iff_eq] at aligned
      obtain ⟨paired, owned⟩ := aligned
      rw [Expr.namesList_eq, List.mem_flatMap] at absent
      have pairs : VarDecl.reduceLocals dead (locals.zip (u.targets.zip u.values)) =
          (locals.zip (u.targets.zip u.values), [], 0) := by
        refine reduceLocals_of_absent fun t ht => ?_
        have value := (List.of_mem_zip (List.of_mem_zip ht).2).2
        exact ⟨coherent.values _ value, fun hd => absent ⟨_, value, hd⟩⟩
      obtain ⟨vars, targets, values⟩ := map_zip_zip owned paired
      have step : Update.make u.targets u.values = u := coherent.step
      rw [pairs]
      simp only [vars, targets, values, step]
      rw [if_neg fun empty => filled (by rw [← vars, List.isEmpty_iff.1 empty, List.map_nil])]
      rfl
    · rw [if_neg (by simpa using absent)]

/-- A purge of lists that does nothing to code without the name. -/
def Sparing (dead : String) (inner : ListPurge) : Prop :=
  ∀ (list : List Stmt) (p : Purge), Stmt.CoherentList list → Stmt.filledList list = true →
    dead ∉ Stmt.namesList list → inner list p = (list, p)

variable {inner : ListPurge}

theorem Block.purge_of_absent (hi : Sparing dead inner) {b : Block} (coherent : b.Coherent)
    (filled : b.filled = true) (absent : dead ∉ b.names) (p : Purge) :
    b.purge inner p = (b, p) := by
  obtain ⟨list, span⟩ := b
  rw [Block.purge, hi list p coherent filled absent]

theorem MatchCase.purgeList_of_absent (hi : Sparing dead inner) {cases : List MatchCase}
    (coherent : MatchCase.CoherentList cases) (filled : MatchCase.filledList cases = true)
    (absent : dead ∉ MatchCase.namesList cases) (p : Purge) :
    MatchCase.purgeList inner dead cases p = (cases, p) := by
  induction cases with
  | nil => rfl
  | cons c cases ih =>
    obtain ⟨pattern, body, span⟩ := c
    simp only [MatchCase.CoherentList, MatchCase.filledList, Bool.and_eq_true,
      MatchCase.namesList, List.mem_append, not_or] at coherent filled absent
    rw [MatchCase.purgeList, hi body p coherent.1 filled.1 absent.1, ite_self]
    dsimp only
    rw [ih coherent.2 filled.2 absent.2]

mutual
/-- Nothing is taken from a statement that does not mention the name. -/
theorem Stmt.purge_of_absent (hi : Sparing dead inner) : (s : Stmt) → s.Coherent →
    s.filled = true → dead ∉ s.names → ∀ p,
      s.purge inner dead p = { rest := some s, state := p }
  | ⟨kind, span, ghost⟩, coherent, filled, absent, p => by
    rw [Stmt.purge, StmtKind.purge_of_absent hi span kind coherent filled absent]
    rfl

theorem StmtKind.purge_of_absent (hi : Sparing dead inner) (span : Span) : (kind : StmtKind) →
    kind.Coherent → kind.filled = true → dead ∉ kind.names → ∀ p,
      kind.purge inner dead span p = { rest := some kind, state := p }
  | .varDecl d, coherent, filled, absent, p => by
    rw [StmtKind.purge,
      VarDecl.purge_of_absent coherent (by simpa [StmtKind.filled] using filled) absent]
    rfl
  | .update u, coherent, filled, absent, p => by
    rw [StmtKind.purge,
      Update.purge_of_absent coherent (by simpa [StmtKind.filled] using filled) absent]
    rfl
  | .expr e, coherent, _, absent, p => by
    rw [StmtKind.purge, Expr.reduce_of_absent coherent absent]
    rfl
  | .ret values, coherent, _, absent, p => by
    rw [StmtKind.purge, Expr.reduceList_of_absent coherent absent]
    rfl
  | .print args, coherent, filled, absent, p => by
    rw [StmtKind.purge, Stmt.reduceArgs_of_absent coherent absent]
    simp only [StmtKind.filled, Bool.not_eq_true'] at filled
    simp only [filled, Bool.false_eq_true, if_false]
    rfl
  | .assert e, _, _, absent, p | .assume e, _, _, absent, p => by
    have kept : e.mentions dead = false := by
      simpa [Expr.mentions, StmtKind.names] using absent
    simp only [StmtKind.purge, kept, Bool.false_eq_true, if_false]
  | .breakLoop, _, _, _, p | .continueLoop, _, _, _, p => rfl
  | .ifElse guard thenBranch elseBranch, coherent, filled, absent, p => by
    simp only [StmtKind.Coherent, StmtKind.filled, Bool.and_eq_true, StmtKind.names,
      List.mem_append, not_or] at coherent filled absent
    rw [StmtKind.purge, Expr.reduceOpt_of_absent coherent.1 absent.1.1]
    simp only [Reduction.whole, Reduction.purged]
    rw [Block.purge_of_absent hi coherent.2.1 filled.1 absent.1.2]
    dsimp only
    rw [Stmt.purgeElse_of_absent hi elseBranch coherent.2.2 filled.2 absent.2]
    rfl
  | .whileLoop guard invariants decreases body, coherent, filled, absent, p => by
    simp only [StmtKind.Coherent, StmtKind.names, List.mem_append, not_or] at coherent absent
    rw [StmtKind.purge, Expr.reduceOpt_of_absent coherent.1 absent.1.1.1]
    simp only [Reduction.whole, Reduction.purged]
    rw [Block.purge_of_absent hi coherent.2.2.2 filled absent.2,
      Expr.without_of_absent absent.1.1.2, Expr.without_of_absent absent.1.2]
    rfl
  | .forLoop index start stop ascending invariants body, coherent, filled, absent, p => by
    simp only [StmtKind.Coherent, StmtKind.names, List.mem_append, not_or] at coherent absent
    rw [StmtKind.purge, Expr.reduce_of_absent coherent.1 absent.1.1.1,
      Expr.reduceOpt_of_absent coherent.2.1 absent.1.1.2]
    simp only [Reduction.whole, Reduction.both, Reduction.purged, Option.map_some]
    rw [Block.purge_of_absent hi coherent.2.2.2 filled absent.2,
      Expr.without_of_absent absent.1.2, ite_self]
    rfl
  | .block b, coherent, filled, absent, p => by
    rw [StmtKind.purge, Block.purge_of_absent hi coherent filled absent]
  | .matchOn source cases, coherent, filled, absent, p => by
    simp only [StmtKind.Coherent, StmtKind.names, List.mem_append, not_or] at coherent absent
    rw [StmtKind.purge, Expr.reduce_of_absent coherent.1 absent.1]
    simp only [Reduction.whole, Reduction.purged]
    rw [MatchCase.purgeList_of_absent hi coherent.2 filled absent.2]
    rfl

theorem Stmt.purgeElse_of_absent (hi : Sparing dead inner) : (s : Option Stmt) →
    Stmt.CoherentOpt s → Stmt.filledElse s = true → dead ∉ Stmt.namesOpt s → ∀ p,
      Stmt.purgeElse inner dead s p = { rest := s, state := p }
  | none, _, _, _, p => rfl
  | some branch, coherent, filled, absent, p => by
    rw [Stmt.purgeElse, Stmt.purge_of_absent hi branch coherent filled absent]
    rfl
end

end

namespace Purge

theorem sparing_purgeList (limit fuel : Nat) (dead : String) (depth : Nat) :
    Sparing dead (purgeList limit fuel dead depth) := by
  refine purgeList_induct (P := fun _ dead _ list p x => Stmt.CoherentList list →
    Stmt.filledList list = true → dead ∉ Stmt.namesList list → x = (list, p))
    (fun _ _ _ _ _ _ _ _ _ => rfl) ?_ fuel dead depth
  rintro fuel dead depth s list p r x y ih - hr rfl rfl coherent filled absent
  simp only [Stmt.CoherentList, Stmt.filledList, Bool.and_eq_true, Stmt.namesList,
    List.mem_append, not_or] at coherent filled absent
  have kept := Stmt.purge_of_absent (ih dead depth) s coherent.1 filled.1 absent.1 p
  obtain rfl := hr.symm.trans kept
  simp only [adopt, Purged.counted, Option.isNone_some, Bool.false_eq_true, if_false,
    ih dead depth list p coherent.2 filled.2 absent.2, ite_self]
  rfl

end Purge

/-- What is left of a list: some statements are gone, and the others are in their places. The
statements with a property are as they were. -/
inductive Leaves (K : Stmt → Prop) : List Stmt → List Stmt → Prop
  | nil : Leaves K [] []
  | lost {s : Stmt} {list left : List Stmt} (hs : ¬ K s) (rest : Leaves K list left) :
    Leaves K (s :: list) left
  | kept {s s' : Stmt} {list left : List Stmt} (span : s'.span = s.span) (same : K s → s' = s)
    (rest : Leaves K list left) : Leaves K (s :: list) (s' :: left)

namespace Leaves

variable {K : Stmt → Prop} {list left left' : List Stmt}

theorem refl (list : List Stmt) : Leaves K list list := by
  induction list with
  | nil => exact .nil
  | cons s list ih => exact .kept rfl (fun _ => rfl) ih

theorem trans (h : Leaves K list left) (h' : Leaves K left left') : Leaves K list left' := by
  induction h generalizing left' with
  | nil => exact h'
  | lost hs rest ih => exact .lost hs (ih h')
  | kept span same rest ih =>
    cases h' with
    | lost hs' rest' => exact .lost (fun hs => hs' (same hs ▸ hs)) (ih rest')
    | kept span' same' rest' =>
      refine .kept (span'.trans span) (fun hs => ?_) (ih rest')
      obtain rfl := same hs
      exact same' hs

/-- A statement is gone or in its place. -/
theorem cons {s : Stmt} {rest : Option Stmt} (span : ∀ s' ∈ rest, s'.span = s.span)
    (same : K s → rest = some s) (h : Leaves K list left) :
    Leaves K (s :: list) (rest.toList ++ left) := by
  cases rest with
  | none => exact .lost (fun hs => by cases same hs) h
  | some s' => exact .kept (span s' rfl) (fun hs => Option.some.inj (same hs)) h

theorem spans (h : Leaves K list left) : (left.map (·.span)).Sublist (list.map (·.span)) := by
  induction h with
  | nil => exact .slnil
  | lost hs rest ih => exact ih.cons _
  | kept span same rest ih =>
    rw [List.map_cons, List.map_cons, span]
    exact ih.cons_cons _

theorem filter {keep : Stmt → Bool} (h : Leaves K list left)
    (hk : ∀ s ∈ list, keep s = true → K s) : (list.filter keep).Sublist left := by
  induction h with
  | nil => exact .slnil
  | @lost s list left hs rest ih =>
    obtain ⟨first, later⟩ := List.forall_mem_cons.1 hk
    rw [List.filter_cons_of_neg fun kept => hs (first kept)]
    exact ih later
  | @kept s s' list left span same rest ih =>
    obtain ⟨first, later⟩ := List.forall_mem_cons.1 hk
    by_cases kept : keep s = true
    · rw [List.filter_cons_of_pos kept, same (first kept)]
      exact (ih later).cons_cons _
    · rw [List.filter_cons_of_neg kept]
      exact (ih later).cons _

end Leaves

/-- The copies in the statement are in step, nothing in it is empty, and it mentions none of some
names. -/
structure Stmt.Bystander (names : List String) (s : Stmt) : Prop where
  coherent : s.Coherent
  filled : s.filled = true
  absent : ∀ n ∈ names, n ∉ s.names

namespace Purge

variable {limit depth : Nat} {names : List String}

theorem leaves_adopt {purge : String → Nat → ListPurge}
    (hp : ∀ name ∈ names, ∀ depth list p, (∀ z ∈ (purge name depth list p).2.cascaded, z ∈ names) →
      Leaves (Stmt.Bystander names) list (purge name depth list p).1)
    (growing : ∀ name depth, Growing (purge name depth)) (orphans : List Orphan)
    (list : List Stmt) (p : Purge)
    (recorded : ∀ z ∈ (adopt limit purge depth orphans list p).2.cascaded, z ∈ names) :
    Leaves (Stmt.Bystander names) list (adopt limit purge depth orphans list p).1 := by
  induction orphans generalizing list p with
  | nil => exact .refl list
  | cons orphan orphans ih =>
    rw [adopt] at recorded ⊢
    split
    · exact .refl list
    · rename_i above
      rw [if_neg above] at recorded
      split
      · rename_i seen
        rw [if_pos seen] at recorded
        exact ih list p recorded
      · rename_i unseen
        rw [if_neg unseen] at recorded
        have upto := fun z hz =>
          recorded z ((growing_adopt limit depth growing orphans _ _).cascaded z hz)
        have taken : orphan.1 ∈ names :=
          upto _ ((growing orphan.1 (depth + 1) list _).cascaded _ (by simp [takeIn]))
        exact (hp orphan.1 taken (depth + 1) list _ upto).trans (ih _ _ recorded)

/-- A purge leaves the statements that mention no purged name as they are. Induction on the bound
of the recursion; the names are those that the purge has recorded in the end. -/
theorem leaves_purgeList {fuel : Nat} {dead : String} (hd : dead ∈ names) (list : List Stmt)
    (p : Purge)
    (recorded : ∀ z ∈ (purgeList limit fuel dead depth list p).2.cascaded, z ∈ names) :
    Leaves (Stmt.Bystander names) list (purgeList limit fuel dead depth list p).1 := by
  refine purgeList_induct (P := fun _ dead _ list _ x => dead ∈ names →
    (∀ z ∈ x.2.cascaded, z ∈ names) → Leaves (Stmt.Bystander names) list x.1)
    (fun _ _ _ list _ _ _ _ => .refl list) ?_ fuel dead depth list p hd recorded
  rintro fuel dead depth s list p r x y ih - hr hx rfl hd recorded
  have growing := growing_purgeList limit fuel
  have spared : Stmt.Bystander names s → r.rest = some s := fun hs => by
    rw [← hr, Stmt.purge_of_absent (sparing_purgeList limit fuel dead depth) s hs.coherent
      hs.filled (hs.absent dead hd)]
  have span : ∀ s' ∈ r.rest, s'.span = s.span := fun s' h => Stmt.span_purge (hr ▸ h)
  have adopted : (∀ z ∈ x.2.cascaded, z ∈ names) → Leaves (Stmt.Bystander names) list x.1 := by
    subst hx
    exact leaves_adopt (fun name hn depth list p => ih name depth list p hn) growing _ _ _
  refine .cons span spared ?_
  dsimp only at recorded ⊢
  split
  · rename_i again
    rw [if_pos again] at recorded
    exact adopted recorded
  · rename_i other
    rw [if_neg other] at recorded
    have upto := fun z hz => recorded z ((growing dead depth _ _).cascaded z hz)
    exact (adopted upto).trans (ih dead depth _ _ hd recorded)

/-- A deletion leaves the statements behind the declaration that mention no deleted local as they
are. -/
theorem leaves_deleteLocal (limit : Nat) {name : String} (hn : name ∈ names) (s : Stmt)
    (list : List Stmt) (recorded : ∀ z ∈ (deleteLocal limit name s list).2.cascaded, z ∈ names) :
    ∃ left, (deleteLocal limit name s list).1 = (s.drop name).rest.toList ++ left ∧
      Leaves (Stmt.Bystander names) list left := by
  have growing := growing_purgeList limit (Stmt.weightList list)
  rw [deleteLocal_eq rfl rfl] at recorded ⊢
  refine ⟨_, rfl, ?_⟩
  have upto := fun z hz => recorded z ((growing_adopt limit 0 growing _ _ _).cascaded z hz)
  exact (leaves_purgeList hn list _ upto).trans
    (leaves_adopt (fun name hn depth list p => leaves_purgeList hn list p) growing _ _ _ recorded)

end Purge

theorem Stmt.span_drop {name : String} {s s' : Stmt} (h : (s.drop name).rest = some s') :
    s'.span = s.span := by
  unfold Stmt.drop at h
  split at h
  · obtain ⟨d, -, rfl⟩ := Option.map_eq_some_iff.1 h
    rfl
  · cases h
    rfl

theorem splitAtFirst_append {α : Type} {p : α → Bool} {before : List α} (a : α) (after : List α)
    (first : ∀ b ∈ before, p b = false) (ha : p a = true) :
    splitAtFirst p (before ++ a :: after) = some (before, a, after) := by
  induction before with
  | nil => simp [splitAtFirst, ha]
  | cons b before ih =>
    obtain ⟨hb, later⟩ := List.forall_mem_cons.1 first
    simp [splitAtFirst, hb, ih later]

theorem Stmt.coherent_of_mem {list : List Stmt} (coherent : CoherentList list) :
    ∀ s ∈ list, s.Coherent := by
  induction list with
  | nil => simp
  | cons s list ih => exact List.forall_mem_cons.2 ⟨coherent.1, ih coherent.2⟩

theorem Stmt.filledList_eq (list : List Stmt) : filledList list = list.all filled := by
  induction list with
  | nil => rfl
  | cons s list ih => rw [filledList, ih, List.all_cons]

/-- A deletion touches nothing in front of the declaration, puts nothing where it was not, and
leaves each statement behind the declaration that mentions neither the local nor an orphan exactly
as it was. -/
theorem Stmt.deleteVariable_spares {site : Site} {x : String} {front : List Stmt} {s : Stmt}
    {after list' : List Stmt} {span : Span} {notes : List Note}
    (target : site.isTarget s.span = true) (declares : x ∈ s.declares)
    (first : ∀ t ∈ front, site.isTarget t.span = true → x ∉ t.declares)
    (coherent : Stmt.CoherentList (front ++ s :: after))
    (filled : Stmt.filledList (front ++ s :: after) = true)
    (done : Stmt.deleteVariable site x (front ++ s :: after) = (.done (list', span), notes)) :
    (list'.map (·.span)).Sublist ((front ++ s :: after).map (·.span)) ∧
      ∃ left earlier extent deleted collapsed cascaded, list' = front ++ left ∧
        notes = earlier ++ [.variableDeleted x extent deleted collapsed cascaded] ∧
        (after.filter fun t => !Stmt.mentionAny [t] (x :: cascaded)).Sublist left := by
  have found := splitAtFirst_append (p := fun s => site.isTarget s.span && s.declares.contains x)
    s after (fun t ht => by simpa using first t ht) (by simp [target, declares])
  unfold deleteVariable at done
  rw [found] at done
  dsimp only at done
  split at done
  · cases done
  · obtain ⟨result, rfl⟩ := Prod.mk.inj done
    obtain ⟨rfl, -⟩ := Prod.mk.inj (Outcome.done.inj result)
    obtain ⟨left, eq, leaves⟩ := Purge.leaves_deleteLocal site.cascadeLimit
      (List.mem_cons_self (a := x) (l := (Purge.deleteLocal site.cascadeLimit x s after).2.cascaded))
      s after fun z hz => List.mem_cons_of_mem _ hz
    rw [eq]
    refine ⟨?_, _, _, _, _, _, _, rfl, rfl, ?_⟩
    · have here : ((s.drop x).rest.toList.map (·.span)).Sublist [s.span] := by
        cases rest : (s.drop x).rest with
        | none => exact List.nil_sublist _
        | some s' => simp [Stmt.span_drop rest]
      rw [List.map_append, List.map_append, List.map_append, List.map_cons]
      exact (List.Sublist.refl _).append (here.append leaves.spans)
    · refine (leaves.filter fun t ht apart => ?_).trans (List.sublist_append_right _ _)
      have mem : t ∈ front ++ s :: after := by simp [ht]
      refine ⟨coherent_of_mem coherent t mem, ?_, fun n hn => ?_⟩
      · rw [filledList_eq, List.all_eq_true] at filled
        exact filled t mem
      · simp only [mentionAny, Stmt.namesList, List.append_nil, Bool.not_eq_true',
          List.any_eq_false, List.contains_iff_mem] at apart
        exact apart n hn

/-- The declaration of a local, a read of it, and a statement that knows nothing of it. -/
def Stmt.beside : List Stmt :=
  [⟨.print [⟨.name "c", .token 1, .int⟩], .range 1 2, false⟩,
    ⟨.varDecl (.withInit [⟨"x", .int, .token 3, false⟩] [⟨.literal .null, .token 4, .int⟩]),
      .range 3 5, false⟩,
    ⟨.print [⟨.name "x", .token 6, .int⟩], .range 6 7, false⟩,
    ⟨.print [⟨.name "c", .token 8, .int⟩], .range 8 9, false⟩]

theorem Stmt.coherent_beside : CoherentList beside := by
  have name : ∀ {n : String} {span : Span} {ty : Ty}, Expr.Coherent ⟨.name n, span, ty⟩ :=
    .ofParts (by simp) (by simp [ExprKind.parts])
  have null : ∀ {span : Span} {ty : Ty}, Expr.Coherent ⟨.literal .null, span, ty⟩ :=
    .ofParts (by simp) (by simp [ExprKind.parts])
  refine ⟨?_, ?_, ?_, ?_, trivial⟩
  · simp [Stmt.Coherent, StmtKind.Coherent, name]
  · rintro _ ⟨⟩
    exact Update.coherent_make (by simp [Variable.ref, name]) (by simp [null])
  · simp [Stmt.Coherent, StmtKind.Coherent, name]
  · simp [Stmt.Coherent, StmtKind.Coherent, name]

/-- The read goes with the local, and the other statements stay. -/
theorem Stmt.beside_deleteVariable :
    ∃ list' span notes,
      Stmt.deleteVariable ⟨.range 3 5, none, 64, {}⟩ "x" beside = (.done (list', span), notes) ∧
        list'.length = 2 ∧ (list'.map (·.span)).Sublist (beside.map (·.span)) ∧
        ∃ left earlier extent deleted collapsed cascaded, list' = beside.take 1 ++ left ∧
          notes = earlier ++ [.variableDeleted "x" extent deleted collapsed cascaded] ∧
          ((beside.drop 2).filter fun t => !Stmt.mentionAny [t] ("x" :: cascaded)).Sublist left :=
  ⟨_, _, _, rfl, rfl, @Stmt.deleteVariable_spares ⟨.range 3 5, none, 64, {}⟩ "x" (beside.take 1)
    beside[1] (beside.drop 2) _ _ _ (by decide) (by decide) (by decide) coherent_beside (by decide)
    rfl⟩

end Mutation
