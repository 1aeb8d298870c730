import Mutation.Proofs.Cascade
import Mutation.Proofs.Expense

/-!
# What the limit of a cascade decides

The recursion of a purge is bounded by the weight of its list. Here is the purge without that
bound, as a relation that says which purges a purge starts (`Purge.Runs`, `Purge.Adopts`). Every
purge runs to one end, at every limit, and the bounded recursion computes it (`Purge.runs_iff`).

A limit matters only to a purge that is given up: giving up is never taken back, so a purge that
has not been given up in the end has met no orphan at its limit, and goes the same way at any
higher one (`Purge.purgeList_raise`).
-/

namespace Mutation

mutual
/-- The statement lists in a statement, those of its `else` branches included. -/
def Stmt.nested : Stmt → List (List Stmt)
  | ⟨kind, _, _⟩ => kind.nested

def StmtKind.nested : StmtKind → List (List Stmt)
  | .ifElse _ thenBranch elseBranch => thenBranch.stmts :: Stmt.nestedElse elseBranch
  | .whileLoop _ _ _ body => [body.stmts]
  | .forLoop _ _ _ _ _ body => [body.stmts]
  | .block b => [b.stmts]
  | .matchOn _ cases => cases.map (·.body)
  | .varDecl _ | .update _ | .expr _ | .ret _ | .breakLoop | .continueLoop | .assert _ | .assume _
  | .print _ => []

/-- The statement lists in an `else` branch. -/
def Stmt.nestedElse : Option Stmt → List (List Stmt)
  | none => []
  | some branch => branch.nested
end

theorem Block.weight_eq_list (b : Block) : b.weight = Stmt.weightList b.stmts := by
  cases b
  rfl

theorem MatchCase.weightList_le {c : MatchCase} {cases : List MatchCase} (h : c ∈ cases) :
    Stmt.weightList c.body ≤ MatchCase.weightList cases := by
  induction h with
  | head cases =>
    obtain ⟨pattern, body, span⟩ := c
    exact Nat.le_add_right _ _
  | tail d h ih =>
    obtain ⟨pattern, body, span⟩ := d
    exact Nat.le_trans ih (Nat.le_add_left _ _)

mutual
/-- A list in a statement is lighter than the statement. -/
theorem Stmt.weightList_lt : (s : Stmt) → ∀ part ∈ s.nested, Stmt.weightList part < s.weight
  | ⟨kind, _, _⟩, part, h => Nat.lt_succ_of_le (StmtKind.weightList_le kind part h)

theorem StmtKind.weightList_le :
    (kind : StmtKind) → ∀ part ∈ kind.nested, Stmt.weightList part ≤ kind.weight
  | .ifElse _ thenBranch elseBranch, part, h => by
    rw [StmtKind.weight, Block.weight_eq_list]
    rcases List.mem_cons.1 h with rfl | h
    · exact Nat.le_add_right _ _
    · exact Nat.le_trans (Stmt.weightList_le_else elseBranch part h) (Nat.le_add_left _ _)
  | .whileLoop _ _ _ body, part, h | .forLoop _ _ _ _ _ body, part, h | .block body, part, h => by
    rw [StmtKind.weight, Block.weight_eq_list, List.mem_singleton.1 h]
  | .matchOn _ cases, part, h => by
    obtain ⟨c, hc, rfl⟩ := List.mem_map.1 h
    exact MatchCase.weightList_le hc

theorem Stmt.weightList_le_else :
    (s : Option Stmt) → ∀ part ∈ Stmt.nestedElse s, Stmt.weightList part ≤ Stmt.weightOpt s
  | some branch, part, h => Nat.le_of_lt (Stmt.weightList_lt branch part h)
end

section

variable {inner inner' : ListPurge} {dead : String} {P : Purge → Prop}

theorem MatchCase.purgeList_congr (back : ∀ {p q : Purge}, p.Grows q → P q → P p)
    (growing : Growing inner) {cases : List MatchCase}
    (same : ∀ part ∈ cases.map (·.body), ∀ q, P (inner part q).2 → inner' part q = inner part q)
    (p : Purge) (h : P (MatchCase.purgeList inner dead cases p).2) :
    MatchCase.purgeList inner' dead cases p = MatchCase.purgeList inner dead cases p := by
  induction cases generalizing p with
  | nil => rfl
  | cons c cases ih =>
    obtain ⟨first, later⟩ := List.forall_mem_cons.1 same
    simp only [MatchCase.purgeList] at h ⊢
    by_cases hidden : c.pattern.names.contains dead = true
    · simp only [hidden, if_true] at h ⊢
      rw [ih later p h]
    · simp only [hidden, Bool.false_eq_true, if_false] at h ⊢
      rw [first p (back (MatchCase.grows_purgeList growing cases _) h), ih later _ h]

mutual
/-- What is left of a statement depends on the purge of the lists in it, and only on those purges
after which a state that ends in `P` can still be reached. -/
theorem Stmt.purge_congr (back : ∀ {p q : Purge}, p.Grows q → P q → P p)
    (growing : Growing inner) : (s : Stmt) →
    (∀ part ∈ s.nested, ∀ q, P (inner part q).2 → inner' part q = inner part q) →
    ∀ p, P (s.purge inner dead p).state → s.purge inner' dead p = s.purge inner dead p
  | ⟨kind, span, ghost⟩, same, p, h => by
    rw [Stmt.purge, Stmt.purge, StmtKind.purge_congr back growing span kind same p h]

theorem StmtKind.purge_congr (back : ∀ {p q : Purge}, p.Grows q → P q → P p)
    (growing : Growing inner) (span : Span) : (kind : StmtKind) →
    (∀ part ∈ kind.nested, ∀ q, P (inner part q).2 → inner' part q = inner part q) →
    ∀ p, P (kind.purge inner dead span p).state →
      kind.purge inner' dead span p = kind.purge inner dead span p
  | .ifElse guard thenBranch elseBranch, same, p, h => by
    obtain ⟨first, later⟩ := List.forall_mem_cons.1 same
    simp only [StmtKind.purge, Block.purge] at h ⊢
    split at h
    · rfl
    · have upto := back (Stmt.grows_purgeElse growing elseBranch _) h
      rw [first _ upto, Stmt.purgeElse_congr back growing elseBranch later _ h]
  | .whileLoop guard invariants decreases body, same, p, h => by
    simp only [StmtKind.purge, Block.purge] at h ⊢
    split at h
    · rfl
    · rw [same _ (List.mem_singleton_self _) _ h]
  | .forLoop index start stop ascending invariants body, same, p, h => by
    simp only [StmtKind.purge, Block.purge] at h ⊢
    split at h
    · rfl
    · by_cases hidden : index.name = dead
      · rw [if_pos hidden, if_pos hidden]
      · rw [if_neg hidden] at h ⊢
        rw [if_neg hidden, same _ (List.mem_singleton_self _) _ h]
  | .block b, same, p, h => by
    simp only [StmtKind.purge, Block.purge] at h ⊢
    rw [same _ (List.mem_singleton_self _) _ h]
  | .matchOn source cases, same, p, h => by
    simp only [StmtKind.purge] at h ⊢
    split at h
    · rfl
    · rw [MatchCase.purgeList_congr back growing same _ h]
  | .varDecl _, _, _, _ | .update _, _, _, _ | .expr _, _, _, _ | .ret _, _, _, _
  | .breakLoop, _, _, _ | .continueLoop, _, _, _ | .assert _, _, _, _ | .assume _, _, _, _
  | .print _, _, _, _ => rfl

theorem Stmt.purgeElse_congr (back : ∀ {p q : Purge}, p.Grows q → P q → P p)
    (growing : Growing inner) : (s : Option Stmt) →
    (∀ part ∈ Stmt.nestedElse s, ∀ q, P (inner part q).2 → inner' part q = inner part q) →
    ∀ p, P (Stmt.purgeElse inner dead s p).state →
      Stmt.purgeElse inner' dead s p = Stmt.purgeElse inner dead s p
  | none, _, _, _ => rfl
  | some branch, same, p, h => by
    rw [Stmt.purgeElse, Stmt.purgeElse, Stmt.purge_congr back growing branch same p h]
end

end

namespace Purge

variable {limit depth : Nat} {dead : String} {list : List Stmt} {p : Purge}
  {x : List Stmt × Purge}

mutual
/-- The purge of `dead` from a list comes to an end. The lists in a statement are purged in the
states that the purge of the statement passes through; `inner` is what that comes to. -/
inductive Runs (limit : Nat) : String → Nat → List Stmt → Purge → List Stmt × Purge → Prop
  | nil {dead : String} {depth : Nat} {p : Purge} : Runs limit dead depth [] p ([], p)
  | givenUp {dead : String} {depth : Nat} {s : Stmt} {list : List Stmt} {p : Purge}
    (exhausted : p.exhausted = true) : Runs limit dead depth (s :: list) p (s :: list, p)
  /-- A declaration of the same name is the last statement that is purged. -/
  | last {dead : String} {depth : Nat} {s : Stmt} {list : List Stmt} {p : Purge}
    {inner : ListPurge} {r : Purged Stmt} {x : List Stmt × Purge}
    (going : p.exhausted = false)
    (nested : ∀ part ∈ s.nested, ∀ q, Runs limit dead depth part q (inner part q))
    (purged : s.purge inner dead p = r) (adopted : Adopts limit depth r.orphans list r.counted x)
    (again : dead ∈ s.declares) :
    Runs limit dead depth (s :: list) p (r.rest.toList ++ x.1, x.2)
  | next {dead : String} {depth : Nat} {s : Stmt} {list : List Stmt} {p : Purge}
    {inner : ListPurge} {r : Purged Stmt} {x y : List Stmt × Purge}
    (going : p.exhausted = false)
    (nested : ∀ part ∈ s.nested, ∀ q, Runs limit dead depth part q (inner part q))
    (purged : s.purge inner dead p = r) (adopted : Adopts limit depth r.orphans list r.counted x)
    (other : dead ∉ s.declares) (rest : Runs limit dead depth x.1 x.2 y) :
    Runs limit dead depth (s :: list) p (r.rest.toList ++ y.1, y.2)

/-- The purge of orphans from a list comes to an end. -/
inductive Adopts (limit : Nat) : Nat → List Orphan → List Stmt → Purge → List Stmt × Purge → Prop
  | nil {depth : Nat} {list : List Stmt} {p : Purge} : Adopts limit depth [] list p (list, p)
  | tooDeep {depth : Nat} {orphan : Orphan} {orphans : List Orphan} {list : List Stmt} {p : Purge}
    (deep : limit ≤ depth) :
    Adopts limit depth (orphan :: orphans) list p (list, p.exhaust orphan.1 depth)
  | visited {depth : Nat} {orphan : Orphan} {orphans : List Orphan} {list : List Stmt} {p : Purge}
    {x : List Stmt × Purge} (above : depth < limit) (seen : p.hasVisited orphan = true)
    (others : Adopts limit depth orphans list p x) :
    Adopts limit depth (orphan :: orphans) list p x
  | takenIn {depth : Nat} {orphan : Orphan} {orphans : List Orphan} {list : List Stmt} {p : Purge}
    {x y : List Stmt × Purge} (above : depth < limit) (unseen : p.hasVisited orphan = false)
    (purged : Runs limit orphan.1 (depth + 1) list (p.takeIn orphan) x)
    (others : Adopts limit depth orphans x.1 x.2 y) :
    Adopts limit depth (orphan :: orphans) list p y
end

theorem Adopts.of_runs {purge : String → Nat → ListPurge} {n : Nat}
    (runs : ∀ name depth list p, Stmt.weightList list ≤ n →
      Runs limit name depth list p (purge name depth list p))
    (paying : ∀ name depth, Paying (purge name depth)) (orphans : List Orphan)
    (light : Stmt.weightList list ≤ n) :
    Adopts limit depth orphans list p (adopt limit purge depth orphans list p) := by
  induction orphans generalizing list p with
  | nil => exact .nil
  | cons orphan orphans ih =>
    rw [adopt]
    split
    · rename_i deep
      exact .tooDeep deep
    · rename_i above
      split
      · rename_i seen
        exact .visited (Nat.lt_of_not_le above) seen (ih light)
      · rename_i unseen
        have lighter := (paying orphan.1 (depth + 1) list (p.takeIn orphan)).lighter
        exact .takenIn (Nat.lt_of_not_le above) (by simpa using unseen) (runs _ _ _ _ light)
          (ih (Nat.le_trans lighter light))

/-- The bounded recursion reaches the end of a list that is no heavier than the bound. Induction on
the bound: what is nested in the first statement is lighter, and so is what is left behind it. -/
theorem runs_purgeList {fuel : Nat} (light : Stmt.weightList list ≤ fuel) :
    Runs limit dead depth list p (purgeList limit fuel dead depth list p) := by
  refine purgeList_induct (P := fun fuel dead depth list p x =>
    Stmt.weightList list ≤ fuel → Runs limit dead depth list p x) ?_ ?_ fuel dead depth list p light
  · rintro fuel dead depth list p reason light
    cases list with
    | nil => exact .nil
    | cons s list =>
      rw [Stmt.weightList] at light
      have weighs := s.weight_pos
      rcases reason with rfl | none | exhausted
      · omega
      · cases none
      · exact .givenUp exhausted
  · rintro fuel dead depth s list p r x y ih going hr rfl rfl light
    rw [Stmt.weightList] at light
    have weighs := s.weight_pos
    have behind : Stmt.weightList list ≤ fuel := by omega
    have paying := paying_purgeList limit fuel
    have nested : ∀ part ∈ s.nested, ∀ q,
        Runs limit dead depth part q (purgeList limit fuel dead depth part q) := by
      intro part mem q
      have lighter := s.weightList_lt part mem
      exact ih _ _ _ _ (by omega)
    have adopted : Adopts limit depth r.orphans list r.counted
        (adopt limit (purgeList limit fuel) depth r.orphans list r.counted) :=
      .of_runs ih paying r.orphans behind
    have lighter := (paying_adopt limit depth paying r.orphans list r.counted).lighter
    split
    · rename_i again
      exact .last going nested hr adopted (by simpa using again)
    · rename_i other
      exact .next going nested hr adopted (by simpa using other)
        (ih _ _ _ _ (Nat.le_trans lighter behind))

/-- What the bounded recursion makes of a statement is settled by what it makes of the lists in
it. -/
theorem purge_of_nested {fuel : Nat} {s : Stmt} {inner : ListPurge}
    (same : ∀ part ∈ s.nested, ∀ q, purgeList limit fuel dead depth part q = inner part q)
    (p : Purge) :
    s.purge (purgeList limit fuel dead depth) dead p = s.purge inner dead p :=
  (Stmt.purge_congr (P := fun _ => True) (fun _ => id) (growing_purgeList limit fuel dead depth) s
    (fun part mem q _ => (same part mem q).symm) p trivial).symm

mutual
/-- A run ends where the bounded recursion does. -/
theorem Runs.eq {dead : String} {depth : Nat} {list : List Stmt} {p : Purge}
    {x : List Stmt × Purge} : Runs limit dead depth list p x → ∀ fuel : Nat,
    Stmt.weightList list ≤ fuel → purgeList limit fuel dead depth list p = x
  | .nil, 0, _ => rfl
  | .nil, _ + 1, _ => rfl
  | .givenUp _, 0, _ => rfl
  | .givenUp exhausted, _ + 1, _ => by rw [purgeList, if_pos exhausted]
  | .last (s := s) .., 0, light | .next (s := s) .., 0, light => by
    rw [Stmt.weightList] at light
    have weighs := s.weight_pos
    omega
  | .last (s := s) going nested purged adopted again, fuel + 1, light => by
    rw [Stmt.weightList] at light
    have weighs := s.weight_pos
    have same := purge_of_nested fun part mem q => (nested part mem q).eq fuel
      (by have lighter := s.weightList_lt part mem; omega)
    have first := adopted.eq fuel (by omega)
    rw [purgeList_cons going ((same _).trans purged) first rfl, if_pos (by simpa using again)]
  | @Runs.next _ _ _ s list _ _ r _ _ going nested purged adopted other rest, fuel + 1, light => by
    rw [Stmt.weightList] at light
    have weighs := s.weight_pos
    have same := purge_of_nested fun part mem q => (nested part mem q).eq fuel
      (by have lighter := s.weightList_lt part mem; omega)
    have first := adopted.eq fuel (by omega)
    have lighter :=
      (paying_adopt limit depth (paying_purgeList limit fuel) r.orphans list r.counted).lighter
    rw [first] at lighter
    have second := rest.eq fuel (by omega)
    rw [purgeList_cons going ((same _).trans purged) first rfl, if_neg (by simpa using other), second]

theorem Adopts.eq {depth : Nat} {orphans : List Orphan} {list : List Stmt} {p : Purge}
    {x : List Stmt × Purge} : Adopts limit depth orphans list p x → ∀ fuel : Nat,
    Stmt.weightList list ≤ fuel → adopt limit (purgeList limit fuel) depth orphans list p = x
  | .nil, _, _ => rfl
  | .tooDeep deep, _, _ => by rw [adopt, if_pos deep]
  | .visited above seen others, fuel, light => by
    rw [adopt, if_neg (Nat.not_le_of_lt above), if_pos seen]
    exact others.eq fuel light
  | @Adopts.takenIn _ _ orphan _ list p _ _ above unseen purged others, fuel, light => by
    have first := purged.eq fuel light
    have lighter := (paying_purgeList limit fuel orphan.1 (depth + 1) list (p.takeIn orphan)).lighter
    rw [first] at lighter
    rw [adopt, if_neg (Nat.not_le_of_lt above), if_neg (by simp [unseen]), first]
    exact others.eq fuel (Nat.le_trans lighter light)
end

/-- The runs of a purge are what the bounded recursion computes. -/
theorem runs_iff {fuel : Nat} (light : Stmt.weightList list ≤ fuel) :
    Runs limit dead depth list p x ↔ purgeList limit fuel dead depth list p = x :=
  ⟨fun run => run.eq fuel light, fun h => h ▸ runs_purgeList light⟩

/-- A purge of orphans that has not been given up goes the same way at any higher limit. -/
theorem adopt_raise {limit' : Nat} (higher : limit ≤ limit') {purge purge' : String → Nat → ListPurge}
    (same : ∀ name depth list p, (purge name depth list p).2.exhausted = false →
      purge' name depth list p = purge name depth list p)
    (growing : ∀ name depth, Growing (purge name depth)) (orphans : List Orphan)
    (going : (adopt limit purge depth orphans list p).2.exhausted = false) :
    adopt limit' purge' depth orphans list p = adopt limit purge depth orphans list p := by
  induction orphans generalizing list p with
  | nil => rfl
  | cons orphan orphans ih =>
    rw [adopt] at going ⊢
    by_cases deep : limit ≤ depth
    · rw [if_pos deep] at going
      cases going
    · rw [if_neg deep] at going
      rw [adopt, if_neg deep, if_neg (by omega)]
      split
      · rename_i seen
        rw [if_pos seen] at going
        exact ih going
      · rename_i unseen
        rw [if_neg unseen] at going
        have upto := (growing_adopt limit depth growing orphans _ _).exhausted going
        rw [same orphan.1 (depth + 1) list _ upto]
        exact ih going

/-- A purge that has not been given up goes the same way at any higher limit. -/
theorem purgeList_raise {limit' : Nat} (higher : limit ≤ limit') {fuel : Nat}
    (going : (purgeList limit fuel dead depth list p).2.exhausted = false) :
    purgeList limit' fuel dead depth list p = purgeList limit fuel dead depth list p := by
  refine purgeList_induct (P := fun fuel dead depth list p x => x.2.exhausted = false →
    purgeList limit' fuel dead depth list p = x) (fun _ _ _ _ _ reason _ => purgeList_idle reason)
    ?_ fuel dead depth list p going
  rintro fuel dead depth s list p r x y ih given hr hx hy going
  have growing := growing_purgeList limit fuel
  -- each state on the way is one before the end, where the purge has not been given up
  have adopted : x.2.exhausted = false := by
    subst hy
    dsimp only at going
    split at going
    · exact going
    · exact (growing dead depth x.1 x.2).exhausted going
  have purged : r.state.exhausted = false := by
    subst hx
    exact (Grows.counted r).exhausted
      ((growing_adopt limit depth growing r.orphans list _).exhausted adopted)
  subst hr hx
  refine purgeList_cons given ?_ (adopt_raise higher ih growing _ adopted) ?_
  · exact Stmt.purge_congr (P := fun q => q.exhausted = false) (fun grows => grows.exhausted)
      (growing dead depth) s (fun part _ q => ih dead depth part q) p purged
  · subst hy
    dsimp only at going
    split
    · rfl
    · rename_i other
      rw [if_neg other] at going
      exact ih _ _ _ _ going

end Purge

/-- What is left of a declaration without one of its locals, and the locals that it loses beside
it. -/
def Stmt.drop (name : String) (s : Stmt) : Purged Stmt :=
  match s.kind with
  | .varDecl d =>
    { rest := (d.drop name).1.map fun d => { s with kind := .varDecl d }
      orphans := (d.drop name).2.map fun n => (n, s.span)
      state := { visited := [(name, s.span)] } }
  | _ => { rest := some s, state := { visited := [(name, s.span)] } }

namespace Purge

/-- The deletion of a local comes to an end. -/
inductive Deletes (limit : Nat) (name : String) (s : Stmt) (list : List Stmt) :
    List Stmt × Purge → Prop
  | mk {x y : List Stmt × Purge} (purged : Runs limit name 0 list (s.drop name).counted x)
    (adopted : Adopts limit 0 (s.drop name).orphans x.1 x.2 y) :
    Deletes limit name s list ((s.drop name).rest.toList ++ y.1, y.2)

variable {limit : Nat} {name : String} {s : Stmt} {list : List Stmt} {x y : List Stmt × Purge}

theorem deleteLocal_eq
    (hx : purgeList limit (Stmt.weightList list) name 0 list (s.drop name).counted = x)
    (hy : adopt limit (purgeList limit (Stmt.weightList list)) 0 (s.drop name).orphans x.1 x.2 = y) :
    deleteLocal limit name s list = ((s.drop name).rest.toList ++ y.1, y.2) := by
  subst hx hy
  obtain ⟨kind, span, ghost⟩ := s
  cases kind <;> rfl

theorem deletes_iff : Deletes limit name s list x ↔ deleteLocal limit name s list = x := by
  have light := Nat.le_refl (Stmt.weightList list)
  have paying := paying_purgeList limit (Stmt.weightList list)
  constructor
  · rintro ⟨purged, adopted⟩
    have first := purged.eq _ light
    have lighter := (paying name 0 list (s.drop name).counted).lighter
    rw [first] at lighter
    exact deleteLocal_eq first (adopted.eq _ lighter)
  · rintro rfl
    rw [deleteLocal_eq rfl rfl]
    exact .mk (runs_purgeList light)
      (.of_runs (fun _ _ _ _ => runs_purgeList) paying _ (paying name 0 list _).lighter)

/-- A deletion that has not been given up goes the same way at any higher limit. -/
theorem deleteLocal_raise {limit' : Nat} (higher : limit ≤ limit')
    (going : (deleteLocal limit name s list).2.exhausted = false) :
    deleteLocal limit' name s list = deleteLocal limit name s list := by
  have growing := growing_purgeList limit (Stmt.weightList list)
  generalize hx : purgeList limit (Stmt.weightList list) name 0 list (s.drop name).counted = x
  generalize hy : adopt limit (purgeList limit (Stmt.weightList list)) 0 (s.drop name).orphans x.1
    x.2 = y
  rw [deleteLocal_eq hx hy] at going ⊢
  subst hx hy
  exact deleteLocal_eq
    (purgeList_raise higher ((growing_adopt limit 0 growing _ _ _).exhausted going))
    (adopt_raise higher (fun _ _ _ _ => purgeList_raise higher) growing _ going)

end Purge

/-- Every purge ends, and the one of a deletion ends as the deletion says. A higher limit lets a
deletion pass, and never changes what it does. A list that declares no more locals than its limit
and one is never given up. -/
theorem Stmt.deleteVariable_limit (site : Site) (name : String) (list : List Stmt) :
    (∀ limit dead depth list p, ∃! x, Purge.Runs limit dead depth list p x) ∧
    (∀ limit s after x, Purge.Deletes limit name s after x ↔
      Purge.deleteLocal limit name s after = x) ∧
    (∀ limit, site.cascadeLimit ≤ limit → ∀ result notes,
      Stmt.deleteVariable site name list = (.done result, notes) →
        Stmt.deleteVariable { site with cascadeLimit := limit } name list =
          (.done result, notes)) ∧
    (Stmt.localCountList list ≤ site.cascadeLimit + 1 → ∀ left,
      (Stmt.deleteVariable site name list).1 ≠ .refused .cascadeExhausted left) := by
  refine ⟨?_, fun _ _ _ _ => Purge.deletes_iff, ?_, ?_⟩
  · intro limit dead depth list p
    exact ⟨_, Purge.runs_purgeList (Nat.le_refl _), fun x run => (run.eq _ (Nat.le_refl _)).symm⟩
  · intro limit higher result notes done
    unfold deleteVariable at done ⊢
    dsimp only [Site.isTarget] at done ⊢
    split at done
    · cases done
    · rename_i before s after found
      split at done
      · cases done
      · rename_i going
        rw [Purge.deleteLocal_raise higher (by simpa using going), if_neg going, done]
  · intro few left refused
    exact Nat.not_lt_of_le few (Stmt.deleteVariable_exhausted refused)

/-- The two locals of the list are deleted at the limit of one, and at any higher one. -/
theorem Stmt.following_limit :
    Stmt.deleteVariable ⟨.range 1 4, none, 64, {}⟩ "x" following =
        (.done ([⟨.print [⟨.name "c", .token 10, .int⟩], .range 9 12, false⟩], .range 1 4),
          [.variableDeleted "x" .statementsDeleted 2 0 ["y"]]) ∧
      (Stmt.deleteVariable ⟨.range 1 4, none, 1, {}⟩ "x" following).1 ≠
        .refused .cascadeExhausted following := by
  obtain ⟨-, -, raise, few⟩ := Stmt.deleteVariable_limit ⟨.range 1 4, none, 1, {}⟩ "x" following
  exact ⟨raise 64 (by decide) _ _ rfl, few (by decide) _⟩

end Mutation
