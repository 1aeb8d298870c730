import Mathlib.Data.List.Nodup
import Mutation.Proofs.Referents

/-!
# Code that is moved

What some code refers to depends on the environment in front of it only through its free names
(`Scoping.references_eq_iff`). So code that is moved past declarations refers to the same
declarations as before exactly when it uses none of the declared names freely
(`Scoping.references_bound_iff`): a name that is declared in between is captured.

`Scoping.Stands` says that code stands somewhere in the scoping of a tree and that other code comes
to its place. Other code that binds the same leaves the references around it as they were
(`Scoping.Stands.references`). The places in a scoping can be told apart in any way
(`Scoping.Stands.lift`), also so that no two declarations share one (`Scoping.exists_distinct`).
-/

namespace Mutation

namespace Scoping

variable {α β : Type} {s s' t t' : Scoping α} {env env' : Env α} {n : String}

/-- The names that are used where the code itself does not bind them. -/
def free : Scoping α → List String
  | .done => []
  | .use _ name rest => name :: rest.free
  | .bind _ _ name rest => rest.free.filter (· ∉ [name])
  | .scope inside rest => inside.free ++ rest.free

theorem free_append (s t : Scoping α) : (s ++ t).free = s.free ++ t.free.filter (· ∉ s.binders) := by
  induction s with
  | done => simp [free, binders]
  | use place name rest ih => rw [use_append, free, free, ih]; rfl
  | bind place origin name rest ih =>
    rw [bind_append, free, free, ih, List.filter_append, List.filter_filter]
    congr 1
    refine List.filter_congr fun n _ => ?_
    simp [binders]
  | scope inside rest _ ih => rw [scope_append, free, free, ih, List.append_assoc]; rfl

@[simp] theorem free_ofUses (uses : List (α × String)) : (ofUses uses).free = uses.map (·.2) := by
  induction uses with
  | nil => rfl
  | cons use uses ih => rw [List.map_cons, ← ih]; rfl

@[simp] theorem free_ofBinders (origin : Origin) (l : List (α × String)) :
    (ofBinders origin l).free = [] := by
  induction l with
  | nil => rfl
  | cons binder l ih =>
    change (ofBinders origin l).free.filter _ = []
    rw [ih, List.filter_nil]

@[simp] theorem free_map (f : α → β) (s : Scoping α) : (s.map f).free = s.free := by
  induction s with
  | done => rfl
  | use place name rest ih => simp only [map, free, ih]
  | bind place origin name rest ih => simp only [map, free, ih]
  | scope inside rest hi ih => simp only [map, free, hi, ih]

theorem length_references (s : Scoping α) (env env' : Env α) :
    (s.references env).length = (s.references env').length := by
  induction s generalizing env env' with
  | done => rfl
  | use place name rest ih => rw [references, references, List.length_cons, List.length_cons, ih]
  | bind place origin name rest ih => exact ih _ _
  | scope inside rest hi ih =>
    rw [references, references, List.length_append, List.length_append, hi env env', ih env env']

/-- Two environments make no difference to some code exactly when they agree on its free names. -/
theorem references_eq_iff :
    s.references env = s.references env' ↔ ∀ n ∈ s.free, env.lookup n = env'.lookup n := by
  induction s generalizing env env' with
  | done => simp [references, free]
  | use place name rest ih => simp [references, free, ih]
  | bind place origin name rest ih =>
    rw [references, references, ih, free]
    refine ⟨fun same n hn => ?_, fun same n hn => ?_⟩
    · obtain ⟨used, other⟩ := List.mem_filter.1 hn
      have differ : (n == name) = false := by simpa using other
      simpa [List.lookup_cons, differ] using same n used
    · rw [List.lookup_cons, List.lookup_cons]
      split
      · rfl
      · rename_i differ
        exact same n (List.mem_filter.2 ⟨hn, by simpa using differ⟩)
  | scope inside rest hi ih =>
    rw [references, references, free, List.forall_mem_append, ← hi, ← ih]
    refine ⟨fun same => List.append_inj same (length_references inside env env'), ?_⟩
    rintro ⟨first, later⟩
    rw [first, later]

/-- The environment behind some code. What is bound in inner scopes stays there. -/
def bound : Scoping α → Env α → Env α
  | .done, env => env
  | .use _ _ rest, env => rest.bound env
  | .bind place origin name rest, env => rest.bound ((name, place, origin) :: env)
  | .scope _ rest, env => rest.bound env

theorem bound_append (s t : Scoping α) (env : Env α) :
    (s ++ t).bound env = t.bound (s.bound env) := by
  induction s generalizing env with
  | done => rfl
  | use place name rest ih => exact ih env
  | bind place origin name rest ih => exact ih _
  | scope inside rest _ ih => exact ih env

theorem bound_of_binders (none : s.binders = []) (env : Env α) : s.bound env = env := by
  induction s with
  | done => rfl
  | use place name rest ih | scope inside rest _ ih => exact ih none
  | bind place origin name rest ih => cases none

theorem references_append (s t : Scoping α) (env : Env α) :
    (s ++ t).references env = s.references env ++ t.references (s.bound env) := by
  induction s generalizing env with
  | done => rfl
  | use place name rest ih => rw [use_append, references, references, ih, List.cons_append]; rfl
  | bind place origin name rest ih => exact ih _
  | scope inside rest _ ih =>
    rw [scope_append, references, references, ih, List.append_assoc]; rfl

/-- The places of the binders, those in inner scopes too. -/
def binderPlaces : Scoping α → List α
  | .done => []
  | .use _ _ rest => rest.binderPlaces
  | .bind place _ _ rest => place :: rest.binderPlaces
  | .scope inside rest => inside.binderPlaces ++ rest.binderPlaces

theorem binderPlaces_append (s t : Scoping α) :
    (s ++ t).binderPlaces = s.binderPlaces ++ t.binderPlaces := by
  induction s with
  | done => rfl
  | use place name rest ih => simp only [use_append, binderPlaces, ih]
  | bind place origin name rest ih => simp only [bind_append, binderPlaces, ih, List.cons_append]
  | scope inside rest _ ih => simp only [scope_append, binderPlaces, ih, List.append_assoc]

/-- A name that is not bound in between is found where it was found. -/
theorem lookup_bound_of_not_mem (h : n ∉ s.binders) (env : Env α) :
    (s.bound env).lookup n = env.lookup n := by
  induction s generalizing env with
  | done => rfl
  | use place name rest ih | scope inside rest _ ih => exact ih h env
  | bind place origin name rest ih =>
    obtain ⟨other, later⟩ := not_or.1 (mt List.mem_cons.2 h)
    rw [bound, ih later, List.lookup_cons, beq_eq_false_iff_ne.2 other]

/-- A name that is bound in between is found there, whatever is in front. -/
theorem lookup_bound_of_mem (h : n ∈ s.binders) :
    ∃ place origin, place ∈ s.binderPlaces ∧
      ∀ env : Env α, (s.bound env).lookup n = some (place, origin) := by
  induction s with
  | done => cases h
  | use place name rest ih => exact ih h
  | bind place origin name rest ih =>
    by_cases later : n ∈ rest.binders
    · obtain ⟨place', origin', mem, found⟩ := ih later
      exact ⟨place', origin', List.mem_cons_of_mem _ mem, fun env => found _⟩
    · obtain rfl := (List.mem_cons.1 h).resolve_right later
      refine ⟨place, origin, List.mem_cons_self, fun env => ?_⟩
      rw [bound, lookup_bound_of_not_mem later, List.lookup_cons_self]
  | scope inside rest _ ih =>
    obtain ⟨place, origin, mem, found⟩ := ih h
    exact ⟨place, origin, List.mem_append_right _ mem, found⟩

theorem mem_of_lookup {env : Env α} {place : α} {origin : Origin}
    (h : env.lookup n = some (place, origin)) : (n, place, origin) ∈ env := by
  induction env with
  | nil => cases h
  | cons b env ih =>
    obtain ⟨name, value⟩ := b
    rw [List.lookup_cons] at h
    split at h
    · rename_i same
      obtain rfl : n = name := beq_iff_eq.1 same
      cases h
      exact List.mem_cons_self
    · exact List.mem_cons_of_mem _ (ih h)

/-- Nothing in the environment stands where the code binds something. -/
def Apart (env : Env α) (s : Scoping α) : Prop := ∀ b ∈ env, b.2.1 ∉ s.binderPlaces

theorem lookup_bound_iff (apart : Apart env s) :
    (s.bound env).lookup n = env.lookup n ↔ n ∉ s.binders := by
  refine ⟨fun same bound => ?_, fun h => lookup_bound_of_not_mem h env⟩
  obtain ⟨place, origin, mem, found⟩ := lookup_bound_of_mem bound
  rw [found env] at same
  exact apart _ (mem_of_lookup same.symm) mem

/-- Code that is moved behind other code refers to what it referred to exactly when none of its free
names is bound there. -/
theorem references_bound_iff (apart : Apart env s) :
    t.references (s.bound env) = t.references env ↔ ∀ n ∈ t.free, n ∉ s.binders := by
  simp only [references_eq_iff, lookup_bound_iff apart]

/-- The code `t` stands in `s`, and `s'` is `s` with `t'` in its place. -/
inductive Stands (t t' : Scoping α) : Scoping α → Scoping α → Prop
  | here (rest : Scoping α) : Stands t t' (t ++ rest) (t' ++ rest)
  | use {place : α} {name : String} {s s' : Scoping α} (rest : Stands t t' s s') :
    Stands t t' (.use place name s) (.use place name s')
  | bind {place : α} {origin : Origin} {name : String} {s s' : Scoping α} (rest : Stands t t' s s') :
    Stands t t' (.bind place origin name s) (.bind place origin name s')
  | inside {inside inside' s : Scoping α} (within : Stands t t' inside inside') :
    Stands t t' (.scope inside s) (.scope inside' s)
  | behind {inside s s' : Scoping α} (rest : Stands t t' s s') :
    Stands t t' (.scope inside s) (.scope inside s')

namespace Stands

theorem refl : Stands t t' t t' := by
  have whole : Stands t t' (t ++ .done) (t' ++ .done) := .here .done
  rwa [append_done, append_done] at whole

theorem append (h : Stands t t' s s') (rest : Scoping α) :
    Stands t t' (s ++ rest) (s' ++ rest) := by
  induction h with
  | here rest' =>
    rw [append_assoc, append_assoc]
    exact .here _
  | use _ ih => exact .use ih
  | bind _ ih => exact .bind ih
  | inside within _ => exact .inside within
  | behind _ ih => exact .behind ih

theorem after (h : Stands t t' s s') (front : Scoping α) :
    Stands t t' (front ++ s) (front ++ s') := by
  induction front with
  | done => exact h
  | use place name rest ih => exact .use ih
  | bind place origin name rest ih => exact .bind ih
  | scope inside rest _ ih => exact .behind ih

theorem between (t t' front rest : Scoping α) :
    Stands t t' (front ++ (t ++ rest)) (front ++ (t' ++ rest)) := .after (.here rest) front

/-- Where code gives way to other code that binds the same, the references around it stay. What is
in scope there does not stand where the code binds something, if no two binders stand at one
place. -/
theorem references (h : Stands t t' s s') (same : ∀ env, t'.bound env = t.bound env)
    (env : Env α) : ∃ E front back,
      s.references env = front ++ (t.references E ++ back) ∧
      s'.references env = front ++ (t'.references E ++ back) ∧
      (Apart env s → s.binderPlaces.Nodup → Apart E t ∧ t.binderPlaces.Nodup) := by
  induction h generalizing env with
  | here rest =>
    refine ⟨env, [], rest.references (t.bound env), references_append _ _ _, ?_, ?_⟩
    · rw [references_append, same]
      rfl
    · simp only [Apart, binderPlaces_append, List.nodup_append, List.mem_append, not_or]
      exact fun apart nodup => ⟨fun b hb => (apart b hb).1, nodup.1⟩
  | @use place name _ _ _ ih =>
    obtain ⟨E, front, back, before, after, apart⟩ := ih env
    refine ⟨E, (place, name, env.lookup name) :: front, back, ?_, ?_, apart⟩
    · rw [Scoping.references, before, List.cons_append]
    · rw [Scoping.references, after, List.cons_append]
  | @bind place origin name _ _ _ ih =>
    obtain ⟨E, front, back, before, after, apart⟩ := ih ((name, place, origin) :: env)
    refine ⟨E, front, back, before, after, fun apart' nodup => apart ?_ (List.nodup_cons.1 nodup).2⟩
    rintro b hb mem
    rcases List.mem_cons.1 hb with rfl | hb
    · exact (List.nodup_cons.1 nodup).1 mem
    · exact apart' b hb (List.mem_cons_of_mem _ mem)
  | @inside inside _ s _ ih =>
    obtain ⟨E, front, back, before, after, apart⟩ := ih env
    refine ⟨E, front, back ++ s.references env, ?_, ?_, fun apart' nodup => apart ?_ ?_⟩
    · simp only [Scoping.references, before, List.append_assoc]
    · simp only [Scoping.references, after, List.append_assoc]
    · exact fun b hb mem => apart' b hb (List.mem_append_left _ mem)
    · exact (List.nodup_append.1 nodup).1
  | @behind inside _ _ _ ih =>
    obtain ⟨E, front, back, before, after, apart⟩ := ih env
    refine ⟨E, inside.references env ++ front, back, ?_, ?_, fun apart' nodup => apart ?_ ?_⟩
    · simp only [Scoping.references, before, List.append_assoc]
    · simp only [Scoping.references, after, List.append_assoc]
    · exact fun b hb mem => apart' b hb (List.mem_append_right _ mem)
    · exact (List.nodup_append.1 nodup).2.1

end Stands

theorem map_eq_append {f : β → α} {old : Scoping β} (h : old.map f = s ++ t) :
    ∃ a b, old = a ++ b ∧ a.map f = s ∧ b.map f = t := by
  induction s generalizing old with
  | done => exact ⟨.done, old, rfl, rfl, h⟩
  | use place name rest ih =>
    cases old with
    | use place' name' old =>
      obtain ⟨rfl, rfl, same⟩ := use.inj h
      obtain ⟨a, b, rfl, rfl, rfl⟩ := ih same
      exact ⟨.use place' name' a, b, rfl, rfl, rfl⟩
    | _ => cases h
  | bind place origin name rest ih =>
    cases old with
    | bind place' origin' name' old =>
      obtain ⟨rfl, rfl, rfl, same⟩ := bind.inj h
      obtain ⟨a, b, rfl, rfl, rfl⟩ := ih same
      exact ⟨.bind place' origin' name' a, b, rfl, rfl, rfl⟩
    | _ => cases h
  | scope inside rest _ ih =>
    cases old with
    | scope inside' old =>
      obtain ⟨rfl, same⟩ := scope.inj h
      obtain ⟨a, b, rfl, rfl, rfl⟩ := ih same
      exact ⟨.scope inside' a, b, rfl, rfl, rfl⟩
    | _ => cases h

/-- However the places are told apart, the code stands there, and other code can come to its place
with places of its own. -/
theorem Stands.lift {f : β → α} (h : Stands t t' s s') {old : Scoping β} (same : old.map f = s) :
    ∃ u, u.map f = t ∧ ∀ u', u'.map f = t' → ∃ new, new.map f = s' ∧ Stands u u' old new := by
  induction h generalizing old with
  | here rest =>
    obtain ⟨u, rest, rfl, rfl, rfl⟩ := map_eq_append same
    exact ⟨u, rfl, fun u' same' => ⟨u' ++ rest, by rw [map_append, same'], .here rest⟩⟩
  | use _ ih =>
    cases old <;> cases same
    obtain ⟨u, rfl, placed⟩ := ih rfl
    refine ⟨u, rfl, fun u' same' => ?_⟩
    obtain ⟨new, rfl, stands⟩ := placed u' same'
    exact ⟨_, rfl, .use stands⟩
  | bind _ ih =>
    cases old <;> cases same
    obtain ⟨u, rfl, placed⟩ := ih rfl
    refine ⟨u, rfl, fun u' same' => ?_⟩
    obtain ⟨new, rfl, stands⟩ := placed u' same'
    exact ⟨_, rfl, .bind stands⟩
  | inside _ ih =>
    cases old <;> cases same
    obtain ⟨u, rfl, placed⟩ := ih rfl
    refine ⟨u, rfl, fun u' same' => ?_⟩
    obtain ⟨new, rfl, stands⟩ := placed u' same'
    exact ⟨_, rfl, .inside stands⟩
  | behind _ ih =>
    cases old <;> cases same
    obtain ⟨u, rfl, placed⟩ := ih rfl
    refine ⟨u, rfl, fun u' same' => ?_⟩
    obtain ⟨new, rfl, stands⟩ := placed u' same'
    exact ⟨_, rfl, .behind stands⟩

/-! ### Places that are told apart -/

/-- How many binders there are. -/
def size : Scoping α → Nat
  | .done => 0
  | .use _ _ rest => rest.size
  | .bind _ _ _ rest => rest.size + 1
  | .scope inside rest => inside.size + rest.size

/-- The binders numbered from `k` on. -/
def number : Nat → Scoping α → Scoping (α × Nat)
  | _, .done => .done
  | k, .use place name rest => .use (place, k) name (rest.number k)
  | k, .bind place origin name rest => .bind (place, k) origin name (rest.number (k + 1))
  | k, .scope inside rest => .scope (inside.number k) (rest.number (k + inside.size))

theorem map_number (s : Scoping α) (k : Nat) : (s.number k).map Prod.fst = s := by
  induction s generalizing k with
  | done => rfl
  | use place name rest ih => rw [number, map, ih]
  | bind place origin name rest ih => rw [number, map, ih]
  | scope inside rest hi ih => rw [number, map, hi, ih]

theorem map_binderPlaces_number (s : Scoping α) (k : Nat) :
    (s.number k).binderPlaces.map Prod.snd = List.range' k s.size := by
  induction s generalizing k with
  | done => rfl
  | use place name rest ih => exact ih k
  | bind place origin name rest ih =>
    rw [number, binderPlaces, List.map_cons, ih, size, List.range'_succ]
  | scope inside rest hi ih =>
    rw [number, binderPlaces, List.map_append, hi, ih, size, List.range'_append_1]

/-- The declarations in a scoping can be told apart. -/
theorem exists_distinct (s : Scoping α) :
    ∃ old : Scoping (α × Nat), old.map Prod.fst = s ∧ old.binderPlaces.Nodup := by
  have numbers : ((s.number 0).binderPlaces.map Prod.snd).Nodup := by
    rw [map_binderPlaces_number]
    exact List.nodup_range'
  exact ⟨s.number 0, s.map_number 0, List.Nodup.of_map Prod.snd numbers⟩

end Scoping

open Scoping

@[simp] theorem Expr.free_scoping (es : List Expr) : (Expr.scoping es).free = namesList es := by
  rw [Expr.scoping, free_ofUses, map_flatMap_uses]

@[simp] theorem Variable.free_scoping (origin : Origin) (vars : List Variable) :
    (Variable.scoping origin vars).free = [] := free_ofBinders _ _

mutual
/-- The free names of a scoping are the free names of the code. -/
@[simp] theorem Stmt.free_scoping : (s : Stmt) → s.scoping.free = s.free
  | ⟨kind, _, _⟩ => kind.free_scoping

theorem StmtKind.free_scoping : (kind : StmtKind) → kind.scoping.free = kind.free
  | .varDecl d => by
    obtain ⟨locals, init⟩ := d
    cases init <;>
      simp [StmtKind.scoping, StmtKind.free, free_append, VarDecl.values, VarDecl.valueNames,
        Expr.namesList]
  | .update u => by
    simp [StmtKind.scoping, StmtKind.free, Update.names, Expr.namesList_eq]
  | .expr e | .assert e | .assume e => by
    simp [StmtKind.scoping, StmtKind.free, Expr.namesList]
  | .ret es | .print es => Expr.free_scoping es
  | .ifElse guard thenBranch elseBranch => by
    cases guard <;>
      simp [StmtKind.scoping, StmtKind.free, free_append, thenBranch.free_scoping,
        Stmt.free_scopingElse elseBranch, Expr.namesList, Expr.namesOpt]
  | .whileLoop guard invariants decreases body => by
    cases guard <;>
      simp [StmtKind.scoping, StmtKind.free, free_append, body.free_scoping, Expr.namesList_eq,
        Expr.namesOpt]
  | .forLoop index start stop _ invariants body => by
    cases stop <;>
      simp [StmtKind.scoping, StmtKind.free, Scoping.free, free_append, body.free_scoping,
        Expr.namesList, Expr.namesOpt]
  | .breakLoop | .continueLoop => rfl
  | .block b => b.free_scoping
  | .matchOn source cases => by
    simp [StmtKind.scoping, StmtKind.free, free_append, MatchCase.free_scopingList cases,
      Expr.namesList]

theorem Block.free_scoping : (b : Block) → b.scoping.free = b.free
  | ⟨list, _⟩ => by
    simp [Block.scoping, Block.free, Scoping.free, Stmt.free_scopingList list]

theorem Stmt.free_scopingList : (list : List Stmt) →
    (Stmt.scopingList list).free = Stmt.freeList list
  | [] => rfl
  | s :: list => by
    rw [Stmt.scopingList, free_append, s.free_scoping, Stmt.free_scopingList list,
      s.binders_scoping, Stmt.freeList]

theorem Stmt.free_scopingElse : (s : Option Stmt) →
    (Stmt.scopingElse s).free = Stmt.freeOpt s
  | none => rfl
  | some branch => by
    simp [Stmt.scopingElse, Stmt.freeOpt, Scoping.free, branch.free_scoping]

theorem MatchCase.free_scopingList :
    (cases : List MatchCase) → (MatchCase.scopingList cases).free = MatchCase.freeList cases
  | [] => rfl
  | ⟨pattern, body, span⟩ :: cases => by
    simp [MatchCase.scopingList, MatchCase.freeList, Scoping.free, free_append, Function.comp_def,
      Stmt.free_scopingList body, MatchCase.free_scopingList cases]
end

/-- Code that stands in a piece stands in the piece around it. -/
theorem Carries.stands {t t' : Scoping Span} {spans : List Span} {c c' x x' : Piece}
    (hc : Carries spans c c' x x') (code : ∀ e, c ≠ .expr e)
    (h : Stands t t' c.scoping c'.scoping) : Stands t t' x.scoping x'.scoping := by
  cases hc with
  | thenBranch => exact (Stands.after (.inside h) _).append _
  | elseBranch | whileBody => exact .after (.inside h) _
  | forBody => exact .after (.inside (.bind (.after (.inside h) _))) _
  | block => exact .inside h
  | caseBody =>
    simp only [Piece.scoping, Stmt.scoping, StmtKind.scoping, MatchCase.scopingList_append]
    exact .after (.after (.inside (.after h _)) _) _
  | element =>
    simp only [Piece.scoping, Stmt.scopingList_append]
    exact .after (h.append _) _
  | methodBody body =>
    simp only [Piece.scoping, Member.scoping, body]
    exact .inside (.after (.inside h) _)
  | member =>
    simp only [Piece.scoping, Member.scopingList_append]
    exact .after (h.append _) _
  | «class» | datatype => exact h
  | decl =>
    simp only [Piece.scoping, Module.scoping, Decl.scopingList_append]
    exact .after (h.append _) _
  | _ => exact absurd rfl (code _)

/-- Code that stands in a statement list stands in the tree around it. -/
theorem Exchanged.stands {t t' : Scoping Span} {p : Place} {new : p.Content} {spans : List Span}
    {x x' : Piece} (h : Exchanged p new spans x x') {list list' : List Stmt} (place : p = .stmts list)
    (content : HEq new list') (here : Stands t t' (Stmt.scopingList list) (Stmt.scopingList list')) :
    (∀ e, x ≠ .expr e) ∧ Stands t t' x.scoping x'.scoping := by
  induction h with
  | stmts =>
    cases place
    cases content
    exact ⟨fun e he => Piece.noConfusion he, here⟩
  | inside hc h ih =>
    obtain ⟨code, within⟩ := ih place content
    refine ⟨?_, hc.stands code within⟩
    rintro e rfl
    cases hc
    exact code _ rfl
  | _ => cases place

/-- Other code that comes to the place of some code in a list, and binds the same, leaves all
references around it as they were. This holds of all ways to tell the names and declarations of the
module apart, on top of the ranges they have. -/
theorem Exchanged.references {t t' : Scoping Span} {list list' : List Stmt} {spans : List Span}
    {m m' : Module} (h : Exchanged (.stmts list) list' spans (.module m) (.module m'))
    (here : Stands t t' (Stmt.scopingList list) (Stmt.scopingList list')) {α : Type}
    {range : α → Span} {old : Scoping α} (places : old.map range = m.scoping) :
    ∃ u : Scoping α, u.map range = t ∧ ∀ u' : Scoping α, u'.map range = t' →
      (∀ env, u'.bound env = u.bound env) →
      ∃ (new : Scoping α) (E : Env α) (front back : List _), new.map range = m'.scoping ∧
        old.references [] = front ++ (u.references E ++ back) ∧
        new.references [] = front ++ (u'.references E ++ back) ∧
        (old.binderPlaces.Nodup → Apart E u ∧ u.binderPlaces.Nodup) := by
  obtain ⟨u, mapped, placed⟩ := (h.stands rfl .rfl here).2.lift places
  refine ⟨u, mapped, fun u' mapped' same => ?_⟩
  obtain ⟨new, result, stands⟩ := placed u' mapped'
  obtain ⟨E, front, back, before, after, apart⟩ := stands.references same []
  exact ⟨new, E, front, back, result, before, after, apart fun b hb => absurd hb List.not_mem_nil⟩

end Mutation
