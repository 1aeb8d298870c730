import Mutation.Scope

/-!
# Scoping

All that decides what the names in some code refer to is its *scoping*: which names are used and
which are bound, in source order, and where scopes open and close. Every use and every binder has
a place. A name refers to the innermost binder of that name before it (`Scoping.references`).

Code can be taken out, and scopes opened, without any other name changing what it refers
to, as long as no binder comes out of its scope and no binder goes that is used. `Scoping.Prunes`
lists what may be done, and `Scoping.Prunes.references` says that it is safe. It does not depend on
what the places are: however places are told apart, those that are left keep what tells them apart
(`Scoping.Prunes.lift`).
-/

namespace Mutation

/-- The uses and binders of names in source order, and the scopes. -/
inductive Scoping (α : Type) where
  | done
  | use (place : α) (name : String) (rest : Scoping α)
  | bind (place : α) (origin : Origin) (name : String) (rest : Scoping α)
  | scope (inside rest : Scoping α)
deriving DecidableEq

namespace Scoping

variable {α β : Type}

/-- What comes first and what comes then. -/
def append : Scoping α → Scoping α → Scoping α
  | .done, t => t
  | .use place name s, t => .use place name (s.append t)
  | .bind place origin name s, t => .bind place origin name (s.append t)
  | .scope inside s, t => .scope inside (s.append t)

instance : Append (Scoping α) := ⟨append⟩

@[simp] theorem done_append (t : Scoping α) : .done ++ t = t := rfl

@[simp] theorem use_append (place : α) (name : String) (s t : Scoping α) :
    .use place name s ++ t = .use place name (s ++ t) := rfl

@[simp] theorem bind_append (place : α) (origin : Origin) (name : String) (s t : Scoping α) :
    .bind place origin name s ++ t = .bind place origin name (s ++ t) := rfl

@[simp] theorem scope_append (inside s t : Scoping α) :
    .scope inside s ++ t = .scope inside (s ++ t) := rfl

@[simp] theorem append_done (s : Scoping α) : s ++ .done = s := by
  induction s with
  | done => rfl
  | use place name rest ih => rw [use_append, ih]
  | bind place origin name rest ih => rw [bind_append, ih]
  | scope inside rest _ ih => rw [scope_append, ih]

@[simp] theorem append_assoc (s t u : Scoping α) : s ++ t ++ u = s ++ (t ++ u) := by
  induction s with
  | done => rfl
  | use place name rest ih => simp only [use_append, ih]
  | bind place origin name rest ih => simp only [bind_append, ih]
  | scope inside rest _ ih => simp only [scope_append, ih]

/-- The same with other places. -/
def map (f : α → β) : Scoping α → Scoping β
  | .done => .done
  | .use place name rest => .use (f place) name (rest.map f)
  | .bind place origin name rest => .bind (f place) origin name (rest.map f)
  | .scope inside rest => .scope (inside.map f) (rest.map f)

@[simp] theorem map_append (f : α → β) (s t : Scoping α) : (s ++ t).map f = s.map f ++ t.map f := by
  induction s with
  | done => rfl
  | use place name rest ih => simp only [use_append, map, ih]
  | bind place origin name rest ih => simp only [bind_append, map, ih]
  | scope inside rest _ ih => simp only [scope_append, map, ih]

@[simp] theorem map_id (s : Scoping α) : s.map id = s := by
  induction s with
  | done => rfl
  | use place name rest ih => simp only [map, ih, id_eq]
  | bind place origin name rest ih => simp only [map, ih, id_eq]
  | scope inside rest hi ih => simp only [map, hi, ih]

/-- Names that are used one after the other. -/
def ofUses (uses : List (α × String)) : Scoping α :=
  uses.foldr (fun use rest => .use use.1 use.2 rest) .done

/-- Names of one origin that are bound one after the other. -/
def ofBinders (origin : Origin) (binders : List (α × String)) : Scoping α :=
  binders.foldr (fun binder rest => .bind binder.1 origin binder.2 rest) .done

/-- The names that are used, in inner scopes too. -/
def names : Scoping α → List String
  | .done => []
  | .use _ name rest => name :: rest.names
  | .bind _ _ _ rest => rest.names
  | .scope inside rest => inside.names ++ rest.names

/-- The names that are bound for what comes after, not those in inner scopes. -/
def binders : Scoping α → List String
  | .done => []
  | .use _ _ rest => rest.binders
  | .bind _ _ name rest => name :: rest.binders
  | .scope _ rest => rest.binders

@[simp] theorem names_append (s t : Scoping α) : (s ++ t).names = s.names ++ t.names := by
  induction s with
  | done => rfl
  | use place name rest ih => simp only [use_append, names, ih, List.cons_append]
  | bind place origin name rest ih => simp only [bind_append, names, ih]
  | scope inside rest _ ih => simp only [scope_append, names, ih, List.append_assoc]

@[simp] theorem binders_append (s t : Scoping α) : (s ++ t).binders = s.binders ++ t.binders := by
  induction s with
  | done => rfl
  | use place name rest ih => simp only [use_append, binders, ih]
  | bind place origin name rest ih => simp only [bind_append, binders, ih, List.cons_append]
  | scope inside rest _ ih => simp only [scope_append, binders, ih]

@[simp] theorem names_map (f : α → β) (s : Scoping α) : (s.map f).names = s.names := by
  induction s with
  | done => rfl
  | use place name rest ih => simp only [map, names, ih]
  | bind place origin name rest ih => simp only [map, names, ih]
  | scope inside rest hi ih => simp only [map, names, hi, ih]

@[simp] theorem binders_map (f : α → β) (s : Scoping α) : (s.map f).binders = s.binders := by
  induction s with
  | done => rfl
  | use place name rest ih => simp only [map, binders, ih]
  | bind place origin name rest ih => simp only [map, binders, ih]
  | scope inside rest _ ih => simp only [map, binders, ih]

@[simp] theorem names_ofUses (uses : List (α × String)) : (ofUses uses).names = uses.map (·.2) := by
  induction uses with
  | nil => rfl
  | cons use uses ih => rw [List.map_cons, ← ih]; rfl

@[simp] theorem binders_ofUses (uses : List (α × String)) : (ofUses uses).binders = [] := by
  induction uses with
  | nil => rfl
  | cons use uses ih => exact ih

@[simp] theorem names_ofBinders (origin : Origin) (l : List (α × String)) :
    (ofBinders origin l).names = [] := by
  induction l with
  | nil => rfl
  | cons binder l ih => exact ih

@[simp] theorem binders_ofBinders (origin : Origin) (l : List (α × String)) :
    (ofBinders origin l).binders = l.map (·.2) := by
  induction l with
  | nil => rfl
  | cons binder l ih => rw [List.map_cons, ← ih]; rfl

/-- What the names in scope are bound by, the innermost first. -/
abbrev Env (α : Type) := List (String × α × Origin)

/-- The uses in source order, each with the binder that its name refers to, if there is one. -/
def references (env : Env α) : Scoping α → List (α × String × Option (α × Origin))
  | .done => []
  | .use place name rest => (place, name, env.lookup name) :: rest.references env
  | .bind place origin name rest => rest.references ((name, place, origin) :: env)
  | .scope inside rest => inside.references env ++ rest.references env

/-- Environments that agree on the names that are used are as good as each other. -/
theorem references_congr {s : Scoping α} {env env' : Env α}
    (same : ∀ n ∈ s.names, env.lookup n = env'.lookup n) :
    s.references env = s.references env' := by
  induction s generalizing env env' with
  | done => rfl
  | use place name rest ih =>
    obtain ⟨first, later⟩ := List.forall_mem_cons.1 same
    rw [references, references, first, ih later]
  | bind place origin name rest ih =>
    refine ih fun n hn => ?_
    rw [List.lookup_cons, List.lookup_cons]
    split
    · rfl
    · exact same n hn
  | scope inside rest hi ih =>
    rw [references, references, hi fun n hn => same n (List.mem_append_left _ hn),
      ih fun n hn => same n (List.mem_append_right _ hn)]

theorem references_append_of_binders {s : Scoping α} (none : s.binders = []) (env : Env α)
    (t : Scoping α) : (s ++ t).references env = s.references env ++ t.references env := by
  induction s with
  | done => rfl
  | use place name rest ih =>
    rw [use_append, references, references, ih none, List.cons_append]
  | bind place origin name rest ih => cases none
  | scope inside rest _ ih =>
    rw [scope_append, references, references, ih none, List.append_assoc]

/-- A binder that is not used may as well be missing. -/
theorem references_unused {s : Scoping α} {name : String} (free : name ∉ s.names) (place : α)
    (origin : Origin) (env : Env α) :
    s.references ((name, place, origin) :: env) = s.references env := by
  refine references_congr fun n hn => ?_
  rw [List.lookup_cons]
  split
  · rename_i same
    exact absurd (beq_iff_eq.1 same ▸ hn) free
  · rfl

/-- Uses and whole scopes go, scopes that bind nothing are opened, and binders go that are not used
in their scope. All else stays where it is. -/
inductive Prunes : Scoping α → Scoping α → Prop
  | done : Prunes .done .done
  | use {place : α} {name : String} {s t : Scoping α} (rest : Prunes s t) :
    Prunes (.use place name s) (.use place name t)
  | unused {place : α} {name : String} {s t : Scoping α} (rest : Prunes s t) :
    Prunes (.use place name s) t
  | bind {place : α} {origin : Origin} {name : String} {s t : Scoping α} (rest : Prunes s t) :
    Prunes (.bind place origin name s) (.bind place origin name t)
  | scope {inside inside' s t : Scoping α} (within : Prunes inside inside') (rest : Prunes s t) :
    Prunes (.scope inside s) (.scope inside' t)
  | closed {inside s t : Scoping α} (rest : Prunes s t) : Prunes (.scope inside s) t
  | opened {inside inside' s t : Scoping α} (none : inside'.binders = [])
    (within : Prunes inside inside') (rest : Prunes s t) :
    Prunes (.scope inside s) (inside' ++ t)
  | unbound {place : α} {origin : Origin} {name : String} {inside s t : Scoping α}
    (free : name ∉ inside.names) (rest : Prunes (.scope inside s) t) :
    Prunes (.scope (.bind place origin name inside) s) t

namespace Prunes

variable {s s' t t' : Scoping α}

theorem refl (s : Scoping α) : Prunes s s := by
  induction s with
  | done => exact .done
  | use place name rest ih => exact .use ih
  | bind place origin name rest ih => exact .bind ih
  | scope inside rest hi ih => exact .scope hi ih

theorem append (h : Prunes s s') (h' : Prunes t t') : Prunes (s ++ t) (s' ++ t') := by
  induction h with
  | done => exact h'
  | use rest ih => exact .use ih
  | unused rest ih => exact .unused ih
  | bind rest ih => exact .bind ih
  | scope within rest _ ih => exact .scope within ih
  | closed rest ih => exact .closed ih
  | opened none within rest _ ih =>
    rw [append_assoc]
    exact .opened none within ih
  | unbound free rest ih => exact .unbound free ih

/-- Code without binders for what comes after may go. -/
theorem dropped (none : s.binders = []) (h : Prunes t t') : Prunes (s ++ t) t' := by
  induction s with
  | done => exact h
  | use place name rest ih => exact .unused (ih none)
  | bind place origin name rest ih => cases none
  | scope inside rest _ ih => exact .closed (ih none)

theorem nothing (none : s.binders = []) : Prunes s .done := by
  have gone := dropped none (.refl (.done : Scoping α))
  rwa [append_done] at gone

/-- The binders of a scope go when none of them is used. -/
theorem unboundAll {origin : Origin} {l : List (α × String)} (free : ∀ b ∈ l, b.2 ∉ s.names)
    (h : Prunes (.scope s t) t') : Prunes (.scope (ofBinders origin l ++ s) t) t' := by
  induction l with
  | nil => exact h
  | cons b l ih =>
    obtain ⟨first, later⟩ := List.forall_mem_cons.1 free
    have unused : b.2 ∉ (ofBinders origin l ++ s).names := by simpa using first
    exact .unbound unused (ih later)

theorem binders (h : Prunes s t) : t.binders = s.binders := by
  induction h with
  | done => rfl
  | use rest ih | unused rest ih | closed rest ih => exact ih
  | bind rest ih => rw [Scoping.binders, Scoping.binders, ih]
  | scope within rest _ ih => exact ih
  | opened none within rest _ ih =>
    rw [binders_append, none, List.nil_append]
    exact ih
  | unbound free rest ih => exact ih

/-- What is left refers to what it referred to. -/
theorem references (h : Prunes s t) (env : Env α) :
    (t.references env).Sublist (s.references env) := by
  induction h generalizing env with
  | done => exact .slnil
  | use rest ih => exact (ih env).cons_cons _
  | unused rest ih => exact (ih env).cons _
  | bind rest ih => exact ih _
  | scope within rest hi ih => exact (hi env).append (ih env)
  | closed rest ih => exact (ih env).trans (List.sublist_append_right _ _)
  | opened none within rest hi ih =>
    rw [references_append_of_binders none]
    exact (hi env).append (ih env)
  | unbound free rest ih =>
    rw [Scoping.references, Scoping.references, references_unused free]
    exact ih env

/-- What is left keeps what tells it apart. -/
theorem lift {f : β → α} (h : Prunes s t) {old : Scoping β} (same : old.map f = s) :
    ∃ new : Scoping β, new.map f = t ∧ Prunes old new := by
  induction h generalizing old with
  | done =>
    cases old <;> cases same
    exact ⟨.done, rfl, .done⟩
  | use rest ih =>
    cases old <;> cases same
    obtain ⟨new, rfl, pruned⟩ := ih rfl
    exact ⟨.use _ _ new, rfl, .use pruned⟩
  | unused rest ih =>
    cases old <;> cases same
    obtain ⟨new, rfl, pruned⟩ := ih rfl
    exact ⟨new, rfl, .unused pruned⟩
  | bind rest ih =>
    cases old <;> cases same
    obtain ⟨new, rfl, pruned⟩ := ih rfl
    exact ⟨.bind _ _ _ new, rfl, .bind pruned⟩
  | scope within rest hi ih =>
    cases old <;> cases same
    obtain ⟨inside, rfl, pruned⟩ := hi rfl
    obtain ⟨new, rfl, pruned'⟩ := ih rfl
    exact ⟨.scope inside new, rfl, .scope pruned pruned'⟩
  | closed rest ih =>
    cases old <;> cases same
    obtain ⟨new, rfl, pruned⟩ := ih rfl
    exact ⟨new, rfl, .closed pruned⟩
  | opened none within rest hi ih =>
    cases old <;> cases same
    obtain ⟨inside, rfl, pruned⟩ := hi rfl
    obtain ⟨new, rfl, pruned'⟩ := ih rfl
    exact ⟨inside ++ new, map_append f inside new, .opened (by simpa using none) pruned pruned'⟩
  | unbound free rest ih =>
    cases old with
    | scope bound old =>
      cases bound <;> cases same
      obtain ⟨new, rfl, pruned⟩ := @ih (.scope _ old) rfl
      exact ⟨new, rfl, .unbound (by simpa using free) pruned⟩
    | _ => cases same

end Prunes

end Scoping

end Mutation
