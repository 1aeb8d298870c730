import Mutation.Proofs.Edited
import Mutation.Operator.Purge

/-!
# What reduction leaves of an expression

`Reduces dead e e'` lists the ways in which an expression can come out of a reduction: every part
is left and the expression is put together again, with a chain brought in step; or one operand of
a binary expression stands for the whole. The relation forgets when an operand may stand alone,
which only decides whether anything is left. What holds of every reduction (no occurrence of the
name, no new name, copies in step) is an induction on it.
-/

namespace Mutation

/-- What may be left of an expression without the name `dead`. -/
inductive Reduces (dead : String) : Expr → Expr → Prop
  | keep {kind : ExprKind} {span : Span} {ty : Ty} {es : List Expr} (name : kind ≠ .name dead)
    (length : es.length = kind.parts.length)
    (parts : ∀ (i : Nat) (a b : Expr), kind.parts[i]? = some a → es[i]? = some b → Reduces dead a b) :
    Reduces dead ⟨kind, span, ty⟩ ⟨(kind.withParts es).resync, span, ty⟩
  | left {op : BinaryOp} {l r l' : Expr} {span : Span} {ty : Ty} (h : Reduces dead l l') :
    Reduces dead ⟨.binary op l r, span, ty⟩ l'
  | right {op : BinaryOp} {l r r' : Expr} {span : Span} {ty : Ty} (h : Reduces dead r r') :
    Reduces dead ⟨.binary op l r, span, ty⟩ r'

/-- Expressions reduced one by one. -/
def ReducesAll (dead : String) (es es' : List Expr) : Prop :=
  es'.length = es.length ∧
    ∀ (i : Nat) (a b : Expr), es[i]? = some a → es'[i]? = some b → Reduces dead a b

theorem Reduces.ofParts {dead : String} (kind : ExprKind) {span : Span} {ty : Ty} {es : List Expr}
    (name : kind ≠ .name dead) (h : ReducesAll dead kind.parts es) :
    Reduces dead ⟨kind, span, ty⟩ ⟨(kind.withParts es).resync, span, ty⟩ :=
  .keep name h.1 h.2

namespace ReducesAll

variable {dead : String} {es es' : List Expr}

theorem nil : ReducesAll dead [] [] := ⟨rfl, by simp⟩

theorem cons {e e' : Expr} (h : Reduces dead e e') (hs : ReducesAll dead es es') :
    ReducesAll dead (e :: es) (e' :: es') := by
  refine ⟨by simp [hs.1], fun i a b ha hb => ?_⟩
  cases i with
  | zero =>
    cases ha
    cases hb
    exact h
  | succ i => exact hs.2 i a b (by simpa using ha) (by simpa using hb)

/-- Each expression left comes from one of the expressions there were. -/
theorem exists_of_mem (h : ReducesAll dead es es') {e' : Expr} (he : e' ∈ es') :
    ∃ e ∈ es, Reduces dead e e' := by
  obtain ⟨i, hi, rfl⟩ := List.getElem_of_mem he
  have bound : i < es.length := h.1 ▸ hi
  exact ⟨es[i], List.getElem_mem _, h.2 i _ _ (by simp [bound]) (by simp)⟩

end ReducesAll

theorem Reduction.both_rest {α β : Type} {r : Reduction α} {k : Unit → Reduction β} {a : α} {b : β}
    (h : (r.both k).rest = some (a, b)) : r.rest = some a ∧ (k ()).rest = some b := by
  obtain ⟨rest, n⟩ := r
  cases rest with
  | none => cases h
  | some x =>
    simp only [Reduction.both, Option.map_eq_some_iff, Prod.mk.injEq] at h
    obtain ⟨y, hy, rfl, rfl⟩ := h
    exact ⟨rfl, hy⟩

theorem Reduction.map_rest {α β : Type} {r : Reduction α} {f : α → β} {b : β}
    (h : (r.map f).rest = some b) : ∃ a, r.rest = some a ∧ b = f a := by
  obtain ⟨a, ha, rfl⟩ := Option.map_eq_some_iff.1 h
  exact ⟨a, ha, rfl⟩

theorem Expr.reducesAll_of {dead : String} {es es' : List Expr}
    (h : ∀ e ∈ es, ∀ wanted e', (e.reduce dead wanted).rest = some e' → Reduces dead e e')
    (hs : (Expr.reduceList dead es).rest = some es') : ReducesAll dead es es' := by
  induction es generalizing es' with
  | nil =>
    cases hs
    exact .nil
  | cons e es ih =>
    obtain ⟨⟨a, as⟩, both, rfl⟩ := Reduction.map_rest hs
    obtain ⟨first, rest⟩ := Reduction.both_rest both
    exact .cons (h e (by simp) _ _ first) (ih (fun c hc => h c (by simp [hc])) rest)

/-- A reduction does one of the things that `Reduces` lists. -/
theorem Expr.reduces {dead : String} {e e' : Expr} {wanted : Ty}
    (h : (e.reduce dead wanted).rest = some e') : Reduces dead e e' := by
  induction e using Expr.induct generalizing wanted e' with
  | step e ih =>
    obtain ⟨kind, span, ty⟩ := e
    have all : ∀ es', (Expr.reduceList dead kind.parts).rest = some es' →
        ReducesAll dead kind.parts es' :=
      fun es' => Expr.reducesAll_of fun c hc _ _ h => ih c hc h
    rw [Expr.reduce] at h
    by_cases name : ∃ n, kind = .name n
    · obtain ⟨n, rfl⟩ := name
      simp only [ExprKind.reduce] at h
      split at h <;> cases h
      exact .ofParts (.name n) (by simpa using ‹¬n = dead›) .nil
    by_cases binary : ∃ op l r, kind = .binary op l r
    · obtain ⟨op, l, r, rfl⟩ := binary
      have left : ∀ a, (l.reduce dead l.ty).rest = some a → Reduces dead l a :=
        fun a => ih l (by simp [ExprKind.parts])
      have right : ∀ b, (r.reduce dead r.ty).rest = some b → Reduces dead r b :=
        fun b => ih r (by simp [ExprKind.parts])
      simp only [ExprKind.reduce, Reduction.either] at h
      split at h
      · cases h
        exact .ofParts (.binary op l r) (by simp) (.cons (left _ ‹_›) (.cons (right _ ‹_›) .nil))
      · split at h <;> cases h
        exact .left (left _ ‹_›)
      · split at h <;> cases h
        exact .right (right _ ‹_›)
      · cases h
    have notName : kind ≠ .name dead := fun h => name ⟨dead, h⟩
    by_cases chain : ∃ c, kind = .chain c
    · obtain ⟨⟨operands, ops, resolved⟩, rfl⟩ := chain
      obtain ⟨c, left, rfl⟩ := Reduction.map_rest h
      obtain ⟨es, kept, rfl⟩ := Reduction.map_rest left
      exact .ofParts (.chain ⟨operands, ops, resolved⟩) notName (all es kept)
    · have notChain := fun c hc => chain ⟨c, hc⟩
      rw [ExprKind.reduce_eq (fun n h => name ⟨n, h⟩) (fun op l r h => binary ⟨op, l, r, h⟩)
        notChain] at h
      obtain ⟨es, left, rfl⟩ := Reduction.map_rest h
      have kept : Reduces dead ⟨kind, span, ty⟩ _ := .ofParts kind notName (all es left)
      rwa [ExprKind.resync_withParts notChain] at kept

theorem Expr.reduces_list {dead : String} {es es' : List Expr}
    (h : (Expr.reduceList dead es).rest = some es') : ReducesAll dead es es' :=
  Expr.reducesAll_of (fun _ _ _ _ h => Expr.reduces h) h

theorem Expr.reduces_opt {dead : String} {e e' : Option Expr}
    (h : (Expr.reduceOpt dead e).rest = some e') :
    e = none ∧ e' = none ∨ ∃ a a', e = some a ∧ e' = some a' ∧ Reduces dead a a' := by
  cases e with
  | none =>
    cases h
    exact .inl ⟨rfl, rfl⟩
  | some a =>
    obtain ⟨a', left, rfl⟩ := Reduction.map_rest h
    exact .inr ⟨a, a', rfl, rfl, Expr.reduces left⟩

theorem ExprKind.names_resync {kind : ExprKind} (name : ∀ n, kind ≠ .name n) {es : List Expr}
    (length : es.length = kind.parts.length) :
    (kind.withParts es).resync.names = Expr.namesList es := by
  have notName : ∀ n, (kind.withParts es).resync ≠ .name n := by
    cases kind with
    | name n => exact absurd rfl (name n)
    | _ => simp [ExprKind.withParts, ExprKind.resync]
  rw [ExprKind.names_eq notName, ExprKind.parts_resync, ExprKind.parts_withParts length]

/-- What is left of an expression mentions nothing new, and not the name that is gone. -/
theorem Reduces.names {dead : String} {e e' : Expr} (h : Reduces dead e e') {n : String}
    (hn : n ∈ e'.names) : n ∈ e.names ∧ n ≠ dead := by
  induction h with
  | @keep kind span ty es name length parts ih =>
    simp only [Expr.names] at hn ⊢
    by_cases isName : ∃ m, kind = .name m
    · obtain ⟨m, rfl⟩ := isName
      simp only [ExprKind.withParts, ExprKind.resync, ExprKind.names, List.mem_singleton] at hn
      subst hn
      exact ⟨by simp [ExprKind.names], by simpa using name⟩
    · have notName := fun m hm => isName ⟨m, hm⟩
      rw [ExprKind.names_resync notName length, Expr.namesList_eq, List.mem_flatMap] at hn
      obtain ⟨b, hb, hnb⟩ := hn
      obtain ⟨i, hi, rfl⟩ := List.getElem_of_mem hb
      have bound : i < kind.parts.length := length ▸ hi
      obtain ⟨old, other⟩ := ih i kind.parts[i] es[i] (by simp [bound]) (by simp) hnb
      refine ⟨?_, other⟩
      rw [ExprKind.names_eq notName, Expr.namesList_eq, List.mem_flatMap]
      exact ⟨_, List.getElem_mem _, old⟩
  | left h ih =>
    obtain ⟨old, other⟩ := ih hn
    exact ⟨by simp [Expr.names, ExprKind.names, old], other⟩
  | right h ih =>
    obtain ⟨old, other⟩ := ih hn
    exact ⟨by simp [Expr.names, ExprKind.names, old], other⟩

theorem ReducesAll.names {dead : String} {es es' : List Expr} (h : ReducesAll dead es es')
    {n : String} (hn : n ∈ Expr.namesList es') : n ∈ Expr.namesList es ∧ n ≠ dead := by
  rw [Expr.namesList_eq, List.mem_flatMap] at hn ⊢
  obtain ⟨b, hb, hnb⟩ := hn
  obtain ⟨a, ha, reduced⟩ := h.exists_of_mem hb
  obtain ⟨old, other⟩ := reduced.names hnb
  exact ⟨⟨a, ha, old⟩, other⟩

theorem Expr.reduceList_isSome {dead : String} {es : List Expr}
    (h : ∀ e ∈ es, ∀ wanted, (e.reduce dead wanted).rest.isSome) :
    (Expr.reduceList dead es).rest.isSome := by
  induction es with
  | nil => rfl
  | cons e es ih =>
    obtain ⟨a, ha⟩ := Option.isSome_iff_exists.1 (h e (by simp) e.ty)
    obtain ⟨as, has⟩ := Option.isSome_iff_exists.1 (ih fun c hc => h c (by simp [hc]))
    simp [Expr.reduceList, Reduction.map, Reduction.both, ha, has]

/-- Only an expression that mentions the name can be lost. -/
theorem Expr.mem_names_of_lost {dead : String} {e : Expr} {wanted : Ty}
    (h : (e.reduce dead wanted).rest = none) : dead ∈ e.names := by
  by_contra absent
  suffices left : (e.reduce dead wanted).rest.isSome by simp [h] at left
  clear h
  induction e using Expr.induct generalizing wanted with
  | step e ih =>
    obtain ⟨kind, span, ty⟩ := e
    simp only [Expr.names, Expr.reduce] at absent ⊢
    by_cases name : ∃ n, kind = .name n
    · obtain ⟨n, rfl⟩ := name
      have other : n ≠ dead := by
        rintro rfl
        simp [ExprKind.names] at absent
      simp [ExprKind.reduce, other, Reduction.whole]
    have notName := fun n h => name ⟨n, h⟩
    rw [ExprKind.names_eq notName, Expr.namesList_eq, List.mem_flatMap] at absent
    have each : ∀ c ∈ kind.parts, ∀ wanted, (c.reduce dead wanted).rest.isSome :=
      fun c hc wanted => ih c hc fun hd => absent ⟨c, hc, hd⟩
    have all := Expr.reduceList_isSome each
    by_cases binary : ∃ op l r, kind = .binary op l r
    · obtain ⟨op, l, r, rfl⟩ := binary
      obtain ⟨a, ha⟩ := Option.isSome_iff_exists.1 (each l (by simp [ExprKind.parts]) l.ty)
      obtain ⟨b, hb⟩ := Option.isSome_iff_exists.1 (each r (by simp [ExprKind.parts]) r.ty)
      simp [ExprKind.reduce, Reduction.either, ha, hb]
    by_cases chain : ∃ c, kind = .chain c
    · obtain ⟨⟨operands, ops, resolved⟩, rfl⟩ := chain
      change (Expr.reduceList dead operands).rest.isSome = true at all
      simpa [ExprKind.reduce, Chain.reduce, Reduction.map] using all
    · rw [ExprKind.reduce_eq notName (fun op l r h => binary ⟨op, l, r, h⟩)
        fun c h => chain ⟨c, h⟩]
      simpa [Reduction.map] using all

/-- Pairs that are left keep their targets, which do not mention the name. -/
theorem Update.mem_reducePairs {dead : String} {pairs : List (Expr × Expr)} {target value : Expr}
    (h : (target, value) ∈ (Update.reducePairs dead pairs).1) :
    target.mentions dead = false ∧ ∃ old, (target, old) ∈ pairs ∧ Reduces dead old value := by
  induction pairs with
  | nil => cases h
  | cons pair pairs ih =>
    obtain ⟨t, v⟩ := pair
    have later : (target, value) ∈ (Update.reducePairs dead pairs).1 →
        target.mentions dead = false ∧
          ∃ old, (target, old) ∈ (t, v) :: pairs ∧ Reduces dead old value := by
      intro h
      obtain ⟨free, old, ho, reduced⟩ := ih h
      exact ⟨free, old, by simp [ho], reduced⟩
    simp only [Update.reducePairs] at h
    cases free : t.mentions dead with
    | true =>
      rw [free, if_pos rfl] at h
      exact later h
    | false =>
      rw [free, if_neg Bool.false_ne_true] at h
      dsimp only at h
      split at h
      · rcases List.mem_cons.1 h with first | h
        · cases first
          exact ⟨free, v, by simp, Expr.reduces ‹_›⟩
        · exact later h
      · exact later h

/-- Locals that are left keep their targets. -/
theorem VarDecl.mem_reduceLocals {dead : String} {pairs : List (Variable × Expr × Expr)}
    {v : Variable} {target value : Expr}
    (h : (v, target, value) ∈ (VarDecl.reduceLocals dead pairs).1) :
    ∃ old, (v, target, old) ∈ pairs ∧ Reduces dead old value := by
  induction pairs with
  | nil => cases h
  | cons pair pairs ih =>
    obtain ⟨w, t, x⟩ := pair
    have later : (v, target, value) ∈ (VarDecl.reduceLocals dead pairs).1 →
        ∃ old, (v, target, old) ∈ (w, t, x) :: pairs ∧ Reduces dead old value := by
      intro h
      obtain ⟨old, ho, reduced⟩ := ih h
      exact ⟨old, by simp [ho], reduced⟩
    simp only [VarDecl.reduceLocals] at h
    split at h
    · rcases List.mem_cons.1 h with first | h
      · cases first
        exact ⟨x, by simp, Expr.reduces ‹_›⟩
      · exact later h
    · exact later h

theorem Stmt.mem_reduceArgs {dead : String} {es : List Expr} {e : Expr}
    (h : e ∈ (Stmt.reduceArgs dead es).1) : ∃ old ∈ es, Reduces dead old e := by
  induction es with
  | nil => cases h
  | cons a es ih =>
    have later : e ∈ (Stmt.reduceArgs dead es).1 → ∃ old ∈ a :: es, Reduces dead old e := by
      intro h
      obtain ⟨old, ho, reduced⟩ := ih h
      exact ⟨old, by simp [ho], reduced⟩
    simp only [Stmt.reduceArgs] at h
    split at h
    · rcases List.mem_cons.1 h with rfl | h
      · exact ⟨a, by simp, Expr.reduces ‹_›⟩
      · exact later h
    · exact later h

/-- Three lists of one length, taken apart after they were put together. -/
theorem map_zip_zip {α β γ : Type} {as : List α} {bs : List β} {cs : List γ}
    (first : bs.length = as.length) (second : bs.length = cs.length) :
    (as.zip (bs.zip cs)).map (·.1) = as ∧ (as.zip (bs.zip cs)).map (·.2.1) = bs ∧
      (as.zip (bs.zip cs)).map (·.2.2) = cs := by
  have pairs : (as.zip (bs.zip cs)).map (·.2) = bs.zip cs := List.map_snd_zip (by simp; omega)
  refine ⟨List.map_fst_zip (by simp; omega), ?_, ?_⟩
  · exact List.map_map.symm.trans
      ((congrArg (List.map (·.1)) pairs).trans (List.map_fst_zip (Nat.le_of_eq second)))
  · exact List.map_map.symm.trans
      ((congrArg (List.map (·.2)) pairs).trans (List.map_snd_zip (Nat.le_of_eq second.symm)))

theorem splitAtFirst_eq_some {α : Type} {p : α → Bool} {l before after : List α} {a : α}
    (h : splitAtFirst p l = some (before, a, after)) : l = before ++ a :: after ∧ p a = true := by
  induction l generalizing before with
  | nil => cases h
  | cons x l ih =>
    simp only [splitAtFirst] at h
    split at h
    · cases h
      exact ⟨rfl, ‹_›⟩
    · simp only [Option.map_eq_some_iff, Prod.mk.injEq, Prod.exists] at h
      obtain ⟨pre, y, post, split, rfl, rfl, rfl⟩ := h
      obtain ⟨rfl, hp⟩ := ih split
      exact ⟨rfl, hp⟩

end Mutation
