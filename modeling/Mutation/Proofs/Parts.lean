import Mathlib.Data.List.Basic
import Mutation.Operator.Reduce
import Mutation.Walk.Revision
import Mutation.Walk.Survey

/-!
# Expressions by their parts

Every function on expressions treats most shapes alike: it goes through the direct parts in
source order and puts the shape together again. `ExprKind.parts` are the direct parts and
`ExprKind.withParts` is the same shape with other ones; the two undo each other. Walks,
name collection and reduction are restated over them, so a proof about expressions is an
induction on the parts (`Expr.induct`) with one case for all shapes and one for each shape
that is special: a chain, an `old`, and a binary expression under reduction.
-/

namespace Mutation

namespace ExprKind

/-- The direct parts of a shape in source order. -/
def parts : ExprKind → List Expr
  | .literal _ | .name _ | .this => []
  | .binary _ l r => [l, r]
  | .unary _ x => [x]
  | .chain c => c.operands
  | .member r _ => [r]
  | .tupleIndex t _ => [t]
  | .index s i => [s, i]
  | .call r _ args => r.toList ++ args
  | .display _ es => es
  | .mapDisplay entries => entries.flatMap fun entry => [entry.key, entry.value]
  | .arrayAlloc _ dims init => dims ++ init.getD []
  | .ctor _ _ args => args
  | .ite c t f => [c, t, f]
  | .old x => [x]

end ExprKind

/-- The entries of a map display from their keys and values in turn. -/
def MapEntry.ofParts : List Expr → List MapEntry
  | key :: value :: rest => ⟨key, value⟩ :: MapEntry.ofParts rest
  | _ => []

namespace ExprKind

/-- The shape with other direct parts; there are to be as many as before. -/
def withParts : ExprKind → List Expr → ExprKind
  | .literal l, _ => .literal l
  | .name n, _ => .name n
  | .this, _ => .this
  | .binary op l r, es => .binary op (es.getD 0 l) (es.getD 1 r)
  | .unary op x, es => .unary op (es.getD 0 x)
  | .chain c, es => .chain { c with operands := es }
  | .member r field, es => .member (es.getD 0 r) field
  | .tupleIndex t i, es => .tupleIndex (es.getD 0 t) i
  | .index s i, es => .index (es.getD 0 s) (es.getD 1 i)
  | .call r method _, es =>
    .call (r.map fun r => es.getD 0 r) method (es.drop r.toList.length)
  | .display k _, es => .display k es
  | .mapDisplay _, es => .mapDisplay (MapEntry.ofParts es)
  | .arrayAlloc t dims init, es =>
    .arrayAlloc t (es.take dims.length) (init.map fun _ => es.drop dims.length)
  | .ctor d c _, es => .ctor d c es
  | .ite c t f, es => .ite (es.getD 0 c) (es.getD 1 t) (es.getD 2 f)
  | .old x, es => .old (es.getD 0 x)

end ExprKind

/-- Entries taken apart into keys and values are put together again. -/
theorem MapEntry.ofParts_flatMap (entries : List MapEntry) :
    MapEntry.ofParts (entries.flatMap fun entry => [entry.key, entry.value]) = entries := by
  induction entries with
  | nil => rfl
  | cons entry entries ih =>
    obtain ⟨key, value⟩ := entry
    simp [MapEntry.ofParts, ih]

/-- Keys and values in turn are taken apart as they were put together. -/
theorem MapEntry.flatMap_ofParts : (es : List Expr) → es.length % 2 = 0 →
    (MapEntry.ofParts es).flatMap (fun entry => [entry.key, entry.value]) = es
  | [], _ => rfl
  | [_], h => by simp at h
  | _ :: _ :: es, h => by
    have even : es.length % 2 = 0 := by
      simp only [List.length_cons] at h
      omega
    simp [MapEntry.ofParts, MapEntry.flatMap_ofParts es even]

/-- The children of an expression are the direct parts of its shape. -/
theorem Expr.children_eq (e : Expr) : e.children = e.kind.parts := by
  obtain ⟨kind, span, ty⟩ := e
  cases kind <;> rfl

namespace ExprKind

/-- A shape with its own parts is unchanged. -/
@[simp] theorem withParts_parts (kind : ExprKind) : kind.withParts kind.parts = kind := by
  cases kind with
  | chain c =>
    obtain ⟨operands, ops, resolved⟩ := c
    rfl
  | call r method args => cases r <;> rfl
  | mapDisplay entries => simp [parts, withParts, MapEntry.ofParts_flatMap]
  | arrayAlloc t dims init => cases init <;> simp [parts, withParts]
  | _ => rfl

/-- A shape that is given as many parts as it has holds these parts. -/
theorem parts_withParts {kind : ExprKind} {es : List Expr}
    (h : es.length = kind.parts.length) : (kind.withParts es).parts = es := by
  cases kind with
  | literal _ | name _ | this => exact (List.length_eq_zero_iff.1 h).symm
  | binary op l r =>
    obtain ⟨a, b, rfl⟩ := List.length_eq_two.1 h
    rfl
  | unary _ _ | member _ _ | tupleIndex _ _ | old _ =>
    obtain ⟨a, rfl⟩ := List.length_eq_one_iff.1 h
    rfl
  | index _ _ =>
    obtain ⟨a, b, rfl⟩ := List.length_eq_two.1 h
    rfl
  | ite _ _ _ =>
    obtain ⟨a, b, c, rfl⟩ := List.length_eq_three.1 h
    rfl
  | chain _ | display _ _ | ctor _ _ _ => rfl
  | call r method args =>
    cases r with
    | none => rfl
    | some r =>
      cases es with
      | nil => simp [parts] at h
      | cons e es => rfl
  | mapDisplay entries =>
    have even : es.length % 2 = 0 := by
      rw [h]
      simp [parts, List.length_flatMap]
    simp [parts, withParts, MapEntry.flatMap_ofParts es even]
  | arrayAlloc t dims init =>
    cases init with
    | none =>
      have all : es.length ≤ dims.length := by
        simpa [parts] using Nat.le_of_eq h
      simp [parts, withParts, List.take_of_length_le all]
    | some values => simp [parts, withParts]

end ExprKind

mutual
/-- Induction on expressions: a property of an expression follows from that of its direct
parts. -/
theorem Expr.induct {P : Expr → Prop} (step : ∀ e, (∀ c ∈ e.kind.parts, P c) → P e) :
    (e : Expr) → P e
  | ⟨kind, span, ty⟩ => step ⟨kind, span, ty⟩ (ExprKind.induct step kind)

/-- The induction for the parts of a shape. -/
theorem ExprKind.induct {P : Expr → Prop} (step : ∀ e, (∀ c ∈ e.kind.parts, P c) → P e) :
    (kind : ExprKind) → ∀ c ∈ kind.parts, P c
  | .literal _ | .name _ | .this => by simp [ExprKind.parts]
  | .binary _ l r => by simp [ExprKind.parts, Expr.induct step l, Expr.induct step r]
  | .unary _ x => by simp [ExprKind.parts, Expr.induct step x]
  | .chain c => Chain.induct step c
  | .member r _ => by simp [ExprKind.parts, Expr.induct step r]
  | .tupleIndex t _ => by simp [ExprKind.parts, Expr.induct step t]
  | .index s i => by simp [ExprKind.parts, Expr.induct step s, Expr.induct step i]
  | .call none _ args => by simpa [ExprKind.parts] using Expr.inductList step args
  | .call (some r) _ args => by
    simpa [ExprKind.parts, Expr.induct step r] using Expr.inductList step args
  | .display _ es => Expr.inductList step es
  | .mapDisplay entries => MapEntry.inductList step entries
  | .arrayAlloc _ dims none => by simpa [ExprKind.parts] using Expr.inductList step dims
  | .arrayAlloc _ dims (some values) => by
    intro c hc
    rcases List.mem_append.1 hc with hc | hc
    · exact Expr.inductList step dims c hc
    · exact Expr.inductList step values c hc
  | .ctor _ _ args => Expr.inductList step args
  | .ite c t f => by
    simp [ExprKind.parts, Expr.induct step c, Expr.induct step t, Expr.induct step f]
  | .old x => by simp [ExprKind.parts, Expr.induct step x]

/-- The induction for the operands of a chain. -/
theorem Chain.induct {P : Expr → Prop} (step : ∀ e, (∀ c ∈ e.kind.parts, P c) → P e) :
    (c : Chain) → ∀ e ∈ c.operands, P e
  | ⟨operands, _, _⟩ => Expr.inductList step operands

/-- The induction for a list of expressions. -/
theorem Expr.inductList {P : Expr → Prop} (step : ∀ e, (∀ c ∈ e.kind.parts, P c) → P e) :
    (es : List Expr) → ∀ e ∈ es, P e
  | [] => by simp
  | e :: es => by simpa [Expr.induct step e] using Expr.inductList step es

/-- The induction for the keys and values of a map display. -/
theorem MapEntry.inductList {P : Expr → Prop} (step : ∀ e, (∀ c ∈ e.kind.parts, P c) → P e) :
    (entries : List MapEntry) → ∀ e ∈ (ExprKind.mapDisplay entries).parts, P e
  | [] => by simp [ExprKind.parts]
  | ⟨key, value⟩ :: entries => by
    simpa [ExprKind.parts, Expr.induct step key, Expr.induct step value] using
      MapEntry.inductList step entries
end

namespace Flow

variable {α : Type}

@[simp] theorem next_pure (r : Flow α) : (r.next fun a => .go a) = r := by
  cases r <;> rfl

/-- Continuations follow one another. -/
theorem next_next (r : Flow α) (f g : α → Flow α) :
    (r.next f).next g = r.next fun a => (f a).next g := by
  cases r <;> rfl

end Flow

namespace Walked

variable {α β γ σ : Type}

@[simp] theorem rebuild_go (r : α × σ) (f : α → β) :
    (Walked.go r).rebuild f = .go (f r.1, r.2) := rfl

@[simp] theorem rebuild_halt (r : α × σ) (f : α → β) :
    (Walked.halt r).rebuild f = .halt (f r.1, r.2) := rfl

@[simp] theorem rebuild_cut (r : α × σ) (f : α → β) :
    (Walked.cut r).rebuild f = .cut (f r.1, r.2) := rfl

@[simp] theorem both_go (r : α × σ) (b : β) (k : σ → Walked (β × σ)) :
    (Walked.go r).both b k = (k r.2).rebuild fun b => (r.1, b) := rfl

@[simp] theorem both_halt (r : α × σ) (b : β) (k : σ → Walked (β × σ)) :
    (Walked.halt r).both b k = .halt ((r.1, b), r.2) := rfl

@[simp] theorem both_cut (r : α × σ) (b : β) (k : σ → Walked (β × σ)) :
    (Walked.cut r).both b k = .cut ((r.1, b), r.2) := rfl

/-- Building a node in two steps is building it in one. -/
@[simp] theorem rebuild_rebuild (r : Walked (α × σ)) (f : α → β) (g : β → γ) :
    (r.rebuild f).rebuild g = r.rebuild fun a => g (f a) := by
  cases r <;> rfl

@[simp] theorem rebuild_id (r : Walked (α × σ)) : (r.rebuild fun a => a) = r := by
  cases r <;> rfl

@[simp] theorem next_pure (r : Walked α) : (r.next fun a => .go a) = r := by
  cases r <;> rfl

/-- A part that is not walked stays as it is. -/
@[simp] theorem both_pure (r : Walked (α × σ)) (b : β) :
    (r.both b fun s => .go (b, s)) = r.rebuild fun a => (a, b) := by
  cases r <;> rfl

end Walked

namespace Revision

variable {σ : Type} (walk : Walker σ Expr)

/-- Walking two lists of expressions is walking one after the other. -/
theorem exprs_append (es fs : List Expr) (s : σ) :
    exprs walk (es ++ fs) s =
      ((exprs walk es s).both fs (exprs walk fs)).rebuild fun (es, fs) => es ++ fs := by
  induction es generalizing s with
  | nil => simp [exprs]
  | cons e es ih =>
    simp only [List.cons_append, exprs]
    cases walk e s with
    | halt r | cut r => simp
    | go r =>
      simp only [Walked.both_go, Walked.rebuild_rebuild, ih]
      cases exprs walk es r.2 <;> simp

/-- A walk of some expressions comes to as many as there were. -/
theorem length_exprs (es : List Expr) (s : σ) : (exprs walk es s).value.1.length = es.length := by
  induction es generalizing s with
  | nil => rfl
  | cons e es ih =>
    simp only [exprs]
    cases walk e s with
    | halt r | cut r => rfl
    | go r =>
      have rest := ih r.2
      cases h : exprs walk es r.2 <;> simpa [h, Walked.value] using rest

/-- A map display is walked as the list of its keys and values. -/
theorem mapEntries_eq (entries : List MapEntry) (s : σ) :
    mapEntries walk entries s =
      (exprs walk (entries.flatMap fun entry => [entry.key, entry.value]) s).rebuild
        MapEntry.ofParts := by
  induction entries generalizing s with
  | nil => rfl
  | cons entry entries ih =>
    obtain ⟨key, value⟩ := entry
    simp only [mapEntries, List.flatMap_cons, List.cons_append, List.nil_append, exprs]
    cases walk key s with
    | halt r | cut r => simp [MapEntry.ofParts, MapEntry.ofParts_flatMap]
    | go r =>
      simp only [Walked.both_go, Walked.rebuild_rebuild]
      cases walk value r.2 with
      | halt q | cut q => simp [MapEntry.ofParts, MapEntry.ofParts_flatMap]
      | go q => simp [ih, MapEntry.ofParts]

/-- A walk goes through the direct parts of a shape and puts the shape together again. -/
theorem exprKind_eq (v : Revision σ) {kind : ExprKind} (chain : ∀ c, kind ≠ .chain c)
    (old : ∀ e, kind ≠ .old e) (s : σ) :
    v.exprKind walk kind s = (exprs walk kind.parts s).rebuild kind.withParts := by
  cases kind with
  | chain c => exact absurd rfl (chain c)
  | old e => exact absurd rfl (old e)
  | literal _ | name _ | this => rfl
  | binary op a b | index a b =>
    simp only [exprKind, ExprKind.parts, exprs]
    cases walk a s with
    | halt r | cut r => rfl
    | go r => simp [ExprKind.withParts]
  | unary _ a | member a _ | tupleIndex a _ =>
    simp [exprKind, ExprKind.parts, exprs, ExprKind.withParts]
  | display _ es | ctor _ _ es => rfl
  | mapDisplay entries =>
    rw [exprKind, mapEntries_eq, Walked.rebuild_rebuild]
    rfl
  | call a method args =>
    cases a with
    | none =>
      rw [exprKind, exprOpt, Walked.both_go, Walked.rebuild_rebuild]
      rfl
    | some a =>
      simp only [exprKind, exprOpt, ExprKind.parts, Option.toList, List.cons_append,
        List.nil_append, exprs]
      cases walk a s <;> simp [ExprKind.withParts]
  | arrayAlloc t dims init =>
    cases init with
    | none =>
      have len := length_exprs walk dims s
      simp only [exprKind, ExprKind.parts, Option.getD_none, List.append_nil]
      cases h : exprs walk dims s <;>
        simp_all [exprsOpt, ExprKind.withParts, Walked.value, List.take_of_length_le]
    | some es =>
      have len := length_exprs walk dims s
      simp only [exprKind, ExprKind.parts, Option.getD_some, exprs_append]
      cases h : exprs walk dims s <;> simp_all [exprsOpt, ExprKind.withParts, Walked.value]
  | ite a b c =>
    simp only [exprKind, ExprKind.parts, exprs]
    cases walk a s with
    | halt r | cut r => rfl
    | go r =>
      simp only [Walked.both_go, Walked.rebuild_rebuild]
      cases walk b r.2 <;> simp [ExprKind.withParts]

end Revision

namespace Survey

variable {σ : Type} (v : Survey σ)

/-- Walking two lists of expressions is walking one after the other. -/
theorem exprs_append (es fs : List Expr) (s : σ) :
    v.exprs (es ++ fs) s = (v.exprs es s).next fun s => v.exprs fs s := by
  induction es generalizing s with
  | nil => rfl
  | cons e es ih =>
    simp only [List.cons_append, exprs]
    cases v.expr e s with
    | halt r => rfl
    | go r => exact ih r

theorem mapEntries_eq (entries : List MapEntry) (s : σ) :
    v.mapEntries entries s =
      v.exprs (entries.flatMap fun entry => [entry.key, entry.value]) s := by
  induction entries generalizing s with
  | nil => rfl
  | cons entry entries ih =>
    obtain ⟨key, value⟩ := entry
    simp only [mapEntries, List.flatMap_cons, List.cons_append, List.nil_append, exprs]
    cases v.expr key s with
    | halt r => rfl
    | go r =>
      cases h : v.expr value r with
      | halt q => simp [Flow.next, h]
      | go q => simp [Flow.next, h, ih]

/-- A reading walk goes through the direct parts of a shape. -/
theorem exprKind_eq {kind : ExprKind} (old : ∀ e, kind ≠ .old e) (s : σ) :
    v.exprKind kind s = v.exprs kind.parts s := by
  cases kind with
  | old e => exact absurd rfl (old e)
  | literal _ | name _ | this | display _ _ | ctor _ _ _ => rfl
  | chain c =>
    obtain ⟨operands, ops, resolved⟩ := c
    rfl
  | binary _ a b | index a b => simp [exprKind, ExprKind.parts, exprs]
  | unary _ a | member a _ | tupleIndex a _ => simp [exprKind, ExprKind.parts, exprs]
  | mapDisplay entries => exact v.mapEntries_eq entries s
  | call a method args => cases a <;> rfl
  | arrayAlloc t dims init =>
    cases init with
    | none => simp [exprKind, exprsOpt, ExprKind.parts]
    | some es => exact (v.exprs_append dims es s).symm
  | ite a b c => simp [exprKind, ExprKind.parts, exprs, Flow.next_next]

end Survey

theorem Expr.namesList_eq (es : List Expr) : Expr.namesList es = es.flatMap Expr.names := by
  induction es with
  | nil => rfl
  | cons e es ih => simp [Expr.namesList, ih]

/-- The names of a shape other than a name are those of its direct parts. -/
theorem ExprKind.names_eq {kind : ExprKind} (name : ∀ n, kind ≠ .name n) :
    kind.names = Expr.namesList kind.parts := by
  cases kind with
  | name n => exact absurd rfl (name n)
  | literal _ | this | display _ _ | ctor _ _ _ => rfl
  | binary _ a b | index a b | ite a b c =>
    simp [names, parts, Expr.namesList]
  | unary _ a | member a _ | tupleIndex a _ | old a => simp [names, parts, Expr.namesList]
  | chain c =>
    obtain ⟨operands, ops, resolved⟩ := c
    rfl
  | mapDisplay entries =>
    simp only [names, parts]
    induction entries with
    | nil => rfl
    | cons entry entries ih =>
      obtain ⟨key, value⟩ := entry
      simp [MapEntry.namesList, Expr.namesList, ih]
  | call a method args => cases a <;> simp [names, parts, Expr.namesList, Expr.namesOpt]
  | arrayAlloc t dims init =>
    cases init <;> simp [names, parts, Expr.namesList_eq, Expr.namesOptList]

namespace Reduction

variable {α β γ : Type}

@[simp] theorem map_map (r : Reduction α) (f : α → β) (g : β → γ) :
    (r.map f).map g = r.map fun a => g (f a) := by
  simp [map, Function.comp_def]

@[simp] theorem map_id (r : Reduction α) : (r.map fun a => a) = r := by
  simp [map]

@[simp] theorem both_whole (r : Reduction α) (b : β) :
    (r.both fun _ => .whole b) = r.map fun a => (a, b) := by
  obtain ⟨rest, n⟩ := r
  cases rest <;> rfl

@[simp] theorem whole_both (a : α) (q : Reduction β) :
    ((whole a).both fun _ => q) = q.map fun b => (a, b) := by
  simp [both, whole, map]

@[simp] theorem both_map (r : Reduction α) (q : Reduction β) (g : β → γ) :
    (r.both fun _ => q.map g) = (r.both fun _ => q).map fun (a, b) => (a, g b) := by
  obtain ⟨rest, n⟩ := r
  cases rest <;> simp [both, map, Function.comp_def]

@[simp] theorem map_both (r : Reduction α) (q : Reduction γ) (f : α → β) :
    ((r.map f).both fun _ => q) = (r.both fun _ => q).map fun (a, c) => (f a, c) := by
  obtain ⟨rest, n⟩ := r
  cases rest <;> simp [both, map, Function.comp_def]

theorem both_both (r : Reduction α) (q : Reduction β) (p : Reduction γ) :
    ((r.both fun _ => q).both fun _ => p) =
      (r.both fun _ => q.both fun _ => p).map fun (a, b, c) => ((a, b), c) := by
  obtain ⟨rest, n⟩ := r
  obtain ⟨rest', n'⟩ := q
  cases rest with
  | none => rfl
  | some a => cases rest' <;> simp [both, map, Function.comp_def, Nat.add_assoc]

end Reduction

theorem Expr.reduceList_append (dead : String) (es fs : List Expr) :
    Expr.reduceList dead (es ++ fs) =
      ((Expr.reduceList dead es).both fun _ => Expr.reduceList dead fs).map
        fun (es, fs) => es ++ fs := by
  induction es with
  | nil => simp [Expr.reduceList]
  | cons e es ih => simp [Expr.reduceList, ih, Reduction.both_both]

theorem Expr.length_reduceList {dead : String} {es es' : List Expr}
    (h : (Expr.reduceList dead es).rest = some es') : es'.length = es.length := by
  induction es generalizing es' with
  | nil =>
    cases h
    rfl
  | cons e es ih =>
    simp only [Expr.reduceList, Reduction.both, Reduction.map] at h
    cases hr : (e.reduce dead e.ty).rest with
    | none => simp [hr] at h
    | some a =>
      simp only [hr, Option.map_map, Option.map_eq_some_iff] at h
      obtain ⟨as, has, rfl⟩ := h
      simpa using ih has

theorem MapEntry.reduceList_eq (dead : String) (entries : List MapEntry) :
    MapEntry.reduceList dead entries =
      (Expr.reduceList dead (entries.flatMap fun entry => [entry.key, entry.value])).map
        MapEntry.ofParts := by
  induction entries with
  | nil => rfl
  | cons entry entries ih =>
    obtain ⟨key, value⟩ := entry
    simp [MapEntry.reduceList, Expr.reduceList, ih, Reduction.both_both, MapEntry.ofParts]

/-- Reduction goes through the direct parts of a shape, all of which have to be left; binary
expressions, which may lose an operand, and names apart. -/
theorem ExprKind.reduce_eq {kind : ExprKind} (name : ∀ n, kind ≠ .name n)
    (binary : ∀ op l r, kind ≠ .binary op l r) (chain : ∀ c, kind ≠ .chain c)
    (dead : String) (span : Span) (ty wanted : Ty) :
    kind.reduce dead span ty wanted =
      (Expr.reduceList dead kind.parts).map fun es => ⟨kind.withParts es, span, ty⟩ := by
  cases kind with
  | name n => exact absurd rfl (name n)
  | binary op l r => exact absurd rfl (binary op l r)
  | chain c => exact absurd rfl (chain c)
  | literal _ | this | display _ _ | ctor _ _ _ => rfl
  | index a b | ite a b c =>
    simp [reduce, parts, withParts, Expr.reduceList, Reduction.both_both]
  | unary _ a | member a _ | tupleIndex a _ | old a =>
    simp [reduce, parts, withParts, Expr.reduceList]
  | mapDisplay entries => simp [reduce, parts, withParts, MapEntry.reduceList_eq]
  | call a method args =>
    cases a <;> simp [reduce, parts, withParts, Expr.reduceList, Expr.reduceOpt]
  | arrayAlloc t dims init =>
    cases init with
    | none =>
      simp only [reduce, Expr.reduceOptList, parts, Option.getD_none, List.append_nil,
        Reduction.both_whole, Reduction.map_map, withParts, Option.map_none]
      cases h : Expr.reduceList dead dims with
      | mk rest n =>
        cases rest with
        | none => rfl
        | some es =>
          have len := Expr.length_reduceList (congrArg Reduction.rest h)
          simp [Reduction.map, ← len]
    | some values =>
      simp only [reduce, Expr.reduceOptList, parts, Option.getD_some, Expr.reduceList_append,
        Reduction.both_map, Reduction.map_map, withParts, Option.map_some]
      cases h : Expr.reduceList dead dims with
      | mk rest n =>
        cases rest with
        | none => rfl
        | some es =>
          have len := Expr.length_reduceList (congrArg Reduction.rest h)
          simp [Reduction.both, Reduction.map, ← len, Function.comp_def]

end Mutation
