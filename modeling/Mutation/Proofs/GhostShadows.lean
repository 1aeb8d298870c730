import Mutation.Proofs.NameProposals

/-!
# Variables behind ghost variables

A scan looks for the variables that may stand in place of a name among those that executable code
can use (`Surroundings.scope`). A ghost variable is none of them, but it hides what has its name
further outside like any other variable. So a name that is proposed may stand for a ghost variable
in the place where it is put. This happens exactly where a ghost variable is declared inside all
others of that name (`Surroundings.Veiled`); all other proposals stand for a variable of the type,
and none of those is missing (`Module.scan_meanings`).
-/

namespace Mutation

theorem Scope.name_of_lookup {s : Scope} {name : String} {b : Binding}
    (found : s.lookup name = some b) : b.name = name :=
  beq_iff_eq.1 (List.find?_some (p := fun b : Binding => b.name == name) found)

namespace Surroundings

variable {a : Surroundings} {name : String}

/-- What a name stands for: the innermost variable of that name, ghost variables counted. -/
def meaning? (a : Surroundings) (name : String) : Option Declared :=
  a.vars.find? fun v => v.name == name

/-- A ghost variable of the name is declared inside all others of that name. -/
def Veiled (a : Surroundings) (name : String) : Prop :=
  ∃ inner veil outer, a.vars = inner ++ veil :: outer ∧ veil.name = name ∧ veil.ghost = true ∧
    ∀ v ∈ inner, v.name = name → v.ghost = true

/-- A name is veiled exactly if it stands for a ghost variable. -/
theorem veiled_iff : a.Veiled name ↔ ∃ v, a.meaning? name = some v ∧ v.ghost = true := by
  constructor
  · rintro ⟨inner, veil, outer, split, named, ghost, others⟩
    rw [meaning?, split, List.find?_append]
    cases found : inner.find? fun v => v.name == name with
    | some v =>
      have same : v.name = name :=
        beq_iff_eq.1 (List.find?_some (p := fun v : Declared => v.name == name) found)
      exact ⟨v, rfl, others v (List.mem_of_find?_eq_some found) same⟩
    | none => exact ⟨veil, by simp [named], ghost⟩
  · rintro ⟨v, found, ghost⟩
    obtain ⟨named, inner, outer, split, others⟩ := List.find?_eq_some_iff_append.1 found
    refine ⟨inner, v, outer, split, beq_iff_eq.1 named, ghost, fun w hw same => ?_⟩
    simpa [same] using others w hw

instance : Decidable (a.Veiled name) :=
  decidable_of_iff ((a.meaning? name).any (·.ghost) = true)
    ((Option.any_eq_true _ _).trans veiled_iff.symm)

/-- Executable code that looks a name up finds what the name stands for, if that is not ghost. -/
theorem lookup_of_meaning {v : Declared} (found : a.meaning? name = some v)
    (plain : v.ghost = false) : a.scope.lookup name = some v.toBinding := by
  obtain ⟨named, inner, outer, split, others⟩ := List.find?_eq_some_iff_append.1 found
  have kept : (a.vars.filter fun v => !v.ghost).find? (fun v => v.name == name) = some v := by
    rw [List.find?_filter, List.find?_eq_some_iff_append]
    refine ⟨by simp [plain, named], inner, outer, split, fun w hw => ?_⟩
    have other := others w hw
    simp only [Bool.not_eq_true'] at other
    simp [other]
  rw [Scope.lookup, scope, List.find?_map]
  exact congrArg (Option.map _) kept

/-- What it finds is what the name stands for, unless a ghost variable is in between. -/
theorem meaning_of_lookup {b : Binding} (found : a.scope.lookup name = some b)
    (clear : ¬a.Veiled name) :
    ∃ v, a.meaning? name = some v ∧ v.ghost = false ∧ v.toBinding = b := by
  have named : b.name = name := Scope.name_of_lookup found
  obtain ⟨w, hw, rfl⟩ := List.mem_map.1 (List.mem_of_find?_eq_some found)
  have some : (a.meaning? name).isSome = true :=
    List.find?_isSome.2 ⟨w, (List.mem_filter.1 hw).1, by simp [named]⟩
  obtain ⟨v, meant⟩ := Option.isSome_iff_exists.1 some
  have plain : v.ghost = false :=
    Bool.eq_false_iff.2 fun ghost => clear (veiled_iff.2 ⟨v, meant, ghost⟩)
  have same := (lookup_of_meaning meant plain).symm.trans found
  exact ⟨v, meant, plain, Option.some.inj same⟩

end Surroundings

namespace Occurrence

variable {x : Occurrence} {y : String}

/-- The name stands for a variable of the type of the node that executable code can use. -/
def Suits (x : Occurrence) (y : String) : Prop :=
  ∃ v, x.around.meaning? y = some v ∧ v.ghost = false ∧ v.ty = x.node.ty

instance : Decidable (x.Suits y) :=
  decidable_of_iff ((x.around.meaning? y).any (fun v => !v.ghost && v.ty = x.node.ty) = true)
    (by simp [Suits, Option.any_eq_true])

theorem mem_others_iff :
    y ∈ x.others ↔ ∃ n b, x.node.name? = some n ∧ x.around.scope.lookup y = some b ∧ y ≠ n ∧
      b.ty = x.node.ty ∧ b.ty.isPrimitive = true := by
  unfold others
  cases x.node.name? with
  | none => simp
  | some n =>
    simp only [Option.elim_some, List.mem_map, List.mem_filter, Scope.mem_visible,
      Bool.and_eq_true, decide_eq_true_eq, Option.some.injEq]
    constructor
    · rintro ⟨b, ⟨found, ⟨other, typed⟩, primitive⟩, rfl⟩
      exact ⟨n, b, rfl, found, other, typed, primitive⟩
    · rintro ⟨_, b, rfl, found, other, typed, primitive⟩
      have named : b.name = y := Scope.name_of_lookup found
      exact ⟨b, ⟨named.symm ▸ found, ⟨named.symm ▸ other, typed⟩, primitive⟩, named⟩

/-- A name that is proposed is the right one unless it is veiled. -/
theorem suits_iff (proposed : y ∈ x.others) : x.Suits y ↔ ¬x.around.Veiled y := by
  obtain ⟨n, b, -, found, -, typed, -⟩ := mem_others_iff.1 proposed
  constructor
  · rintro ⟨v, meant, plain, -⟩ veiled
    obtain ⟨w, meant', ghost⟩ := Surroundings.veiled_iff.1 veiled
    obtain rfl := Option.some.inj (meant.symm.trans meant')
    simp [plain] at ghost
  · intro clear
    obtain ⟨v, meant, plain, rfl⟩ := Surroundings.meaning_of_lookup found clear
    exact ⟨v, meant, plain, typed⟩

/-- Every other name that stands for a variable of the type is proposed. -/
theorem mem_others_of_suits {n : String} (name : x.node.name? = some n) (other : y ≠ n)
    (primitive : x.node.ty.isPrimitive = true) (suits : x.Suits y) : y ∈ x.others := by
  obtain ⟨v, meant, plain, typed⟩ := suits
  exact mem_others_iff.2 ⟨n, _, name, Surroundings.lookup_of_meaning meant plain, other, typed,
    typed ▸ primitive⟩

end Occurrence

/-- A variable that is proposed for a name is, in its place, the innermost one of its name and has
the type, if and only if no ghost variable is declared inside all others of that name; and every
other name that stands for a variable of the type is proposed. -/
theorem Module.scan_meanings {m : Module} (branched : m.Branched) (o : ScanOptions) :
    (m.scan o).filter (fun c => c.kind = .variableReplacement) =
        (m.atNodes .variableReplacement Occurrence.others).filter (fun c => o.allows c.kind) ∧
      ∀ x ∈ m.occurrences,
        (∀ y ∈ x.others, x.Suits y ↔ ¬x.around.Veiled y) ∧
        ∀ n y, x.node.name? = some n → y ≠ n → x.node.ty.isPrimitive = true → x.Suits y →
          y ∈ x.others := by
  refine ⟨?_, fun x _ => ⟨fun y proposed => Occurrence.suits_iff proposed,
    fun n y name other primitive suits =>
      Occurrence.mem_others_of_suits name other primitive suits⟩⟩
  rw [m.scan_kind branched o rfl]
  congr 1
  refine List.flatMap_congr fun x _ => ?_
  exact View.filter_variableReplacement

/-- A parameter that is hidden by a ghost variable in a block, and that by a local in another. -/
def Module.veiling : Module :=
  ⟨"m", [.class
    { name := "C"
      span := .range 0 40
      members := [.method
        { name := "f"
          params := [{ name := "x", ty := .int, span := .token 2 },
            { name := "y", ty := .int, span := .token 3 }]
          span := .range 1 39
          body := some ⟨[
            ⟨.print [⟨.name "x", .token 6, .int⟩], .range 5 7, false⟩,
            ⟨.block ⟨[
              ⟨.varDecl (.withInit [{ name := "y", ty := .bool, span := .token 11 }]
                [⟨.literal (.bool true), .token 13, .bool⟩]), .range 10 14, true⟩,
              ⟨.print [⟨.name "x", .token 17, .int⟩], .range 16 18, false⟩,
              ⟨.block ⟨[
                ⟨.varDecl (.withInit [{ name := "y", ty := .int, span := .token 21 }]
                  [⟨.name "x", .token 23, .int⟩]), .range 20 24, false⟩,
                ⟨.print [⟨.name "x", .token 26, .int⟩], .range 25 27, false⟩], .range 19 28⟩,
                .range 19 28, false⟩], .range 9 29⟩, .range 9 29, false⟩], .range 4 38⟩ }] }]⟩

theorem Module.veiling_branched : Module.veiling.Branched := by
  simp [Module.Branched, Module.veiling, Module.Meets, Decl.members, Member.Meets, Block.Meets,
    Stmt.MeetsList, Stmt.Meets, StmtKind.Meets, Contract.Meets, Contract.clauses,
    Invariant.branched]

/-- The parameter is proposed in front of the ghost variable and behind it, where it is hidden; so
is the local. -/
theorem Module.veiling_meanings :
    Module.veiling.Branched ∧
      (Module.veiling.scan {}).filter (fun c => c.kind = .variableReplacement) =
        [⟨.anchor 6, .variableReplacement, "y"⟩, ⟨.anchor 17, .variableReplacement, "y"⟩,
          ⟨.anchor 23, .variableReplacement, "y"⟩, ⟨.anchor 26, .variableReplacement, "y"⟩] ∧
      Module.veiling.occurrences.map (fun x => decide (x.Suits "y")) = [true, false, false, true] := by
  obtain ⟨replaced, meanings⟩ := Module.scan_meanings Module.veiling_branched {}
  refine ⟨Module.veiling_branched, replaced.trans (by rfl), ?_⟩
  have proposed : ∀ x ∈ Module.veiling.occurrences, "y" ∈ x.others := by decide
  have suits : ∀ x ∈ Module.veiling.occurrences, decide (x.Suits "y") = !decide (x.around.Veiled "y") :=
    fun x hx => by simp [(meanings x hx).1 "y" (proposed x hx)]
  rw [List.map_congr_left suits]
  rfl

/-- Not every proposal stands for a variable of the type. -/
theorem Module.veiling_captured :
    Module.veiling.Branched ∧ ⟨.anchor 17, .variableReplacement, "y"⟩ ∈ Module.veiling.scan {} ∧
      ¬∀ x ∈ Module.veiling.occurrences, ∀ y ∈ x.others, x.Suits y := by
  refine ⟨Module.veiling_branched, ?_, ?_⟩
  · decide
  · decide

end Mutation
