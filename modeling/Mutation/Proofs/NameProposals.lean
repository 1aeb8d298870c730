import Mutation.Proofs.ScopedScan

/-!
# Proposals that depend on the scope

Three kinds of operators are proposed for what is in scope at a node: another variable in the place
of a name, `this` before a name, and the deletion of `this`. With what is in scope by the rules of
the language (`Module.occurrences`), the proposals of these kinds are exactly those at the nodes of
the executable code, in walk order (`Module.scan_names`).

A scan looks a field up by the names of its class and of itself. Where two declarations or two
fields have the same name, the field that is found need not be the one in the class around the node
(`Module.doubled`); where they have not, it is (`Module.indexes_eq_owns`).
-/

namespace Mutation

/-- The field of `this` that an expression reads. -/
def Expr.thisField? (e : Expr) : Option String :=
  match e.kind with
  | .member receiver field => if receiver.isThis then some field else none
  | _ => none

namespace View

variable {v : View} {e : Expr} {kind kind' : Kind}

theorem filter_placed {location : Location} (as : List String) :
    (as.map fun a => (⟨location, kind, a⟩ : Candidate)).filter (fun c => c.kind = kind') =
      if kind = kind' then as.map fun a => ⟨location, kind, a⟩ else [] := by
  rw [List.filter_map]
  by_cases same : kind = kind' <;> simp [Function.comp_def, same]

theorem filter_atAnchor (as : List String) :
    (atAnchor e kind as).filter (fun c => c.kind = kind') =
      if kind = kind' then atAnchor e kind as else [] := filter_placed as

theorem filter_atRange {span : Span} (as : List String) :
    (atRange span kind as).filter (fun c => c.kind = kind') =
      if kind = kind' then atRange span kind as else [] := filter_placed as

theorem filter_default (other : kind ≠ .defaultValue) :
    (v.default e).filter (fun c => c.kind = kind) = [] := by
  unfold View.default
  split
  · rw [filter_atRange, if_neg other.symm]
  · rfl

/-- Another variable is proposed for a name only. -/
theorem filter_variableReplacement :
    (v.expr e).filter (fun c => c.kind = .variableReplacement) =
      atAnchor e .variableReplacement (e.name?.elim [] fun n => v.otherVariables n e.ty) := by
  rw [View.expr, List.filter_append, filter_default (by decide), List.append_nil]
  obtain ⟨shape, span, ty⟩ := e
  cases shape <;> simp only [View.shape, View.name, View.binary, View.member, View.call,
    List.filter_append, filter_atAnchor, filter_atRange, reduceCtorEq, if_false, if_true,
    List.append_nil, List.nil_append, List.filter_nil] <;> rfl

/-- So is `this` before a name. -/
theorem filter_thisInsertion :
    (v.expr e).filter (fun c => c.kind = .thisInsertion) =
      atAnchor e .thisInsertion
        (e.name?.elim [] fun n => argumentIf (v.hidesField n e.ty) n) := by
  rw [View.expr, List.filter_append, filter_default (by decide), List.append_nil]
  obtain ⟨shape, span, ty⟩ := e
  cases shape <;> simp only [View.shape, View.name, View.binary, View.member, View.call,
    List.filter_append, filter_atAnchor, filter_atRange, reduceCtorEq, if_false, if_true,
    List.append_nil, List.nil_append, List.filter_nil] <;> rfl

/-- The deletion of `this` is proposed for a field of `this` only. -/
theorem filter_thisDeletion :
    (v.expr e).filter (fun c => c.kind = .thisDeletion) =
      atAnchor e .thisDeletion (e.thisField?.elim [] fun field =>
        argumentIf ((v.scope.lookup field).any fun b => b.ty = e.ty) field) := by
  rw [View.expr, List.filter_append, filter_default (by decide), List.append_nil]
  obtain ⟨shape, span, ty⟩ := e
  cases shape with
  | member receiver field =>
    simp only [View.shape, View.member, List.filter_append, filter_atAnchor, reduceCtorEq, if_false,
      if_true, List.append_nil, Expr.thisField?]
    cases receiver.isThis <;> rfl
  | _ =>
    simp only [View.shape, View.name, View.binary, View.call, List.filter_append, filter_atAnchor,
      filter_atRange, reduceCtorEq, if_false, List.append_nil, List.filter_nil]
    rfl

end View

/-! ### Fields -/

/-- The fields of a class that are compiled. -/
def Class.fields (c : Class) : List Variable :=
  (c.members.filterMap Member.field?).filter fun f => !f.ghost

/-- The class has such a field. -/
def Class.owns (c : Class) (field : String) (ty : Ty) : Bool :=
  c.fields.any fun f => f.name == field && f.ty = ty

/-- The first field of this name has this type, among those of all classes with the name of the
class, and behind them those of the datatypes with that name. -/
def Module.indexes (m : Module) (c : Class) (field : String) (ty : Ty) : Bool :=
  m.declarations.fieldType? c.name field = some ty

theorem filter_eq_singleton {α : Type} {f : α → String} {l : List α} (nodup : (l.map f).Nodup)
    {x : α} (hx : x ∈ l) : l.filter (fun y => f y == f x) = [x] := by
  induction l with
  | nil => cases hx
  | cons y l ih =>
    obtain ⟨fresh, rest⟩ := List.nodup_cons.1 nodup
    rcases List.mem_cons.1 hx with rfl | hx
    · have none : l.filter (fun y => f y == f x) = [] := by
        rw [List.filter_eq_nil_iff]
        intro y hy same
        exact fresh (beq_iff_eq.1 same ▸ List.mem_map_of_mem hy)
      rw [List.filter_cons_of_pos (by simp), none]
    · have other : (f y == f x) = false := by
        rw [beq_eq_false_iff_ne]
        intro same
        exact fresh (same ▸ List.mem_map_of_mem hx)
      rw [List.filter_cons_of_neg (by simp [other]), ih rest hx]

/-- The datatype, if it is one. -/
def Decl.datatype? : Decl → Option Datatype
  | .class _ => none
  | .datatype d => some d

/-- The members of the declarations with a name: those of the classes first. -/
theorem Module.membersOf_eq_filter (m : Module) (owner : String) :
    m.declarations.membersOf owner =
      ((m.decls.filter fun d => d.name == owner).filterMap Decl.class?).flatMap (·.members) ++
        ((m.decls.filter fun d => d.name == owner).filterMap Decl.datatype?).flatMap (·.members) := by
  have classes : m.classes.filter (fun c => c.name == owner) =
      (m.decls.filter fun d => d.name == owner).filterMap Decl.class? := by
    rw [Module.classes, List.filter_filterMap, List.filterMap_filter]
    refine List.filterMap_congr fun d _ => ?_
    cases d <;> simp [Decl.class?, Decl.name, Option.filter]
  have datatypes : m.datatypes.filter (fun t => t.name == owner) =
      (m.decls.filter fun d => d.name == owner).filterMap Decl.datatype? := by
    rw [Module.datatypes, List.filter_filterMap, List.filterMap_filter]
    refine List.filterMap_congr fun d _ => ?_
    cases d <;> simp [Decl.datatype?, Decl.name, Option.filter]
  rw [Declarations.membersOf, Module.declarations, classes, datatypes]

/-- Where names are unique, these are the members of the one declaration. -/
theorem Module.membersOf_name {m : Module} (names : (m.decls.map Decl.name).Nodup) {d : Decl}
    (hd : d ∈ m.decls) : m.declarations.membersOf d.name = d.members := by
  rw [membersOf_eq_filter, filter_eq_singleton names hd]
  cases d with
  | «class» c => simp [Decl.class?, Decl.datatype?, Decl.members]
  | datatype t => simp [Decl.class?, Decl.datatype?, Decl.members]

/-- Where names are unique, the field that is found is that of the class. -/
theorem Module.indexes_eq_owns {m : Module} (names : (m.decls.map Decl.name).Nodup) {c : Class}
    (hc : c ∈ m.classes) (fields : (c.fields.map (·.name)).Nodup) (field : String) (ty : Ty) :
    m.indexes c field ty = c.owns field ty := by
  have declared : Decl.class c ∈ m.decls := by
    obtain ⟨d, hd, same⟩ := List.mem_filterMap.1 hc
    cases d <;> cases same
    exact hd
  have members : m.declarations.membersOf c.name = c.members := membersOf_name names declared
  have found : m.declarations.fieldsOf c.name = c.fields := by
    rw [Declarations.fieldsOf, members, Class.fields]
  rw [Module.indexes, Declarations.fieldType?, found, Class.owns, Bool.eq_iff_iff, decide_eq_true_iff,
    Option.map_eq_some_iff, List.any_eq_true]
  constructor
  · rintro ⟨f, first, rfl⟩
    have named : (f.name == field) = true :=
      List.find?_some (p := fun f : Variable => f.name == field) first
    exact ⟨f, List.mem_of_find?_eq_some first, by simp [named]⟩
  · rintro ⟨f, hf, suits⟩
    obtain ⟨named, typed⟩ := Bool.and_eq_true_iff.1 suits
    obtain rfl := beq_iff_eq.1 named
    have single : c.fields.filter (fun g => g.name == f.name) = [f] :=
      filter_eq_singleton fields hf
    refine ⟨f, ?_, of_decide_eq_true typed⟩
    rw [← List.head?_filter, single]
    rfl

/-! ### What a scan proposes for names -/

namespace Occurrence

variable (x : Occurrence)

/-- The other variables of the type of a name, the innermost first, if the type is primitive. -/
def others : List String :=
  x.node.name?.elim [] fun n =>
    (x.around.scope.visible.filter fun b =>
      b.name ≠ n && b.ty = x.node.ty && b.ty.isPrimitive).map (·.name)

/-- The name, if it is that of a variable in a member of a class that is not static, and the class
has a field of that name and type. -/
def hidesField (owns : Class → String → Ty → Bool) : List String :=
  x.node.name?.elim [] fun n =>
    if !x.around.isStatic && (x.around.scope.lookup n).isSome &&
      x.around.class?.any fun c => owns c n x.node.ty then [n] else []

/-- The field of `this`, if the innermost variable of its name has its type. -/
def fieldHidden : List String :=
  x.node.thisField?.elim [] fun field =>
    if (x.around.scope.lookup field).any fun b => b.ty = x.node.ty then [field] else []

end Occurrence

/-- Candidates of one kind, at the anchors of the nodes of the executable code in walk order, with
these arguments. -/
def Module.atNodes (m : Module) (kind : Kind) (arguments : Occurrence → List String) :
    List Candidate :=
  m.occurrences.flatMap fun x =>
    (arguments x).map fun argument => ⟨x.node.span.anchorLocation, kind, argument⟩

/-- Another variable is proposed for exactly the names at which it is in scope and has the type;
`this` is proposed for exactly the names that hide a field; and the deletion of `this` for exactly
the fields of `this` that are hidden. The field that is hidden is looked up by names, which leads to
the class around the node where names are unique. -/
theorem Module.scan_names {m : Module} (branched : m.Branched) (o : ScanOptions) :
    (m.scan o).filter (fun c => c.kind = .variableReplacement) =
        (m.atNodes .variableReplacement Occurrence.others).filter (fun c => o.allows c.kind) ∧
      (m.scan o).filter (fun c => c.kind = .thisInsertion) =
        (m.atNodes .thisInsertion (Occurrence.hidesField · m.indexes)).filter
          (fun c => o.allows c.kind) ∧
      (m.scan o).filter (fun c => c.kind = .thisDeletion) =
        (m.atNodes .thisDeletion Occurrence.fieldHidden).filter (fun c => o.allows c.kind) ∧
      ((m.decls.map Decl.name).Nodup → ∀ c ∈ m.classes, (c.fields.map (·.name)).Nodup →
        ∀ field ty, m.indexes c field ty = c.owns field ty) := by
  refine ⟨?_, ?_, ?_, fun names c hc fields => m.indexes_eq_owns names hc fields⟩
  · rw [m.scan_kind branched o rfl]
    congr 1
    refine List.flatMap_congr fun x _ => ?_
    exact View.filter_variableReplacement
  · rw [m.scan_kind branched o rfl]
    congr 1
    refine List.flatMap_congr fun x _ => ?_
    rw [Occurrence.proposals, View.filter_thisInsertion]
    have condition (n : String) : (x.around.view m o).hidesField n x.node.ty =
        (!x.around.isStatic && (x.around.scope.lookup n).isSome &&
          x.around.class?.any fun c => m.indexes c n x.node.ty) := by
      obtain ⟨node, around⟩ := x
      unfold View.hidesField
      rw [Surroundings.view]
      dsimp only
      congr 1
      generalize around.class? = c
      cases c <;> simp [Module.indexes]
    simp only [condition]
    rfl
  · rw [m.scan_kind branched o rfl]
    congr 1
    refine List.flatMap_congr fun x _ => ?_
    exact View.filter_thisDeletion

/-- A method that declares the name of its parameter again in a block, in a class with a field of
that name. -/
def Module.shadowed : Module :=
  ⟨"m", [.class
    { name := "C"
      span := .range 0 60
      members := [.field { name := "n", ty := .int, span := .token 1 }, .method
        { name := "f"
          params := [{ name := "n", ty := .int, span := .token 4 },
            { name := "g", ty := .int, span := .token 5, ghost := true }]
          span := .range 3 59
          body := some ⟨[
            ⟨.varDecl (.withInit [{ name := "k", ty := .int, span := .token 9 }]
              [⟨.name "n", .token 11, .int⟩]), .range 8 12, false⟩,
            ⟨.block ⟨[
              ⟨.varDecl (.withInit [{ name := "n", ty := .int, span := .token 16 }]
                [⟨.name "k", .token 18, .int⟩]), .range 15 19, false⟩,
              ⟨.print [⟨.name "n", .token 22, .int⟩], .range 21 23, false⟩], .range 14 24⟩,
              .range 14 24, false⟩,
            ⟨.print [⟨.member ⟨.this, .token 27, .class "C"⟩ "n", .range 27 29, .int⟩],
              .range 26 30, false⟩], .range 7 58⟩ }] }]⟩

/-- The ghost parameter is proposed nowhere, and the field is hidden behind the block too. -/
theorem Module.shadowed_scan :
    Module.shadowed.Branched ∧
      (Module.shadowed.scan {}).filter (fun c => c.kind = .variableReplacement) =
        [⟨.anchor 18, .variableReplacement, "n"⟩, ⟨.anchor 22, .variableReplacement, "k"⟩] ∧
      (Module.shadowed.scan {}).filter (fun c => c.kind = .thisInsertion) =
        [⟨.anchor 11, .thisInsertion, "n"⟩, ⟨.anchor 22, .thisInsertion, "n"⟩] ∧
      (Module.shadowed.scan {}).filter (fun c => c.kind = .thisDeletion) =
        [⟨.anchor 27, .thisDeletion, "n"⟩] := by
  have branched : Module.shadowed.Branched := by
    simp [Module.Branched, Module.shadowed, Module.Meets, Decl.members, Member.Meets, Block.Meets,
      Stmt.MeetsList, Stmt.Meets, StmtKind.Meets, Contract.Meets, Contract.clauses,
      Invariant.branched]
  obtain ⟨replaced, inserted, deleted, -⟩ := Module.scan_names branched {}
  exact ⟨branched, replaced.trans (by rfl), inserted.trans (by rfl), deleted.trans (by rfl)⟩

/-- A class with two fields of one name, the second of which is hidden by a parameter. -/
def Module.doubled : Module :=
  ⟨"m", [.class
    { name := "C"
      span := .range 0 20
      members := [.field { name := "x", ty := .int, span := .token 1 },
        .field { name := "x", ty := .bool, span := .token 2 }, .method
        { name := "f"
          params := [{ name := "x", ty := .bool, span := .token 6 }]
          span := .range 4 19
          body := some ⟨[⟨.print [⟨.name "x", .token 12, .bool⟩], .range 10 14, false⟩],
            .range 8 18⟩ }] }]⟩

/-- The field that is found by its name is the first one, so `this` is not proposed. -/
theorem Module.doubled_scan :
    Module.doubled.Branched ∧
      Module.doubled.atNodes .thisInsertion (Occurrence.hidesField · Class.owns) =
        [⟨.anchor 12, .thisInsertion, "x"⟩] ∧
      (Module.doubled.scan {}).filter (fun c => c.kind = .thisInsertion) = [] := by
  have branched : Module.doubled.Branched := by
    simp [Module.Branched, Module.doubled, Module.Meets, Decl.members, Member.Meets, Block.Meets,
      Stmt.MeetsList, Stmt.Meets, StmtKind.Meets, Contract.Meets, Contract.clauses,
      Invariant.branched]
  exact ⟨branched, by rfl, by rfl⟩

end Mutation
