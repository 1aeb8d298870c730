import Mathlib.Data.List.Nodup
import Mutation.Proofs.LiteralValues
import Mutation.Proofs.NameProposals
import Mutation.Proofs.Whereabouts

/-!
# No candidate is proposed twice

The candidates of a scan are all different when the places of the module are told apart, names are
unique where they are declared, and there is no real literal (`Module.nodup_scan`): next to a large
real number there are none at distance one.

Two places never share a candidate (`Module.Unambiguous.places_disjoint`). At one place the
candidates of one kind differ in their arguments: operators, names, indices and pairs of them,
values, ranges (`Place.nodup_proposals`), and candidates of different kinds are put together by
`Unrepeated.append`.
-/

namespace Mutation

open Text (natText natChars splitFirst)

/-! ### Arguments that differ -/

section

variable {α β γ : Type}

/-- Two numbers with one text are one number. -/
theorem Text.natText_injective : Function.Injective natText := by
  intro i j same
  have read := congrArg (fun s => Text.readNat? s.toList) same
  simp only [natText, String.toList_ofList, Text.readNat?_natChars] at read
  exact Option.some.inj read

/-- A pair of numerals is known from its text. -/
theorem Text.natText_pair_inj (sep : Char) (solid : sep.isDigit = false) {i j k l : Nat}
    (same : natText i ++ String.singleton sep ++ natText j =
      natText k ++ String.singleton sep ++ natText l) : i = k ∧ j = l := by
  have split (i j : Nat) :
      splitFirst sep (natText i ++ String.singleton sep ++ natText j).toList =
        some (natChars i, natChars j) := by
    simpa [natText] using Text.splitFirst_append (Operator.not_mem_natChars solid i)
  have read := congrArg (fun s => splitFirst sep s.toList) same
  simp only [split, Option.some.injEq, Prod.mk.injEq] at read
  exact ⟨Text.natText_injective (congrArg String.ofList read.1),
    Text.natText_injective (congrArg String.ofList read.2)⟩

/-- Numbered elements differ in their numbers. -/
theorem nodup_zipIdx (l : List α) : l.zipIdx.Pairwise fun x y => x.2 ≠ y.2 := by
  have indices : (l.zipIdx.map Prod.snd).Nodup := by
    rw [List.zipIdx_map_snd]
    exact List.nodup_range'
  exact List.pairwise_map.1 indices

/-- The numerals of some of the indices of a list. -/
theorem nodup_indices (l : List α) (p : α × Nat → Bool) :
    ((l.zipIdx.filter p).map fun x => natText x.2).Nodup := by
  apply List.pairwise_map.2
  apply ((nodup_zipIdx l).sublist List.filter_sublist).imp
  intro x y other same
  exact other (Text.natText_injective same)

/-- The names of what is taken out of a list are among the names in the list. -/
theorem sublist_map_filterMap {f : α → Option β} {g : β → γ} {h : α → γ}
    (same : ∀ x y, f x = some y → g y = h x) (l : List α) :
    ((l.filterMap f).map g).Sublist (l.map h) := by
  induction l with
  | nil => exact .slnil
  | cons x l ih =>
    cases found : f x with
    | none =>
      rw [List.filterMap_cons_none found]
      exact ih.cons _
    | some y =>
      rw [List.filterMap_cons_some found, List.map_cons, List.map_cons, same x y found]
      exact ih.cons_cons _

end

/-- Ranges are told apart by their texts. -/
theorem Location.range_text_inj {s t : Span} (same : s.rangeLocation.text = t.rangeLocation.text) :
    s.rangeLocation = t.rangeLocation := by
  have split (s : Span) : splitFirst '-' s.rangeLocation.text.toList =
      some (natChars s.start.toNat, natChars s.stop.toNat) := by
    rw [Location.text, String.toList_ofList]
    exact Text.splitFirst_append (Operator.not_mem_natChars rfl _)
  have read := congrArg (fun text => splitFirst '-' text.toList) same
  simp only [split, Option.some.injEq, Prod.mk.injEq] at read
  have start := Text.natText_injective (congrArg String.ofList read.1)
  have stop := Text.natText_injective (congrArg String.ofList read.2)
  rw [Span.rangeLocation, Span.rangeLocation, UInt32.toNat_inj.1 start, UInt32.toNat_inj.1 stop]

/-- Operators are told apart by their names. -/
theorem BinaryOp.name_injective : Function.Injective BinaryOp.name := by
  intro a b same
  have read := (BinaryOp.read?_name a).1
  rw [same, (BinaryOp.read?_name b).1] at read
  exact (Option.some.inj read).symm

/-- So are the unary ones. -/
theorem UnaryOp.name_injective : Function.Injective UnaryOp.name := by
  intro a b same
  have read := (UnaryOp.read?_name a).1
  rw [same, (UnaryOp.read?_name b).1] at read
  exact (Option.some.inj read).symm

/-- And the initializer forms. -/
theorem InitForm.name_injective : Function.Injective InitForm.name := by
  intro a b
  cases a <;> cases b <;> decide

theorem BinaryOp.nodup_replacements (op : BinaryOp) (t : Ty) : (op.replacements t).Nodup := by
  have rivals : (op.rivals t).Nodup := by
    unfold BinaryOp.rivals
    split
    · split
      · decide
      · split
        · decide
        · split <;> decide
    · split
      · decide
      · split <;> decide
    · split <;> decide
    all_goals decide
  exact rivals.filter _

theorem View.nodup_argumentIf (condition : Bool) (a : String) :
    (View.argumentIf condition a).Nodup := by
  cases condition with
  | false => exact .nil
  | true => exact List.nodup_singleton a

/-- The visible bindings have distinct names, so no variable is proposed twice. -/
theorem View.nodup_otherVariables (v : View) (name : String) (ty : Ty) :
    (v.otherVariables name ty).Nodup :=
  (List.filter_sublist.map _).nodup v.scope.nodup_visible

/-- Components are told apart by their index. -/
theorem View.nodup_otherComponents (items : List Ty) (index : Nat) :
    (View.otherComponents items index).Nodup := by
  unfold View.otherComponents
  split
  · exact .nil
  · exact nodup_indices items _

/-- Pairs of arguments are told apart by their first index, and by the second where the first is
the same. -/
theorem View.nodup_equalPairs (args : List Expr) : (View.equalPairs args).Nodup := by
  apply List.nodup_flatMap.2
  constructor
  · intro x _
    apply List.pairwise_map.2
    apply ((nodup_zipIdx args).sublist List.filter_sublist).imp
    intro y z other same
    exact other (Text.natText_pair_inj ';' rfl same).2
  · apply (nodup_zipIdx args).imp
    intro x y other a hx hy
    obtain ⟨z, -, rfl⟩ := List.mem_map.1 hx
    obtain ⟨z', -, same⟩ := List.mem_map.1 hy
    exact other (Text.natText_pair_inj ';' rfl same).1.symm

/-! ### Names of declarations -/

/-- The locals that an element declares. -/
def Place.locals : Place → List String
  | .element s => s.declares
  | _ => []

/-- The place is a real literal. -/
def Place.isReal : Place → Bool
  | .expr ⟨.literal (.real _), _, _⟩ => true
  | _ => false

/-- Names are unique where they are declared: the types of the module, the members of a type, the
constructors of a datatype, and the locals of a declaration. -/
structure Module.DistinctNames (m : Module) : Prop where
  types : (m.decls.map Decl.name).Nodup
  members : ∀ d ∈ m.decls, (d.members.map Member.name).Nodup
  ctors : ∀ d ∈ m.datatypes, (d.ctors.map (·.name)).Nodup
  locals : ∀ i ∈ m.places .everything, i.2.locals.Nodup

instance (m : Module) : Decidable m.DistinctNames :=
  decidable_of_iff (_ ∧ _ ∧ _ ∧ _)
    ⟨fun h => ⟨h.1, h.2.1, h.2.2.1, h.2.2.2⟩, fun h => ⟨h.1, h.2, h.3, h.4⟩⟩

namespace Module.DistinctNames

variable {m : Module}

/-- The members found by owner have distinct names. -/
theorem membersOf (names : m.DistinctNames) (owner : String) :
    ((m.declarations.membersOf owner).map Member.name).Nodup := by
  by_cases known : ∃ d ∈ m.decls, d.name = owner
  · obtain ⟨d, hd, rfl⟩ := known
    rw [Module.membersOf_name names.types hd]
    exact names.members d hd
  · have none : m.decls.filter (fun d => d.name == owner) = [] := by
      apply List.filter_eq_nil_iff.2
      intro d hd same
      exact known ⟨d, hd, beq_iff_eq.1 same⟩
    rw [Module.membersOf_eq_filter, none]
    exact .nil

/-- So have the sibling fields. -/
theorem siblingFields (names : m.DistinctNames) (owner field : String) :
    (m.declarations.siblingFields owner field).Nodup := by
  unfold Declarations.siblingFields
  split
  · exact .nil
  · have own : ∀ x y, Member.field? x = some y → y.name = x.name := by
      intro x y found
      cases x <;> cases found
      rfl
    have all := (sublist_map_filterMap own _).nodup (names.membersOf owner)
    exact ((List.filter_sublist.trans List.filter_sublist).map _).nodup all

/-- And the compatible callables. -/
theorem compatibleCallables (names : m.DistinctNames) (owner name : String) :
    (m.declarations.compatibleCallables owner name).Nodup := by
  unfold Declarations.compatibleCallables
  split
  · exact .nil
  · have own : ∀ x y, Member.callable? x = some y → y.name = x.name := by
      intro x y found
      cases x <;> cases found <;> rfl
    have all := (sublist_map_filterMap own _).nodup (names.membersOf owner)
    exact (List.filter_sublist.map _).nodup all

/-- And the sibling constructors. -/
theorem siblingCtors (names : m.DistinctNames) (datatype ctor : String) :
    (m.declarations.siblingCtors datatype ctor).Nodup := by
  have all : ((m.declarations.ctorsOf datatype).map (·.name)).Nodup := by
    unfold Declarations.ctorsOf
    split
    · rename_i t last
      exact names.ctors t (List.mem_filter.1 (List.mem_of_getLast? last)).1
    · exact .nil
  unfold Declarations.siblingCtors
  split
  · exact .nil
  · exact (List.filter_sublist.map _).nodup all

end Module.DistinctNames

/-! ### Candidates of several kinds -/

/-- The candidates are of these kinds, and none comes twice. -/
structure Unrepeated (kinds : List Kind) (new : List Candidate) : Prop where
  nodup : new.Nodup
  kinds : ∀ c ∈ new, c.kind ∈ kinds

namespace Unrepeated

variable {kinds kinds' : List Kind} {new new' : List Candidate}

theorem nil : Unrepeated kinds [] := ⟨.nil, List.forall_mem_nil _⟩

/-- Candidates of one kind at one location differ in their arguments. -/
theorem placed {location : Location} {kind : Kind} {arguments : List String}
    (h : arguments.Nodup) :
    Unrepeated [kind] (arguments.map fun a => ⟨location, kind, a⟩) := by
  constructor
  · apply h.map
    intro a b same
    exact congrArg Candidate.argument same
  · intro c hc
    obtain ⟨a, -, rfl⟩ := List.mem_map.1 hc
    exact List.mem_singleton_self kind

/-- More kinds may be named than occur. -/
theorem weaken (h : Unrepeated kinds new) (sub : ∀ kind ∈ kinds, kind ∈ kinds') :
    Unrepeated kinds' new :=
  ⟨h.nodup, fun c hc => sub c.kind (h.kinds c hc)⟩

/-- Proposals of different kinds are different. -/
theorem append (h : Unrepeated kinds new) (h' : Unrepeated kinds' new')
    (apart : ∀ kind ∈ kinds, kind ∉ kinds') : Unrepeated (kinds ++ kinds') (new ++ new') := by
  constructor
  · refine List.nodup_append.2 ⟨h.nodup, h'.nodup, ?_⟩
    rintro c hc _ hc' rfl
    exact apart c.kind (h.kinds c hc) (h'.kinds c hc')
  · intro c hc
    rcases List.mem_append.1 hc with hc | hc
    · exact List.mem_append_left _ (h.kinds c hc)
    · exact List.mem_append_right _ (h'.kinds c hc)

end Unrepeated

/-! ### One place -/

section

variable {v : View} {m : Module} {o : ScanOptions} {owner : String} {e : Expr}

namespace View

/-- A name is proposed nothing twice. -/
theorem unrepeated_name (n : String) :
    Unrepeated [.negationInsertion, .variableReplacement, .thisInsertion] (v.name e n) := by
  have operators := (Option.toList_nodup (UnaryOp.forType? e.ty)).map UnaryOp.name_injective
  exact ((Unrepeated.placed operators).append (.placed (v.nodup_otherVariables n e.ty))
    (by decide)).append (.placed (nodup_argumentIf _ n)) (by decide)

/-- Nor is a binary expression. -/
theorem unrepeated_binary (op : BinaryOp) (l r : Expr) :
    Unrepeated [.binaryReplacement, .binaryToBool, .operandOnly] (binary e op l r) := by
  have operators := (op.nodup_replacements l.ty).map BinaryOp.name_injective
  have values : (if e.ty = .bool then ["true", "false"] else []).Nodup := by
    split <;> decide
  have operands : (argumentIf (l.ty.fits e.ty) "left" ++
      argumentIf (r.ty.fits e.ty) "right").Nodup := by
    cases l.ty.fits e.ty <;> cases r.ty.fits e.ty <;> decide
  exact ((Unrepeated.placed operators).append (.placed values) (by decide)).append
    (.placed operands) (by decide)

/-- Nor is a field, when fields have distinct names. -/
theorem unrepeated_member (fits : v.Fits m o (some owner)) (names : m.DistinctNames) (r : Expr)
    (field : String) : Unrepeated [.thisDeletion, .fieldReplacement] (v.member e r field) := by
  unfold member
  refine (Unrepeated.placed (nodup_argumentIf _ field)).append (.placed ?_) (by decide)
  split
  · rw [fits.declarations]
    exact names.siblingFields _ field
  · exact .nil

/-- Nor is a call, when callables have distinct names. -/
theorem unrepeated_call (fits : v.Fits m o (some owner)) (names : m.DistinctNames)
    (r : Option Expr) (method : String) (args : List Expr) :
    Unrepeated [.argumentPropagation, .receiverPropagation, .calleeReplacement, .argumentSwap]
      (v.call e r method args) := by
  have fitting : (if !v.isBare e.span then
      (args.zipIdx.filter fun x => x.1.ty.fits e.ty).map fun x => natText x.2 else []).Nodup := by
    split
    · exact nodup_indices args _
    · exact .nil
  unfold call
  refine (((Unrepeated.placed fitting).append (.placed (nodup_argumentIf _ ""))
    (by decide)).append (.placed ?_) (by decide)).append (.placed (nodup_equalPairs args))
      (by decide)
  split
  · rw [fits.declarations]
    exact names.compatibleCallables _ method
  · exact .nil

/-- The default of a type is none of the proposals by shape. -/
theorem unrepeated_shape (fits : v.Fits m o (some owner)) (names : m.DistinctNames)
    (real : ∀ x, e.kind ≠ .literal (.real x)) :
    Unrepeated (Kind.all.filter fun kind => kind ≠ .defaultValue) (v.shape e) := by
  unfold View.shape
  split
  case h_1 l he =>
    have values := l.nodup_texts (fun x hx => real x (hx ▸ he)) e.ty v.sentinel
    exact (Unrepeated.placed values).weaken (by decide)
  case h_2 n _ => exact (unrepeated_name n).weaken (by decide)
  case h_3 op l r _ => exact (unrepeated_binary op l r).weaken (by decide)
  case h_4 => exact (Unrepeated.placed (nodup_argumentIf _ "")).weaken (by decide)
  case h_5 r field _ => exact (unrepeated_member fits names r field).weaken (by decide)
  case h_6 t i _ =>
    split
    · exact (Unrepeated.placed (nodup_otherComponents _ _)).weaken (by decide)
    · exact (Unrepeated.placed .nil).weaken (by decide)
  case h_7 r method args _ => exact (unrepeated_call fits names r method args).weaken (by decide)
  case h_8 | h_9 =>
    have forms := (Option.toList_nodup (initForm? e)).map InitForm.name_injective
    exact (Unrepeated.placed forms).weaken (by decide)
  case h_10 datatype ctor _ _ =>
    rw [fits.declarations]
    exact (Unrepeated.placed (names.siblingCtors datatype ctor)).weaken (by decide)
  case h_11 => exact .nil

/-- There is at most one default value. -/
theorem unrepeated_default : Unrepeated [.defaultValue] (v.default e) := by
  unfold View.default
  split
  · cases e.ty.default? with
    | none => exact .nil
    | some l => exact .placed (List.nodup_singleton l.text)
  · exact .nil

/-- Nothing is proposed twice for one expression, real literals apart. -/
theorem nodup_expr (fits : v.Fits m o (some owner)) (names : m.DistinctNames)
    (real : ∀ x, e.kind ≠ .literal (.real x)) : (v.expr e).Nodup :=
  ((unrepeated_shape fits names real).append unrepeated_default (by decide)).nodup

end View

namespace Stmt

/-- Cases that may change places with the default case are told apart by their constructors: of
several cases with one constructor only the first is proposed. -/
theorem unrepeated_match (span : Span) (cases : List MatchCase) :
    Unrepeated [.caseReplacement, .caseExtraction] (matchProposals span cases) := by
  refine Unrepeated.append (.placed ?_) (.placed (nodup_indices cases _)) (by decide)
  split
  · apply List.pairwise_filterMap.2
    apply (nodup_zipIdx cases).imp
    intro x y other a hx b hy same
    obtain ⟨c, i⟩ := x
    obtain ⟨d, j⟩ := y
    dsimp only at hx hy
    split at hx
    case h_2 => cases hx
    split at hy
    case h_2 => cases hy
    obtain ⟨first, ⟨⟩⟩ := Option.ite_none_right_eq_some.1 hx
    obtain ⟨second, ⟨⟩⟩ := Option.ite_none_right_eq_some.1 hy
    have at_i : MatchCase.ctorIdx? cases a = some i :=
      of_decide_eq_true (Bool.and_eq_true_iff.1 first).1
    have at_j : MatchCase.ctorIdx? cases b = some j :=
      of_decide_eq_true (Bool.and_eq_true_iff.1 second).1
    rw [same, at_j] at at_i
    exact other (Option.some.inj at_i).symm
  · exact .nil

/-- Branches are deleted at different ranges: that of the `if` and those of the links. -/
theorem unrepeated_branches {span : Span} {branch : Option Stmt}
    (apart : (span :: elseIfSpans branch).Pairwise fun s t => s.coincides t = false) :
    Unrepeated [.branchExtraction, .branchDeletion]
      (View.atRange span .branchExtraction ["then"] ++
        (if branch.isSome then
          View.atRange span .branchExtraction ["else"] ++ View.atRange span .branchDeletion [""]
        else []) ++
        (elseIfSpans branch).flatMap fun link => View.atRange link .branchDeletion [""]) := by
  have deletions : Unrepeated [.branchDeletion]
      ((span :: elseIfSpans branch).flatMap fun link => View.atRange link .branchDeletion [""]) := by
    constructor
    · apply List.nodup_flatMap.2
      constructor
      · exact fun link _ => List.nodup_singleton _
      · apply apart.imp
        intro s t differ c hs ht
        obtain rfl := List.mem_singleton.1 hs
        have same := congrArg Candidate.location (List.mem_singleton.1 ht)
        exact Bool.false_ne_true (differ.symm.trans (Span.coincides_of_rangeLocation same))
    · intro c hc
      obtain ⟨link, -, hc⟩ := List.mem_flatMap.1 hc
      obtain rfl := List.mem_singleton.1 hc
      exact List.mem_singleton_self _
  cases branch with
  | none => exact (Unrepeated.placed (List.nodup_singleton "then")).weaken (by decide)
  | some branch =>
    have both : Unrepeated [.branchExtraction]
        (View.atRange span .branchExtraction ["then", "else"]) := .placed (by decide)
    exact both.append deletions (by decide)

/-- The deletion of the element is none of the proposals by shape. -/
theorem unrepeated_shapeProposals {s : Stmt}
    (apart : s.chainSpans.Pairwise fun s t => s.coincides t = false)
    (locals : s.declares.Nodup) :
    Unrepeated (Kind.all.filter fun kind => kind ≠ .statementDeletion) s.shapeProposals := by
  obtain ⟨kind, span, ghost⟩ := s
  cases kind with
  | varDecl d =>
    have names : ((d.locals.filter fun v => !v.ghost).map Variable.name).Nodup :=
      (List.filter_sublist.map _).nodup locals
    exact (Unrepeated.placed names).weaken (by decide)
  | ret values => exact (Unrepeated.placed (Option.toList_nodup _)).weaken (by decide)
  | ifElse guard body branch => exact (unrepeated_branches apart).weaken (by decide)
  | whileLoop | forLoop =>
    exact (Unrepeated.placed (List.nodup_singleton "")).weaken (by decide)
  | matchOn source cases => exact (unrepeated_match span cases).weaken (by decide)
  | _ => exact .nil

/-- An element gets no candidate twice. -/
theorem nodup_proposals {s : Stmt}
    (apart : s.chainSpans.Pairwise fun s t => s.coincides t = false)
    (locals : s.declares.Nodup) : s.proposals.Nodup := by
  have deletion : (if s.isVarDecl then [] else [""]).Nodup := by
    split <;> decide
  exact ((Unrepeated.placed deletion).append (unrepeated_shapeProposals apart locals)
    (by decide)).nodup

/-! ### Pairs in a list -/

/-- Partners of one local are told apart by their spans. -/
theorem nodup_exchangesWith {span : Span} {first : Variable × Expr} {between : List String}
    {list : List Stmt} (apart : list.Pairwise fun s t => s.span.coincides t.span = false) :
    (exchangesWith span first between list).Nodup := by
  induction list generalizing between with
  | nil => exact .nil
  | cons s list ih =>
    obtain ⟨others, rest⟩ := List.pairwise_cons.1 apart
    refine List.nodup_append.2 ⟨?_, ih rest, ?_⟩
    · split
      · exact (Unrepeated.placed (View.nodup_argumentIf _ _)).nodup
      · exact .nil
    · rintro c here _ later rfl
      obtain ⟨mid, t, post, second, rfl, -, -, rfl⟩ := exists_of_mem_exchangesWith later
      split at here
      · obtain ⟨a, ha, same⟩ := List.mem_map.1 here
        obtain ⟨-, rfl⟩ := View.mem_argumentIf.1 ha
        have ranges := Location.range_text_inj (congrArg Candidate.argument same)
        have differ := others t (by simp)
        exact Bool.false_ne_true (differ.symm.trans (Span.coincides_of_rangeLocation ranges))
      · cases here

/-- The declarations of an exchange are told apart by their ranges. -/
theorem nodup_exchanges {list : List Stmt}
    (apart : list.Pairwise fun s t => s.span.coincides t.span = false) :
    (exchanges list).Nodup := by
  induction list with
  | nil => exact .nil
  | cons s list ih =>
    obtain ⟨others, rest⟩ := List.pairwise_cons.1 apart
    refine List.nodup_append.2 ⟨?_, ih rest, ?_⟩
    · split
      · exact nodup_exchangesWith rest
      · exact .nil
    · rintro c here _ later rfl
      obtain ⟨t, t', first, second, order, -, -, -, rfl⟩ := mem_exchanges later
      split at here
      · obtain ⟨mid, u, post, second, -, -, -, same⟩ := exists_of_mem_exchangesWith here
        have ranges := congrArg Candidate.location same
        have differ := others t (order.subset List.mem_cons_self)
        exact Bool.false_ne_true
          (differ.symm.trans (Span.coincides_of_rangeLocation ranges.symm))
      · cases here

end Stmt

/-- The methods of an exchange are told apart by the range of the first and the name of the
second. -/
theorem Member.nodup_exchanges {list : List Member}
    (apart : (list.filterMap method?).Pairwise fun a b => a.span.coincides b.span = false)
    (names : ((list.filterMap method?).map (·.name)).Nodup) : (exchanges list).Nodup := by
  induction list with
  | nil => exact .nil
  | cons x list ih =>
    cases method : x.method? with
    | none =>
      have passed : x.exchangeable? = none := by simp [exchangeable?, method]
      rw [List.filterMap_cons_none method] at apart names
      rw [exchanges, passed]
      exact ih apart names
    | some d =>
      rw [List.filterMap_cons_some method] at apart names
      obtain ⟨others, apart⟩ := List.pairwise_cons.1 apart
      have names := (List.nodup_cons.1 names).2
      refine List.nodup_append.2 ⟨?_, ih apart names, ?_⟩
      · split
        · have own : list.filterMap exchangeable? =
              (list.filterMap method?).filter fun d => !d.ghost && d.body.isSome :=
            List.filter_filterMap.symm
          rw [own]
          apply (Unrepeated.placed _).nodup
          exact ((List.filter_sublist.trans List.filter_sublist).map _).nodup names
        · exact .nil
      · rintro c here _ later rfl
        obtain ⟨a, ha, location⟩ := exists_method_of_mem_exchanges later
        split at here
        · rename_i first found
          obtain ⟨_, -, rfl⟩ := List.mem_map.1 here
          obtain ⟨same, -⟩ := exchangeable?_eq_some found
          rw [method] at same
          cases same
          exact Bool.false_ne_true
            ((others a ha).symm.trans (Span.coincides_of_rangeLocation location))
        · cases here

/-! ### The whole scan -/

/-- A place of the executable code gets no candidate twice. -/
theorem Place.nodup_proposals (unambiguous : m.Unambiguous) (names : m.DistinctNames)
    (real : ∀ i ∈ m.places .everything, i.2.isReal = false)
    {i : String × Place} (hi : i ∈ m.places .everything) (fits : v.Fits m o (some i.1)) :
    (i.2.proposals v).Nodup := by
  obtain ⟨owner, p⟩ := i
  cases p with
  | members list =>
    exact Member.nodup_exchanges ((List.pairwise_flatMap.1 unambiguous.methods).1 _ hi)
      (unambiguous.names _ hi)
  | stmts list => exact Stmt.nodup_exchanges (Module.StmtsApart.list unambiguous.stmts hi)
  | element s =>
    apply Stmt.nodup_proposals
    · exact (List.pairwise_flatMap.1 unambiguous.elements).1 _ hi
    · exact names.locals _ hi
  | expr e =>
    apply View.nodup_expr fits names
    obtain ⟨kind, span, ty⟩ := e
    rintro x rfl
    cases real _ hi

/-- What is drawn from places that have no candidate in common, and none twice, has no candidate
twice. -/
theorem Offers.nodup {is : List (String × Place)} {new : List Candidate} (h : Offers m o is new)
    (each : ∀ i ∈ is, ∀ v : View, v.Fits m o (some i.1) → (i.2.proposals v).Nodup)
    (apart : is.Pairwise fun i j => i.2.Disjoint j.2) : new.Nodup := by
  induction h with
  | nil => exact .nil
  | skip _ _ ih => exact ih (List.forall_mem_cons.1 each).2 (List.pairwise_cons.1 apart).2
  | @draw i is new v fits rest ih =>
    obtain ⟨here, later⟩ := List.forall_mem_cons.1 each
    obtain ⟨others, apart⟩ := List.pairwise_cons.1 apart
    refine List.nodup_append.2 ⟨(here v fits).filter _, ih later apart, ?_⟩
    rintro c first _ hc rfl
    obtain ⟨j, hj, w, -, again⟩ := rest.placed c hc
    exact others j hj v w c (List.mem_filter.1 first).1 again

/-- No candidate is proposed twice, whatever the options of the scan, when no two nodes that an
operator could mistake for each other share a range or an anchor, names are unique where they are
declared, and there is no real literal. -/
theorem Module.nodup_scan (unambiguous : m.Unambiguous) (names : m.DistinctNames)
    (real : ∀ i ∈ m.places .everything, i.2.isReal = false)
    (o : ScanOptions) : (m.scan o).Nodup := by
  have inner : (m.places .executable).Sublist (m.places .everything) :=
    m.places_sublist Coverage.executable_le
  apply (m.scan_offers o).nodup
  · intro i hi v fits
    exact Place.nodup_proposals unambiguous names real (inner.subset hi) fits
  · exact unambiguous.places_disjoint.sublist inner

end

/-- A class with two methods and a datatype; in the first method are two declarations and a chain of
branches. -/
def Module.varied : Module :=
  let read (p : Pos) (name : String) : Expr := ⟨.name name, .token p, .int⟩
  let less (p : Pos) : Expr :=
    ⟨.binary .lt (read p "a") (read (p + 2) "b"), ⟨p, p + 2, p + 1⟩, .bool⟩
  let declare (p : Pos) (name : String) (value : Expr) : Stmt :=
    ⟨.varDecl (.withInit [⟨name, .int, .token (p + 1), false⟩] [value]), .range p (p + 4), false⟩
  let branch : Stmt := ⟨.ifElse (some (less 32)) ⟨[], .range 35 36⟩ none, .range 31 37, false⟩
  let method (name : String) (span : Span) (body : Block) : Member :=
    .method { name, params := [⟨"a", .int, .token (span.start + 1), false⟩], span, body }
  ⟨"m", [
    .class
      { name := "C"
        span := .range 0 60
        members := [
          method "f" (.range 1 40) ⟨[declare 11 "b" (read 14 "a"),
            declare 16 "c" ⟨.literal (.int (.ofByte 7)), .token 19, .int⟩,
            ⟨.ifElse (some (less 22)) ⟨[], .range 25 26⟩ (some branch), .range 21 38, false⟩],
            .range 10 39⟩,
          method "g" (.range 41 59) ⟨[⟨.ret [read 52 "a"], .range 51 53, false⟩], .range 50 58⟩] },
    .datatype
      { name := "D"
        ctors := [⟨"K", [], .range 62 63⟩, ⟨"L", [], .range 64 65⟩]
        span := .range 61 70 }]⟩

/-- Its 48 candidates are all different. -/
theorem Module.nodup_scan_varied :
    varied.Unambiguous ∧ varied.DistinctNames ∧
      (∀ i ∈ varied.places .everything, i.2.isReal = false) ∧ (varied.scan {}).Nodup ∧
      (varied.scan {}).length = 48 := by
  have unambiguous : varied.Unambiguous := by decide +kernel
  have names : varied.DistinctNames := by decide +kernel
  have real : ∀ i ∈ varied.places .everything, i.2.isReal = false := by decide +kernel
  have count : (varied.scan {}).length = 48 := by decide +kernel
  exact ⟨unambiguous, names, real, nodup_scan unambiguous names real {}, count⟩

end Mutation
