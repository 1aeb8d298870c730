import Mutation.Proofs.ArgumentText
import Mutation.Proofs.FirstSlot
import Mutation.Proofs.LiteralValues
import Mutation.Proofs.Proposed

/-!
# Expressions that candidates change

An operator accepts what a scan proposed for it. For each shape of expression the argument of a
candidate is read back as an operator, and that operator makes its change at the expression
(`View.expr_reaches`). The two sides ask the same questions in different words, so each shape has
a lemma of its own; what they share, the names that may stand in an argument, comes first.
-/

namespace Mutation

open Text (Clean)

/-- The operator of the candidate makes its change at the expression, in every site that knows
what the view does. -/
structure Candidate.Reaches (c : Candidate) (v : View) (e : Expr) (op : Operator) : Prop where
  made : Operator.make c.kind c.argument? = .ok op
  level : op.level = .expr
  here : c.location.matchesB e.span = true
  single : op.shapes.length ≤ 1 ∨ ∃ a b, c.location = .range a b
  change : ∀ site : Site, site.isTarget e.span = true → site.enclosing = v.enclosingType →
    site.declarations = v.declarations → ∃ e', op.onExpr site e = .done e'

section

variable {v : View} {e : Expr} {kind : Kind} {a : String} {op : Operator}

/-- The anchor of a span matches it. -/
theorem Location.anchor_matchesB (s : Span) : s.anchorLocation.matchesB s = true := by
  simp [Span.anchorLocation, matchesB]

/-- And so does its range. -/
theorem Location.range_matchesB (s : Span) : s.rangeLocation.matchesB s = true := by
  simp [Span.rangeLocation, matchesB]

/-- Proposals at an anchor reach their expression. -/
theorem Candidate.Reaches.anchor (made : Operator.make kind
      (Candidate.argument? ⟨e.span.anchorLocation, kind, a⟩) = .ok op)
    (level : op.level = .expr) (single : op.shapes.length ≤ 1)
    (change : ∀ site : Site, site.isTarget e.span = true → site.enclosing = v.enclosingType →
      site.declarations = v.declarations → ∃ e', op.onExpr site e = .done e') :
    Candidate.Reaches ⟨e.span.anchorLocation, kind, a⟩ v e op :=
  ⟨made, level, Location.anchor_matchesB _, .inl single, change⟩

/-- Proposals at a range reach their expression. -/
theorem Candidate.Reaches.range (made : Operator.make kind
      (Candidate.argument? ⟨e.span.rangeLocation, kind, a⟩) = .ok op)
    (level : op.level = .expr)
    (change : ∀ site : Site, site.isTarget e.span = true → site.enclosing = v.enclosingType →
      site.declarations = v.declarations → ∃ e', op.onExpr site e = .done e') :
    Candidate.Reaches ⟨e.span.rangeLocation, kind, a⟩ v e op :=
  ⟨made, level, Location.range_matchesB _, .inr ⟨_, _, rfl⟩, change⟩

/-- The name of a binary operator is read back. -/
theorem BinaryOp.read?_name (op : BinaryOp) :
    BinaryOp.read? op.name = some op ∧ Text.isBlankText op.name = false := by
  cases op <;> decide +kernel

/-- The name of a unary operator is read back. -/
theorem UnaryOp.read?_name (op : UnaryOp) :
    UnaryOp.read? op.name = some op ∧ Text.isBlankText op.name = false := by
  cases op <;> decide +kernel

variable {c : Candidate}

/-- A proposal under a condition is there when the condition holds. -/
theorem View.mem_argumentIf {condition : Bool} {a b : String} :
    b ∈ View.argumentIf condition a ↔ condition = true ∧ b = a := by
  cases condition <;> simp [View.argumentIf]

/-- What is proposed for a binary expression is answered there: an operator, an operand or a truth
value. -/
theorem View.binary_reaches {sign : BinaryOp} {l r : Expr} (he : e.kind = .binary sign l r)
    (hc : c ∈ View.binary e sign l r) : ∃ op, c.Reaches v e op := by
  simp only [View.binary, View.atAnchor, List.mem_append, List.mem_map, View.mem_argumentIf] at hc
  rcases hc with (⟨_, ⟨new, mem, rfl⟩, rfl⟩ | ⟨a, mem, rfl⟩) | ⟨a, mem, rfl⟩
  · obtain ⟨read, solid⟩ := BinaryOp.read?_name new
    refine ⟨.setOperator new, .anchor (Operator.make_argument rfl solid ?_) rfl (Nat.le_refl _) ?_⟩
    · simp [Operator.ofArgument, read, Operator.orElse]
    · intro site target _ _
      simp [Operator.onExpr, target, Expr.setOperator, he, mem]
  · by_cases bool : e.ty = .bool
    · rw [if_pos bool] at mem
      have word : ∃ value, Operator.ofArgument .binaryToBool a = .ok (.setBool value) ∧
          Text.isBlankText a = false := by
        simp only [List.mem_cons, List.not_mem_nil, or_false] at mem
        rcases mem with rfl | rfl
        · exact ⟨true, rfl, by decide +kernel⟩
        · exact ⟨false, rfl, by decide +kernel⟩
      obtain ⟨value, read, solid⟩ := word
      refine ⟨.setBool value, .anchor (Operator.make_argument rfl solid read) rfl (Nat.le_refl _) ?_⟩
      intro site target _ _
      simp [Operator.onExpr, target, Expr.setBool, he, bool]
    · simp [bool] at mem
  · rcases mem with ⟨fits, rfl⟩ | ⟨fits, rfl⟩
    · refine ⟨.keepOperand .left, .anchor (Operator.make_argument rfl (by decide +kernel)
        (by rfl)) rfl (Nat.le_refl _) ?_⟩
      intro site target _ _
      simp [Operator.onExpr, target, Expr.keepOperand, he, fits]
    · refine ⟨.keepOperand .right, .anchor (Operator.make_argument rfl (by decide +kernel)
        (by rfl)) rfl (Nat.le_refl _) ?_⟩
      intro site target _ _
      simp [Operator.onExpr, target, Expr.keepOperand, he, fits]

/-- The visible bindings are bindings of the scope. -/
theorem Scope.mem_firsts {b : Binding} {bs : List Binding} (h : b ∈ Scope.firsts bs) : b ∈ bs := by
  induction bs with
  | nil => cases h
  | cons first bs ih =>
    rcases List.mem_cons.1 h with rfl | h
    · exact List.mem_cons_self
    · exact List.mem_cons_of_mem _ (ih (List.mem_filter.1 h).1)

variable {m : Module} {o : ScanOptions} {owner : String}

/-- A clean name is read back as it is. -/
theorem Text.Clean.make {location : Location} {f : String → Operator} (h : Clean a)
    (takes : kind.takesArgument = true)
    (read : Operator.ofArgument kind a = .ok (f (Text.trim a))) :
    Operator.make kind (Candidate.argument? ⟨location, kind, a⟩) = .ok (f a) := by
  rw [h.trimmed] at read
  exact Operator.make_argument takes h.solid read

/-- A name in scope stands in the module, so it can be written in a record. -/
theorem View.Fits.clean_of_lookup (fits : v.Fits m o (some owner)) (legible : m.Legible)
    {n : String} {b : Binding} (found : v.scope.lookup n = some b) : Clean n := by
  have mem := List.mem_of_find?_eq_some found
  have same : (b.name == n) = true := List.find?_some (p := fun b : Binding => b.name == n) found
  exact beq_iff_eq.1 same ▸ fits.scope legible b mem

/-- What is proposed for a name is answered there: a negation, another name, or the field that it
hides. -/
theorem View.name_reaches (fits : v.Fits m o (some owner)) (legible : m.Legible) {n : String}
    (he : e.kind = .name n) (hc : c ∈ v.name e n) : ∃ op, c.Reaches v e op := by
  simp only [View.name, View.atAnchor, List.mem_append, List.mem_map, View.mem_argumentIf,
    Option.mem_toList] at hc
  rcases hc with (⟨_, ⟨sign, given, rfl⟩, rfl⟩ | ⟨a, mem, rfl⟩) | ⟨_, ⟨hides, same⟩, rfl⟩
  · obtain ⟨read, solid⟩ := UnaryOp.read?_name sign
    refine ⟨.insertNegation sign, .anchor (Operator.make_argument rfl solid ?_) rfl
      (Nat.le_refl _) ?_⟩
    · simp [Operator.ofArgument, read, Operator.orElse]
    · intro site target _ _
      simp [Operator.onExpr, target, Expr.insertNegation, he, given]
  · obtain ⟨b, other, rfl⟩ := List.mem_map.1 mem
    obtain ⟨visible, other⟩ := List.mem_filter.1 other
    have differ : b.name ≠ n := by simp_all
    have clean : Clean b.name := fits.scope legible b (Scope.mem_firsts visible)
    refine ⟨.setVariable b.name, .anchor (clean.make rfl rfl) rfl (Nat.le_refl _) ?_⟩
    intro site target _ _
    simp [Operator.onExpr, target, Expr.setVariable, he, Ne.symm differ]
  · subst same
    simp only [View.hidesField, Bool.and_eq_true] at hides
    obtain ⟨b, found⟩ := Option.isSome_iff_exists.1 hides.1.2
    have clean := fits.clean_of_lookup legible found
    refine ⟨.insertThis _, .anchor (clean.make rfl rfl) rfl (Nat.le_refl _) ?_⟩
    intro site target enclosing _
    simp [Operator.onExpr, target, Expr.insertThis, he, enclosing, fits.enclosing]

/-- What is proposed for a negation is answered there. -/
theorem View.unary_reaches {sign : UnaryOp} {x : Expr} (he : e.kind = .unary sign x)
    (hc : c ∈ View.atAnchor e .negationDeletion (View.argumentIf (x.ty.fits e.ty) "")) :
    ∃ op, c.Reaches v e op := by
  simp only [View.atAnchor, List.mem_map, View.mem_argumentIf] at hc
  obtain ⟨_, ⟨fits, rfl⟩, rfl⟩ := hc
  refine ⟨.deleteNegation, .anchor (Operator.make_plain rfl rfl _) rfl (Nat.le_refl _) ?_⟩
  intro site target _ _
  simp [Operator.onExpr, target, Expr.deleteNegation, he, fits]

/-- A member found by owner is a member of a declaration of the module. -/
theorem Declarations.mem_membersOf {x : Member} (h : x ∈ m.declarations.membersOf owner) :
    ∃ d ∈ m.decls, x ∈ d.members := by
  simp only [membersOf, Module.declarations, List.mem_append, List.mem_flatMap, List.mem_filter,
    Module.classes, Module.datatypes, List.mem_filterMap] at h
  rcases h with ⟨c, ⟨⟨d, hd, eq⟩, -⟩, hx⟩ | ⟨t, ⟨⟨d, hd, eq⟩, -⟩, hx⟩
  · cases d <;> cases eq
    exact ⟨_, hd, hx⟩
  · cases d <;> cases eq
    exact ⟨_, hd, hx⟩

/-- A sibling field is another field that some declaration has. -/
theorem Declarations.exists_field {field n : String}
    (hn : n ∈ m.declarations.siblingFields owner field) :
    n ≠ field ∧ ∃ d ∈ m.decls, ∃ x ∈ d.members, x.name = n := by
  unfold siblingFields at hn
  split at hn
  · cases hn
  · obtain ⟨f, hf, rfl⟩ := List.mem_map.1 hn
    obtain ⟨mem, other⟩ := List.mem_filter.1 hf
    obtain ⟨x, hx, found⟩ := List.mem_filterMap.1 (List.mem_filter.1 mem).1
    obtain ⟨d, hd, hx⟩ := mem_membersOf hx
    cases x <;> cases found
    exact ⟨by simp_all, d, hd, _, hx, rfl⟩

/-- A compatible callee is another method or function that some declaration has. -/
theorem Declarations.exists_callable {name n : String}
    (hn : n ∈ m.declarations.compatibleCallables owner name) :
    n ≠ name ∧ ∃ d ∈ m.decls, ∃ x ∈ d.members, x.name = n := by
  unfold compatibleCallables at hn
  split at hn
  · cases hn
  · obtain ⟨f, hf, rfl⟩ := List.mem_map.1 hn
    obtain ⟨mem, other⟩ := List.mem_filter.1 hf
    obtain ⟨x, hx, found⟩ := List.mem_filterMap.1 mem
    obtain ⟨d, hd, hx⟩ := mem_membersOf hx
    refine ⟨by simp_all, d, hd, x, hx, ?_⟩
    cases x <;> cases found <;> rfl

/-- A sibling constructor is another constructor that some datatype has. -/
theorem Declarations.exists_ctor {datatype ctor n : String}
    (hn : n ∈ m.declarations.siblingCtors datatype ctor) :
    n ≠ ctor ∧ ∃ d ∈ m.datatypes, ∃ c ∈ d.ctors, c.name = n := by
  unfold siblingCtors at hn
  split at hn
  · cases hn
  · obtain ⟨f, hf, rfl⟩ := List.mem_map.1 hn
    obtain ⟨mem, other⟩ := List.mem_filter.1 hf
    unfold ctorsOf at mem
    split at mem
    · rename_i t last
      exact ⟨by simp_all, t, (List.mem_filter.1 (List.mem_of_getLast? last)).1, f, mem, rfl⟩
    · cases mem

/-- The name of a member can be written in a record. -/
theorem Module.Legible.member {n : String} (h : m.Legible)
    (hn : ∃ d ∈ m.decls, ∃ x ∈ d.members, x.name = n) : Clean n := by
  obtain ⟨d, hd, x, hx, rfl⟩ := hn
  exact (h.members d hd x hx).name

/-- And so can the name of a constructor. -/
theorem Module.Legible.ctor {n : String} (h : m.Legible)
    (hn : ∃ d ∈ m.datatypes, ∃ c ∈ d.ctors, c.name = n) : Clean n := by
  obtain ⟨d, hd, c, hc, rfl⟩ := hn
  exact h.ctors d hd c hc

/-- The literals proposed for a literal are read back and answered. -/
theorem View.literal_reaches {l : Literal} (he : e.kind = .literal l) (filled : v.sentinel ≠ "")
    (real : ∀ x, l ≠ .real x)
    (hc : c ∈ View.atAnchor e .literalReplacement
      ((l.replacements e.ty v.sentinel).map Literal.text)) : ∃ op, c.Reaches v e op := by
  simp only [View.atAnchor, List.mem_map] at hc
  obtain ⟨_, ⟨r, mem, rfl⟩, rfl⟩ := hc
  have variant := (Literal.mem_replacements_iff real).1 mem
  refine ⟨.setLiteral r.text, .anchor (Operator.make_argument rfl
    (Literal.isBlankText_text variant.not_real) rfl) rfl (Nat.le_refl _) ?_⟩
  intro site target _ _
  exact ⟨_, by rw [Operator.onExpr, if_pos target]; exact variant.setLiteral filled he⟩

/-- What is proposed for a field is answered there: a sibling, or the bare name. -/
theorem View.member_reaches (fits : v.Fits m o (some owner)) (legible : m.Legible) {r : Expr}
    {field : String} (he : e.kind = .member r field) (hc : c ∈ v.member e r field) :
    ∃ op, c.Reaches v e op := by
  simp only [View.member, View.atAnchor, List.mem_append, List.mem_map, View.mem_argumentIf,
    Bool.and_eq_true] at hc
  rcases hc with ⟨_, ⟨⟨this, hidden⟩, same⟩, rfl⟩ | ⟨n, mem, rfl⟩
  · subst same
    obtain ⟨b, found, -⟩ := (Option.any_eq_true _ _).1 hidden
    have clean := fits.clean_of_lookup legible found
    refine ⟨.deleteThis _, .anchor (clean.make rfl rfl) rfl (Nat.le_refl _) ?_⟩
    intro site target _ _
    simp [Operator.onExpr, target, Expr.deleteThis, he, this]
  · cases declared : r.ty.declared? with
    | none => simp [declared] at mem
    | some d =>
      simp only [declared, fits.declarations] at mem
      obtain ⟨other, named⟩ := Declarations.exists_field mem
      have clean := legible.member named
      refine ⟨.setField n, .anchor (clean.make rfl rfl) rfl (Nat.le_refl _) ?_⟩
      intro site target _ known
      simp [Operator.onExpr, target, Expr.setField, he, declared, Ne.symm other, known,
        fits.declarations, mem]

/-- The constructors proposed for one are answered there. -/
theorem View.ctor_reaches (fits : v.Fits m o (some owner)) (legible : m.Legible)
    {datatype ctor : String} {args : List Expr} (he : e.kind = .ctor datatype ctor args)
    (hc : c ∈ View.atAnchor e .ctorReplacement (v.declarations.siblingCtors datatype ctor)) :
    ∃ op, c.Reaches v e op := by
  rw [View.atAnchor, fits.declarations] at hc
  obtain ⟨n, mem, rfl⟩ := List.mem_map.1 hc
  obtain ⟨other, named⟩ := Declarations.exists_ctor mem
  have clean := legible.ctor named
  refine ⟨.setCtor n, .anchor (clean.make rfl rfl) rfl (Nat.le_refl _) ?_⟩
  intro site target _ known
  simp [Operator.onExpr, target, Expr.setCtor, he, Ne.symm other, known, fits.declarations, mem]

/-- The default value proposed for a read is answered there. -/
theorem View.default_reaches (hc : c ∈ v.default e) : ∃ op, c.Reaches v e op := by
  unfold View.default at hc
  split at hc
  · rename_i read
    simp only [View.atRange, List.mem_map, Option.mem_toList] at hc
    obtain ⟨_, ⟨l, default, rfl⟩, rfl⟩ := hc
    have sayable := Literal.sayable_default default
    refine ⟨.setDefault l.text, .range (Operator.make_argument rfl sayable.solid rfl) rfl ?_⟩
    intro site target _ _
    simp [Operator.onExpr, target, Expr.setDefault, (Bool.and_eq_true_iff.1 read).1, default,
      sayable.read]
  · cases hc

/-- The name of an initializer form is read back. -/
theorem InitForm.read?_name (form : InitForm) :
    Operator.ofArgument .initReplacement form.name = .ok (.setInit form) ∧
      Text.isBlankText form.name = false := by
  cases form <;> exact ⟨rfl, by decide +kernel⟩

/-- An expression can be put into the form that is proposed for it. -/
theorem Expr.setInit_initForm {form : InitForm} (h : View.initForm? e = some form) :
    ∃ e', e.setInit form = .done e' := by
  unfold View.initForm? at h
  split at h
  · rename_i he
    cases h
    simp [setInit, he]
  · rename_i he
    obtain ⟨samples, found, rfl⟩ := Option.map_eq_some_iff.1 h
    obtain ⟨t, element, found⟩ := Option.bind_eq_some_iff.1 found
    simp [setInit, he, element, sampleExprs?, found]
  · rename_i he
    split at h
    · rename_i one
      cases h
      simp [setInit, he, one]
    · cases h
  · rename_i he
    obtain ⟨samples, found, rfl⟩ := Option.map_eq_some_iff.1 h
    simp [setInit, he, sampleExprs?, found]
  · cases h

/-- The initializer form proposed for a display or an array is answered there. -/
theorem View.init_reaches (hc : c ∈ View.atRange e.span .initReplacement
    ((View.initForm? e).toList.map InitForm.name)) : ∃ op, c.Reaches v e op := by
  simp only [View.atRange, List.mem_map, Option.mem_toList] at hc
  obtain ⟨_, ⟨form, given, rfl⟩, rfl⟩ := hc
  obtain ⟨read, solid⟩ := InitForm.read?_name form
  refine ⟨.setInit form, .range (Operator.make_argument rfl solid read) rfl ?_⟩
  intro site target _ _
  obtain ⟨e', done⟩ := Expr.setInit_initForm given
  exact ⟨e', by simp only [Operator.onExpr, target, if_true, done]⟩

/-- The lists that an argument may index are no longer than there are indices. -/
structure Expr.Sized (e : Expr) : Prop where
  args : ∀ r method args, e.kind = .call r method args → args.length ≤ UInt64.size
  items : ∀ t i items, e.kind = .tupleIndex t i → t.ty = .tuple items →
    items.length ≤ UInt64.size

/-- Another component is one of the same type at another index. -/
theorem View.mem_otherComponents {items : List Ty} {i : Nat}
    (h : a ∈ View.otherComponents items i) : ∃ (j : Nat) (t : Ty), items[i]? = some t ∧
      items[j]? = some t ∧ j ≠ i ∧ a = Text.natText j := by
  unfold View.otherComponents at h
  split at h
  · cases h
  · rename_i current here
    obtain ⟨⟨t, j⟩, mem, rfl⟩ := List.mem_map.1 h
    obtain ⟨found, other⟩ := List.mem_filter.1 mem
    simp only [Bool.and_eq_true, decide_eq_true_eq] at other
    obtain ⟨other, rfl⟩ := other
    exact ⟨j, t, here, List.mem_zipIdx_iff_getElem?.1 found, other, rfl⟩

/-- An index that fits 64 bits is read back from its digits. -/
theorem Operator.read_index {n : Nat} (h : n < UInt64.size) :
    readIndex? (Text.natText n).toList = some (UInt64.ofNat n) ∧
      (UInt64.ofNat n).toNat = n ∧ Text.isBlankText (Text.natText n) = false := by
  refine ⟨readIndex?_natText h, UInt64.toNat_ofNat_of_lt' h, ?_⟩
  obtain ⟨c, hc⟩ := List.exists_mem_of_ne_nil _ (Text.natChars_ne_nil n)
  exact Text.isBlankText_eq_false (by rwa [Text.natText, String.toList_ofList])
    (Text.isBlank_of_isDigit (Text.isDigit_of_mem_natChars hc))

/-- The components proposed for one are answered there. -/
theorem View.tupleIndex_reaches (sized : e.Sized) {t : Expr} {i : UInt64}
    (he : e.kind = .tupleIndex t i) (hc : c ∈ View.atAnchor e .componentReplacement
      (match t.ty with
        | .tuple items => View.otherComponents items i.toNat
        | _ => [])) : ∃ op, c.Reaches v e op := by
  obtain ⟨a, mem, rfl⟩ := List.mem_map.1 hc
  split at mem
  · rename_i items tuple
    obtain ⟨j, u, here, there, other, rfl⟩ := View.mem_otherComponents mem
    have inside : j < UInt64.size :=
      Nat.lt_of_lt_of_le (List.getElem?_eq_some_iff.1 there).1 (sized.items t i items he tuple)
    obtain ⟨read, value, solid⟩ := Operator.read_index inside
    refine ⟨.setComponent (UInt64.ofNat j), .anchor (Operator.make_argument rfl solid ?_) rfl
      (Nat.le_refl _) ?_⟩
    · simp [Operator.ofArgument, read, Operator.orElse]
    · intro site target _ _
      have differ : i ≠ UInt64.ofNat j := by
        rintro rfl
        exact other value.symm
      simp [Operator.onExpr, target, Expr.setComponent, he, tuple, here, value, there, differ]
  · cases mem

/-- A pair of arguments is two of one type, the first before the second. -/
theorem View.mem_equalPairs {args : List Expr} (h : a ∈ View.equalPairs args) :
    ∃ (i j : Nat) (x y : Expr), args[i]? = some x ∧ args[j]? = some y ∧ i < j ∧ x.ty = y.ty ∧
      a = Text.natText i ++ ";" ++ Text.natText j := by
  obtain ⟨⟨x, i⟩, hx, h⟩ := List.mem_flatMap.1 h
  obtain ⟨⟨y, j⟩, mem, rfl⟩ := List.mem_map.1 h
  obtain ⟨hy, order⟩ := List.mem_filter.1 mem
  simp only [Bool.and_eq_true, decide_eq_true_eq] at order
  exact ⟨i, j, x, y, List.mem_zipIdx_iff_getElem?.1 hx, List.mem_zipIdx_iff_getElem?.1 hy,
    order.1, order.2, rfl⟩

/-- The methods proposed for a callee are answered there. -/
theorem View.callee_reaches (fits : v.Fits m o (some owner)) (legible : m.Legible)
    {r : Option Expr} {method : String} {args : List Expr} (he : e.kind = .call r method args)
    (ha : a ∈ match Expr.calleeOwner? v.enclosingType r with
      | some owner => v.declarations.compatibleCallables owner method
      | none => []) :
    ∃ op, Candidate.Reaches ⟨e.span.rangeLocation, .calleeReplacement, a⟩ v e op := by
  cases callee : Expr.calleeOwner? v.enclosingType r with
  | none => simp [callee] at ha
  | some d =>
    simp only [callee, fits.declarations] at ha
    obtain ⟨other, named⟩ := Declarations.exists_callable ha
    have clean := legible.member named
    refine ⟨.setCallee a, .range (clean.make rfl rfl) rfl ?_⟩
    intro site target enclosing known
    simp [Operator.onExpr, target, Expr.setCallee, he, Ne.symm other, enclosing, callee, known,
      fits.declarations, ha]

/-- What is proposed for a call is answered there: an argument, the receiver, another callee or a
pair exchanged. -/
theorem View.call_reaches (fits : v.Fits m o (some owner)) (legible : m.Legible) (sized : e.Sized)
    {r : Option Expr} {method : String} {args : List Expr} (he : e.kind = .call r method args)
    (hc : c ∈ v.call e r method args) : ∃ op, c.Reaches v e op := by
  have bound (i : Nat) (x : Expr) (h : args[i]? = some x) : i < UInt64.size :=
    Nat.lt_of_lt_of_le (List.getElem?_eq_some_iff.1 h).1 (sized.args r method args he)
  simp only [View.call, View.atRange, List.mem_append, List.mem_map] at hc
  rcases hc with ((⟨a, mem, rfl⟩ | ⟨a, mem, rfl⟩) | ⟨a, mem, rfl⟩) | ⟨a, mem, rfl⟩
  · split at mem
    · obtain ⟨⟨x, i⟩, given, rfl⟩ := List.mem_map.1 mem
      obtain ⟨found, suits⟩ := List.mem_filter.1 given
      have here := List.mem_zipIdx_iff_getElem?.1 found
      obtain ⟨read, value, solid⟩ := Operator.read_index (bound i x here)
      refine ⟨.keepArgument i, .range (Operator.make_argument rfl solid ?_) rfl ?_⟩
      · simp only [Operator.ofArgument, read, Operator.orElse, value]
      · intro site target _ _
        simp [Operator.onExpr, target, Expr.keepArgument, he, here, suits]
    · cases mem
  · obtain ⟨given, rfl⟩ := View.mem_argumentIf.1 mem
    obtain ⟨x, rfl, suits⟩ := (Option.any_eq_true _ _).1 (Bool.and_eq_true_iff.1 given).2
    refine ⟨.keepReceiver, .range (Operator.make_plain rfl rfl _) rfl ?_⟩
    intro site target _ _
    simp [Operator.onExpr, target, Expr.keepReceiver, he, suits]
  · exact View.callee_reaches fits legible he mem
  · obtain ⟨i, j, x, y, hi, hj, order, alike, rfl⟩ := View.mem_equalPairs mem
    have read := Operator.readPair_natText (Nat.ne_of_lt order) (bound i x hi) (bound j y hj)
    have solid : Text.isBlankText (Text.natText i ++ ";" ++ Text.natText j) = false :=
      Text.isBlankText_eq_false (c := ';') (by simp) rfl
    refine ⟨.swapArguments i j, .range (Operator.make_argument rfl solid ?_) rfl ?_⟩
    · simp [Operator.ofArgument, read, Except.map]
    · intro site target _ _
      simp [Operator.onExpr, target, Expr.swapArguments, he, hi, hj, alike]

/-- A proposal at a range carries that range. -/
theorem View.mem_atRange {span : Span} {as : List String} (hc : c ∈ View.atRange span kind as) :
    c.location.matchesB span = true ∧ c.kind = kind := by
  obtain ⟨_, -, rfl⟩ := List.mem_map.1 hc
  exact ⟨Location.range_matchesB _, rfl⟩

/-- What is proposed for an element of a list changes the element or deletes a local of it. It is
at the range of the element or of an `else if` link of its chain. -/
theorem Stmt.addressed {s : Stmt} (hc : c ∈ s.proposals) :
    (c.kind.level = .element ∨ c.kind = .variableDeletion) ∧
      ∃ span ∈ s.chainSpans, c.location = span.rangeLocation := by
  have range {kind : Kind} {span : Span} {as : List String}
      (sort : kind.level = .element ∨ kind = .variableDeletion) (own : span ∈ s.chainSpans)
      (hc : c ∈ View.atRange span kind as) :
      (c.kind.level = .element ∨ c.kind = .variableDeletion) ∧
        ∃ span ∈ s.chainSpans, c.location = span.rangeLocation := by
    obtain ⟨_, -, rfl⟩ := List.mem_map.1 hc
    exact ⟨sort, span, own, rfl⟩
  have here : s.span ∈ s.chainSpans := List.mem_cons_self
  rcases List.mem_append.1 hc with hc | hc
  · exact range (.inl rfl) here hc
  · unfold Stmt.shapeProposals at hc
    split at hc
    · exact range (.inr rfl) here hc
    · exact range (.inl rfl) here hc
    · rename_i he
      simp only [List.mem_append, List.mem_flatMap] at hc
      rcases hc with (hc | hc) | ⟨link, mem, hc⟩
      · exact range (.inl rfl) here hc
      · split at hc
        · rcases List.mem_append.1 hc with hc | hc <;> exact range (.inl rfl) here hc
        · cases hc
      · refine range (.inl rfl) (List.mem_cons_of_mem _ ?_) hc
        rwa [Stmt.elseBranch?, he]
    · exact range (.inl rfl) here hc
    · exact range (.inl rfl) here hc
    · rcases List.mem_append.1 hc with hc | hc <;> exact range (.inl rfl) here hc
    · cases hc

/-- An expression that reads a value has one of the shapes that do. -/
theorem Expr.reads_of_isValueRead (read : e.isValueRead = true) : e.kind.shape ∈ Shape.reads := by
  obtain ⟨kind, span, ty⟩ := e
  cases kind <;> first
    | exact absurd read Bool.false_ne_true
    | simp [ExprKind.shape, Shape.reads]

/-- What is proposed for an expression changes its shape, and is at its anchor or at its range. -/
theorem View.addressed (hc : c ∈ v.expr e) :
    e.kind.shape ∈ c.kind.shapes ∧ c.location = c.kind.locate e.span := by
  have anchor {kind : Kind} {as : List String} (form : kind.atAnchor = true)
      (shape : e.kind.shape ∈ kind.shapes) (hc : c ∈ View.atAnchor e kind as) :
      e.kind.shape ∈ c.kind.shapes ∧ c.location = c.kind.locate e.span := by
    obtain ⟨_, -, rfl⟩ := List.mem_map.1 hc
    exact ⟨shape, (if_pos form).symm⟩
  have range {kind : Kind} {as : List String} (form : ¬kind.atAnchor = true)
      (shape : e.kind.shape ∈ kind.shapes) (hc : c ∈ View.atRange e.span kind as) :
      e.kind.shape ∈ c.kind.shapes ∧ c.location = c.kind.locate e.span := by
    obtain ⟨_, -, rfl⟩ := List.mem_map.1 hc
    exact ⟨shape, (if_neg form).symm⟩
  rcases List.mem_append.1 hc with hc | hc
  · unfold View.shape at hc
    split at hc
    case h_11 => cases hc
    all_goals rename_i he
    case h_1 | h_4 | h_6 | h_10 => exact anchor rfl (by simp [he, ExprKind.shape, Kind.shapes]) hc
    case h_8 | h_9 =>
      exact range (by decide) (by simp [he, ExprKind.shape, Kind.shapes, Shape.initializers]) hc
    case h_2 | h_3 =>
      simp only [View.name, View.binary, List.mem_append] at hc
      rcases hc with (hc | hc) | hc <;> exact anchor rfl (by simp [he, ExprKind.shape, Kind.shapes]) hc
    case h_5 =>
      simp only [View.member, List.mem_append] at hc
      rcases hc with hc | hc <;> exact anchor rfl (by simp [he, ExprKind.shape, Kind.shapes]) hc
    case h_7 =>
      simp only [View.call, List.mem_append] at hc
      rcases hc with ((hc | hc) | hc) | hc <;>
        exact range (by decide) (by simp [he, ExprKind.shape, Kind.shapes]) hc
  · unfold View.default at hc
    split at hc
    · rename_i read
      have shape : e.kind.shape ∈ Kind.defaultValue.shapes :=
        Expr.reads_of_isValueRead (Bool.and_eq_true_iff.1 read).1
      exact range (by decide) shape hc
    · cases hc

/-- What is proposed for an expression addresses it, and an operator on expressions. -/
theorem View.mem_expr (hc : c ∈ v.expr e) :
    c.location.matchesB e.span = true ∧ c.kind.level = .expr := by
  obtain ⟨shape, location⟩ := View.addressed hc
  rw [location]
  exact ⟨Kind.locate_matchesB _, Kind.level_of_shapes shape⟩

/-- Every proposal for an expression reaches it, except new values of a real literal. -/
theorem View.expr_reaches (fits : v.Fits m o (some owner)) (legible : m.Legible) (sized : e.Sized)
    (filled : o.sentinel ≠ "")
    (real : c.kind = .literalReplacement → ∀ x, e.kind ≠ .literal (.real x))
    (hc : c ∈ v.expr e) : ∃ op, c.Reaches v e op := by
  rcases List.mem_append.1 hc with hc | hc
  · unfold View.shape at hc
    split at hc
    · rename_i l he
      have literal : c.kind = .literalReplacement := by
        obtain ⟨_, -, rfl⟩ := List.mem_map.1 hc
        rfl
      exact View.literal_reaches he (fits.sentinel ▸ filled)
        (fun x hx => real literal x (hx ▸ he)) hc
    · rename_i he
      exact View.name_reaches fits legible he hc
    · rename_i he
      exact View.binary_reaches he hc
    · rename_i he
      exact View.unary_reaches he hc
    · rename_i he
      exact View.member_reaches fits legible he hc
    · rename_i he
      exact View.tupleIndex_reaches sized he hc
    · rename_i he
      exact View.call_reaches fits legible sized he hc
    · exact View.init_reaches hc
    · exact View.init_reaches hc
    · rename_i he
      exact View.ctor_reaches fits legible he hc
    · cases hc
  · exact View.default_reaches hc

end

end Mutation
