import Mutation.Proofs.CheckedPurge
import Mutation.Proofs.CheckedWalk
import Mutation.Proofs.Settling

/-!
# Operators by position

Operators read and write arguments, cases, statements and members by position, take two elements
of a list apart to change both, and make spans whose anchors are asserted to lie in them. The
operators that do are here as they do it; the others have no step that could break off. Every
position was looked up before it is used, so none of them breaks off, and a search that asks them
does not either (`Search.tryRevision_computes`).
-/

namespace Mutation

namespace Expr

/-- The field of the receiver in place of a local that hides it. -/
def tryInsertThis (enclosing : Option String) (field : String) (e : Expr) :
    Checked (Outcome Expr Expr) :=
  match e.kind with
  | .name n =>
    if n ≠ field then .ok (.refused .otherName e)
    else
      match enclosing with
      | none => .ok (.refused .noClass e)
      | some c => do
        let receiver : Expr :=
          ⟨.this, ← Checked.span e.span.start e.span.start e.span.start, .class c⟩
        return .done { e with kind := .member receiver field }
  | _ => .ok (.pass e)

/-- Two arguments of the same type exchanged. -/
def trySwapArguments (i j : Nat) (e : Expr) : Checked (Outcome Expr Expr) :=
  match e.kind with
  | .call r method args =>
    match args[i]?, args[j]? with
    | some a, some b =>
      if a.ty = b.ty then do
        return .done { e with kind := .call r method (← Checked.swap args i j) }
      else .ok (.refused .unequalArguments e)
    | _, _ => .ok (.refused .unequalArguments e)
  | _ => .ok (.pass e)

/-- The receiver of a new field read gets a span with its anchor inside. -/
theorem tryInsertThis_eq (enclosing : Option String) (field : String) (e : Expr) :
    e.tryInsertThis enclosing field = .ok (e.insertThis enclosing field) := by
  obtain ⟨kind, span, ty⟩ := e
  cases kind with
  | name n =>
    simp only [tryInsertThis, insertThis, Checked.span_token]
    split
    · rfl
    · cases enclosing <;> rfl
  | _ => rfl

/-- The two arguments are in range when they are borrowed. -/
theorem trySwapArguments_eq (i j : Nat) (e : Expr) :
    e.trySwapArguments i j = .ok (e.swapArguments i j) := by
  obtain ⟨kind, span, ty⟩ := e
  cases kind with
  | call r method args =>
    cases hi : args[i]? with
    | none => simp [trySwapArguments, swapArguments, hi]
    | some a =>
      cases hj : args[j]? with
      | none => simp [trySwapArguments, swapArguments, hi, hj]
      | some b =>
        simp only [trySwapArguments, swapArguments, hi, hj, swapAt, Checked.swap_of_getElem? hi hj]
        split <;> rfl
  | _ => rfl

end Expr

namespace Stmt

/-- The block with a `break` before its statements. -/
def tryBreaking (b : Block) : Checked Block := do
  let span ← Checked.span b.span.start b.span.start b.span.start
  return { b with stmts := ← Checked.insert b.stmts 0 ⟨.breakLoop, span, false⟩ }

/-- A `break` at the start of a loop body. -/
def tryInsertBreak (s : Stmt) : Checked (Outcome Stmt Change) :=
  match s.kind with
  | .whileLoop guard invariants decreases body => do
    let body ← tryBreaking body
    return .done (.amend { s with kind := .whileLoop guard invariants decreases body })
  | .forLoop index start stop ascending invariants body => do
    let body ← tryBreaking body
    return .done (.amend { s with kind := .forLoop index start stop ascending invariants body })
  | _ => .ok (.pass s)

/-- The body of the default case in every other case, and that of the named case in the default
case. -/
def tryExchangeDefault (ctor : String) (s : Stmt) : Checked (Outcome Stmt Change) :=
  match s.kind with
  | .matchOn source cases =>
    match MatchCase.ctorIdx? cases ctor, MatchCase.defaultIdx? cases with
    | some i, some d => do
      let named ← Checked.get cases i
      let default ← Checked.get cases d
      if named.readsNoBinding && default.readsNoBinding then
        let exchanged := cases.mapIdx fun k c =>
          { c with body := if k = d then named.body else default.body }
        return .done (.amend { s with kind := .matchOn source exchanged })
      else return .refused .movedBodyReads s
    | _, _ => .ok (.refused .noSuchCase s)
  | _ => .ok (.pass s)

/-- The body of a case in place of the `match`. -/
def tryKeepCase (index : Nat) (s : Stmt) : Checked (Outcome Stmt Change) :=
  match s.kind with
  | .matchOn _ cases =>
    if cases.length ≤ index then .ok (.refused .caseOutOfRange s)
    else do
      if (← Checked.get cases index).readsNoBinding then
        let (c, _) ← Checked.swapRemove cases index
        return .done ((Block.mk c.body c.span).inPlace s.span)
      else return .refused .caseBodyReads s
  | _ => .ok (.pass s)

/-- A `break` gets the span of a token, and is put in front of the body. -/
theorem tryBreaking_eq (b : Block) : tryBreaking b = .ok (breaking b) := by
  rw [tryBreaking, Checked.span_token, Checked.ok_bind, Checked.insert_zero]
  rfl

/-- So a loop takes one without breaking off. -/
theorem tryInsertBreak_eq (s : Stmt) : s.tryInsertBreak = .ok s.insertBreak := by
  obtain ⟨kind, span, ghost⟩ := s
  cases kind with
  | whileLoop guard invariants decreases body
  | forLoop index start stop ascending invariants body =>
    simp [tryInsertBreak, insertBreak, tryBreaking_eq]
  | _ => rfl

/-- The two cases are found before they are borrowed, and they are two. -/
theorem tryExchangeDefault_eq (ctor : String) (s : Stmt) :
    s.tryExchangeDefault ctor = .ok (s.exchangeDefault ctor) := by
  obtain ⟨kind, span, ghost⟩ := s
  cases kind with
  | matchOn source cases =>
    cases named : MatchCase.ctorIdx? cases ctor with
    | none => simp [tryExchangeDefault, exchangeDefault, named]
    | some i =>
      cases default : MatchCase.defaultIdx? cases with
      | none => simp [tryExchangeDefault, exchangeDefault, named, default]
      | some d =>
        have hi := List.getElem?_eq_getElem (List.findIdx?_eq_some_iff_getElem.1 named).1
        have hd := List.getElem?_eq_getElem (List.findIdx?_eq_some_iff_getElem.1 default).1
        simp only [tryExchangeDefault, exchangeDefault, named, default, hi, hd,
          Checked.get_of_getElem? hi, Checked.get_of_getElem? hd, Checked.ok_bind]
        split <;> rfl
  | _ => rfl

/-- A case is taken out after its index is known to be in range. -/
theorem tryKeepCase_eq (index : Nat) (s : Stmt) : s.tryKeepCase index = .ok (s.keepCase index) := by
  obtain ⟨kind, span, ghost⟩ := s
  cases kind with
  | matchOn source cases =>
    by_cases outside : cases.length ≤ index
    · simp [tryKeepCase, keepCase, outside]
    · have found := List.getElem?_eq_getElem (Nat.lt_of_not_le outside)
      obtain ⟨rest, removed⟩ := Checked.swapRemove_of_getElem? found
      simp only [tryKeepCase, keepCase, if_neg outside, found, Checked.get_of_getElem? found,
        removed, Checked.ok_bind]
      split <;> rfl
  | _ => rfl

/-- The local and its value, when the statement declares one local with one value. -/
def trySimpleDecl (s : Stmt) : Checked (Option (Variable × Expr)) :=
  match s.kind with
  | .varDecl ⟨[v], some init⟩ =>
    if init.values.length = 1 then do return some (v, ← Checked.get init.values 0) else .ok none
  | _ => .ok none

/-- A declaration is asked for its one value only after the values were counted. -/
theorem trySimpleDecl_eq (s : Stmt) : s.trySimpleDecl = .ok s.simpleDecl? := by
  unfold trySimpleDecl
  split
  next v init declared =>
    obtain ⟨targets, values, resolved⟩ := init
    rcases values with _ | ⟨e, _ | ⟨e', es⟩⟩ <;> simp [Checked.get, simpleDecl?, declared]
  next other =>
    unfold simpleDecl?
    split
    · rename_i v targets e resolved declared
      exact absurd declared (other v ⟨targets, [e], resolved⟩)
    · rfl

/-- The first declaration of one local with one value at a location. -/
def tryDeclIdx (location : Location) (list : List Stmt) : Checked (Option Nat) :=
  Checked.position
    (fun s => if location.matchesB s.span then do return (← s.trySimpleDecl).isSome else .ok false)
    list

/-- The search for a declaration by location does not break off. -/
theorem tryDeclIdx_eq (location : Location) (list : List Stmt) :
    tryDeclIdx location list = .ok (declIdx? location list) := by
  refine Checked.position_ok (fun s => ?_) list
  rw [trySimpleDecl_eq]
  cases location.matchesB s.span <;> rfl

/-- The initializer of a declaration. -/
def init? (s : Stmt) : Option Update :=
  match s.kind with
  | .varDecl d => d.init
  | _ => none

/-- The declaration with another initializer. -/
def withInit (s : Stmt) (init : Update) : Stmt :=
  match s.kind with
  | .varDecl d => { s with kind := .varDecl { d with init := some init } }
  | _ => s

/-- The values of two declarations exchanged. A declaration with one value has an initializer, so
the last case does not come up. -/
def trySwapInits (target other : Location) (list : List Stmt) :
    Checked (Outcome (List Stmt) (List Stmt × Span)) := do
  match ← tryDeclIdx target list with
  | none => return .pass list
  | some i =>
    match (← tryDeclIdx other list).filter (· ≠ i) with
    | none => return .refused .otherBlock list
    | some j =>
      let first ← (← Checked.get list i).trySimpleDecl
      let second ← (← Checked.get list j).trySimpleDecl
      match first, second with
      | some (v, _), some (w, _) =>
        if v.ty = w.ty then
          let span := (← Checked.get list i).span
          let (s, t) ← Checked.pair list i j
          match s.init?, t.init? with
          | some a, some b =>
            let x ← Checked.get a.values 0
            let y ← Checked.get b.values 0
            let a : Update := { a with values := ← Checked.set a.values 0 y }
            let b : Update := { b with values := ← Checked.set b.values 0 x }
            return .done ((list.set i (s.withInit a.sync)).set j (t.withInit b.sync), span)
          | _, _ => return .refused .otherBlock list
        else return .refused .declarationTypes list
      | _, _ => return .refused .declarationTypes list

/-- A plain declaration has its value at the first position. -/
theorem exists_of_simpleDecl? {s : Stmt} {v : Variable} {e : Expr}
    (h : s.simpleDecl? = some (v, e)) : ∃ init : Update, s.init? = some init ∧ init.values = [e] ∧
      ∀ x : Expr, s.withInit (Update.sync { init with values := [x] }) = s.withValue x := by
  obtain ⟨kind, span, ghost⟩ := s
  unfold simpleDecl? at h
  split at h
  · rename_i w targets value resolved same
    cases h
    cases same
    exact ⟨_, rfl, rfl, fun x => rfl⟩
  · cases h

/-- Both declarations are found, and they are two, when they are borrowed. -/
theorem trySwapInits_eq (target other : Location) (list : List Stmt) :
    trySwapInits target other list = .ok (swapInits target other list) := by
  simp only [trySwapInits, swapInits, tryDeclIdx_eq, trySimpleDecl_eq, Checked.ok_bind,
    Checked.pure_eq]
  cases first : declIdx? target list with
  | none => rfl
  | some i =>
    cases second : declIdx? other list with
    | none => rfl
    | some j =>
      by_cases same : i = j
      · subst same
        have alone : (some i).filter (· ≠ i) = none := by simp [Option.filter]
        simp only [alone, if_true]
      have others : (some j).filter (· ≠ i) = some j := by simp [Ne.symm same]
      obtain ⟨inside, found, -⟩ := List.findIdx?_eq_some_iff_getElem.1 first
      obtain ⟨inside', found', -⟩ := List.findIdx?_eq_some_iff_getElem.1 second
      have hi := List.getElem?_eq_getElem inside
      have hj := List.getElem?_eq_getElem inside'
      obtain ⟨⟨v, a⟩, simple⟩ := Option.isSome_iff_exists.1 (Bool.and_eq_true_iff.1 found).2
      obtain ⟨⟨w, b⟩, simple'⟩ := Option.isSome_iff_exists.1 (Bool.and_eq_true_iff.1 found').2
      obtain ⟨u, init, values, swapped⟩ := exists_of_simpleDecl? simple
      obtain ⟨u', init', values', swapped'⟩ := exists_of_simpleDecl? simple'
      simp only [others, if_neg same, hi, hj, Checked.get_of_getElem? hi,
        Checked.get_of_getElem? hj, Checked.ok_bind, simple, simple',
        Checked.pair_of_getElem? hi hj same, init, init', values, values']
      split
      · simp [Checked.get, Checked.set, swapped, swapped']
      · rfl

end Stmt

/-- The bodies of two methods exchanged. Both members are methods, so the last case does not come
up. -/
def Member.trySwapBodies (target : Location) (name : String) (list : List Member) :
    Checked (Outcome (List Member) (List Member × Span)) :=
  match list.findIdx? fun m => m.method?.isSome && target.matchesB m.span with
  | none => .ok (.pass list)
  | some i =>
    match (list.findIdx? fun m => m.method?.isSome && m.name == name).filter (· ≠ i) with
    | none => .ok (.refused .otherDeclaration list)
    | some j => do
      let (m, n) ← Checked.pair list i j
      match m.method?, n.method? with
      | some a, some b =>
        if a.sameFormalsAs b && a.body.isSome && b.body.isSome then
          return .done ((list.set i (.method { a with body := b.body })).set j
            (.method { b with body := a.body }), a.span)
        else return .refused .methodShape list
      | _, _ => return .refused .otherDeclaration list

/-- So are both methods. -/
theorem Member.trySwapBodies_eq (target : Location) (name : String) (list : List Member) :
    trySwapBodies target name list = .ok (swapBodies target name list) := by
  cases first : list.findIdx? fun m => m.method?.isSome && target.matchesB m.span with
  | none => simp [trySwapBodies, swapBodies, first]
  | some i =>
    cases second : list.findIdx? fun m => m.method?.isSome && m.name == name with
    | none => simp [trySwapBodies, swapBodies, first, second]
    | some j =>
      by_cases same : i = j
      · subst same
        have alone : (some i).filter (· ≠ i) = none := by simp [Option.filter]
        simp only [trySwapBodies, swapBodies, first, second, alone, if_true]
      have others : (some j).filter (· ≠ i) = some j := by simp [Ne.symm same]
      obtain ⟨inside, found, -⟩ := List.findIdx?_eq_some_iff_getElem.1 first
      obtain ⟨inside', found', -⟩ := List.findIdx?_eq_some_iff_getElem.1 second
      have hi := List.getElem?_eq_getElem inside
      have hj := List.getElem?_eq_getElem inside'
      obtain ⟨a, method⟩ := Option.isSome_iff_exists.1 (Bool.and_eq_true_iff.1 found).1
      obtain ⟨b, method'⟩ := Option.isSome_iff_exists.1 (Bool.and_eq_true_iff.1 found').1
      simp only [trySwapBodies, swapBodies, first, second, others, if_neg same, hi, hj,
        Option.bind_some, Checked.pair_of_getElem? hi hj same, Checked.ok_bind, method, method']
      split <;> rfl

namespace Operator

/-- What an operator answers when it is offered an expression. -/
def tryOnExpr (op : Operator) (site : Site) (e : Expr) : Checked (Outcome Expr Expr) :=
  match op with
  | .insertThis field =>
    if site.isTarget e.span then e.tryInsertThis site.enclosing field else .ok (.pass e)
  | .swapArguments i j => if site.isTarget e.span then e.trySwapArguments i j else .ok (.pass e)
  | op => .ok (op.onExpr site e)

/-- What an operator answers when it is offered an element of a statement list. -/
def tryOnStmt (op : Operator) (site : Site) (s : Stmt) : Checked (Outcome Stmt Change) :=
  match op with
  | .insertBreak => if site.isTarget s.span then s.tryInsertBreak else .ok (.pass s)
  | .exchangeDefault ctor =>
    if site.isTarget s.span then s.tryExchangeDefault ctor else .ok (.pass s)
  | .keepCase index => if site.isTarget s.span then s.tryKeepCase index else .ok (.pass s)
  | op => .ok (op.onStmt site s)

/-- What an operator answers when it is offered a statement list. -/
def tryOnStmts (op : Operator) (site : Site) (list : List Stmt) :
    Checked (Outcome (List Stmt) (List Stmt × Span) × List Note) :=
  match op with
  | .swapInits start stop => do
    return (← Stmt.trySwapInits site.target (.range start stop) list, [])
  | .deleteVariable name => Stmt.tryDeleteVariable site name list
  | _ => .ok (.pass list, [])

/-- What an operator answers when it is offered a member list. -/
def tryOnMembers (op : Operator) (site : Site) (list : List Member) :
    Checked (Outcome (List Member) (List Member × Span)) :=
  match op with
  | .swapBodies name => Member.trySwapBodies site.target name list
  | _ => .ok (.pass list)

/-- No operator breaks off at an expression, whatever it is asked for. -/
theorem tryOnExpr_eq (op : Operator) (site : Site) (e : Expr) :
    op.tryOnExpr site e = .ok (op.onExpr site e) := by
  cases op with
  | insertThis field =>
    simp only [tryOnExpr, onExpr, Expr.tryInsertThis_eq]
    split <;> rfl
  | swapArguments i j =>
    simp only [tryOnExpr, onExpr, Expr.trySwapArguments_eq]
    split <;> rfl
  | _ => rfl

/-- Nor at a statement. -/
theorem tryOnStmt_eq (op : Operator) (site : Site) (s : Stmt) :
    op.tryOnStmt site s = .ok (op.onStmt site s) := by
  cases op with
  | insertBreak =>
    simp only [tryOnStmt, onStmt, Stmt.tryInsertBreak_eq]
    split <;> rfl
  | exchangeDefault ctor =>
    simp only [tryOnStmt, onStmt, Stmt.tryExchangeDefault_eq]
    split <;> rfl
  | keepCase index =>
    simp only [tryOnStmt, onStmt, Stmt.tryKeepCase_eq]
    split <;> rfl
  | _ => rfl

/-- Nor at a list, when its size can be counted. -/
theorem tryOnStmts_eq (op : Operator) {site : Site} (bounded : site.cascadeLimit < UInt64.size)
    {list : List Stmt} (fits : Stmt.sizeList list < UInt64.size) :
    op.tryOnStmts site list = .ok (op.onStmts site list) := by
  cases op with
  | swapInits start stop =>
    simp only [tryOnStmts, Stmt.trySwapInits_eq]
    rfl
  | deleteVariable name => exact Stmt.tryDeleteVariable_eq bounded name fits
  | _ => rfl

/-- Nor at a member list. -/
theorem tryOnMembers_eq (op : Operator) (site : Site) (list : List Member) :
    op.tryOnMembers site list = .ok (op.onMembers site list) := by
  cases op with
  | swapBodies name => exact Member.trySwapBodies_eq site.target name list
  | _ => rfl

end Operator

namespace Search

/-- The walk of a search for the target of `base`, by position. -/
def tryRevision (op : Operator) (base : Site) : CheckedRevision Search where
  toGates := (revision op base).toGates
  halted s := s.isOver
  visit
    | .expr, e, s => do
      let outcome ← op.tryOnExpr (s.site base) e
      return settle .expression outcome (fun new => (new, e.span)) s
    | k, node, s => .ok (.descend node, s.entering (k.node node))
  leave := (revision op base).leave
  target := (revision op base).target
  reviseStmts list s := do
    let (outcome, notes) ← op.tryOnStmts (s.site base) list
    return settle .statement outcome id (s.noting notes)
  reviseMembers list s := do
    return settle .member (← op.tryOnMembers (s.site base) list) id s
  offer st s := do
    match ← op.tryOnStmt (s.site base) st with
    | .pass left => return (⟨left, .keep⟩, s)
    | .done change =>
      return (⟨st, change.edit⟩, s.find .statement (landing base.target st.span))
    | .refused reason left => return (⟨left, .keep⟩, s.refuse reason)
  resyncUpdate u s := .ok ((revision op base).resyncUpdate u s)
  resyncChain c s := do
    if s.found.isSome then return (← c.tryRebuild, s) else return (c, s)

/-- The hooks of a search do not break off, at nodes whose size fits a word. -/
theorem tryRevision_computes (op : Operator) {base : Site}
    (bounded : base.cascadeLimit < UInt64.size) {bound : Nat} (fits : bound < UInt64.size) :
    (tryRevision op base).Computes (revision op base) bound where
  gates := rfl
  halted := rfl
  visit k a s := by
    cases k with
    | expr =>
      simp only [tryRevision, Operator.tryOnExpr_eq, Checked.ok_bind]
      rfl
    | _ => rfl
  leave := rfl
  target := rfl
  reviseStmts list s small := by
    have limited : (s.site base).cascadeLimit < UInt64.size := bounded
    simp only [tryRevision, revision, op.tryOnStmts_eq limited (Nat.lt_of_le_of_lt small fits),
      Checked.ok_bind]
    rfl
  reviseMembers list s := by
    simp only [tryRevision, revision, Operator.tryOnMembers_eq, Checked.ok_bind]
    rfl
  offer st s := by
    simp only [tryRevision, revision, Operator.tryOnStmt_eq, Checked.ok_bind]
    cases op.onStmt (s.site base) st <;> rfl
  resyncUpdate u s := rfl
  resyncChain c s short := by
    simp only [tryRevision, revision, Chain.tryRebuild_eq (Nat.lt_of_le_of_lt short fits),
      Checked.ok_bind]
    split <;> rfl
  settled st s := by
    simp only [revision]
    cases op.onStmt (s.site base) st with
    | pass left | refused reason left => simp [Edit.isKeep]
    | done change => exact fun _ => rfl
  modest := show (walking op base base.target.mayLieIn).Modest from walking_modest
  fits := fits

end Search

/-- Carries out a request on a module, by position. -/
def Module.tryMutate (m : Module) (r : Request) (cascadeLimit : UInt64) :
    Checked (Except ArgumentFault Mutant) :=
  match Operator.make r.kind r.argument with
  | .error fault => .ok (.error fault)
  | .ok op => do
    let base : Site :=
      { target := r.location, cascadeLimit := cascadeLimit.toNat, declarations := m.declarations }
    let flow ← (Search.tryRevision op base).module m.size m {}
    let (after, s) := flow.value
    return .ok ⟨after, s.report r, s.notes ++ [s.verdict]⟩

/-- The run: a search by position is the plain search, for every request. -/
theorem Module.tryMutate_eq {m : Module} (fits : m.size < UInt64.size) (r : Request)
    (cascadeLimit : UInt64) :
    m.tryMutate r cascadeLimit = .ok (m.mutate r cascadeLimit.toNat) := by
  unfold tryMutate mutate apply
  cases Operator.make r.kind r.argument with
  | error fault => rfl
  | ok op =>
    let base : Site :=
      { target := r.location, cascadeLimit := cascadeLimit.toNat, declarations := m.declarations }
    have bounded : base.cascadeLimit < UInt64.size := cascadeLimit.toNat_lt_size
    have walked := (Search.tryRevision_computes op bounded fits).module (Nat.le_refl m.size)
      (Nat.le_refl m.size) {}
    simp only [base] at walked
    simp only [walked, Checked.ok_bind]
    rfl

end Mutation
