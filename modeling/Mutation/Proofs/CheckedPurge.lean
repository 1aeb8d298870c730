import Mutation.Operator.OnList
import Mutation.Proofs.Checked
import Mutation.Proofs.Expense

/-!
# Purging by position

A purge keeps the position of the statement it is at in a list that gets shorter on the way, by
itself and by the purges of orphans in between. It takes pairs and locals out of three lists in
step, and counts what it deletes and collapses in words.

Its loops are here as they run by position. The list in front of the position is never touched, a
purge makes no list larger, and what it counts is gone (`Purge.Pays`). So every position lies in
its list, the counts fit a word when the size of the list does, and the purge comes to what
`Stmt.deleteVariable` says (`Stmt.tryDeleteVariable_eq`).
-/

namespace Mutation

namespace Chain

/-- The comparisons of adjacent operands, from a position on. -/
def tryLinks (operands : List Expr) : List BinaryOp → Nat → Checked (List Expr)
  | [], _ => .ok []
  | op :: ops, index => do
    let next ← Checked.add index 1
    match operands[index]?, operands[next]? with
    | some l, some r => return link op l r :: (← tryLinks operands ops next)
    | _, _ => .ok []

/-- Brings the conjunction in step with operands and operators. -/
def tryRebuild (c : Chain) : Checked Chain := do
  return { c with resolved := conjunction (← tryLinks c.operands c.ops 0) }

/-- The loop stops behind the last pair of operands, however many operators there are. -/
theorem tryLinks_eq (front rest : List Expr) (ops : List BinaryOp)
    (inside : front = [] ∨ rest ≠ []) (fits : front.length + rest.length < UInt64.size) :
    tryLinks (front ++ rest) ops front.length = .ok (links rest ops) := by
  induction ops generalizing front rest with
  | nil => cases rest with
    | nil => rfl
    | cons a rest => cases rest <;> rfl
  | cons op ops ih =>
    have counted : front.length + 1 < UInt64.size := by
      rcases inside with rfl | more
      · decide
      · have := List.length_pos_iff.2 more
        omega
    rw [tryLinks, Checked.add_of_lt counted, Checked.ok_bind]
    cases rest with
    | nil => simp [links]
    | cons a rest =>
      cases rest with
      | nil => simp [links]
      | cons b rest =>
        have later := ih (front ++ [a]) (b :: rest) (.inr (by simp)) (by simp at fits ⊢; omega)
        rw [List.append_assoc, List.length_append] at later
        have first : (front ++ a :: b :: rest)[front.length]? = some a := by simp
        have second : (front ++ a :: b :: rest)[front.length + 1]? = some b := by simp
        simp only [first, second, links]
        rw [show tryLinks (front ++ a :: b :: rest) ops (front.length + 1) = _ from later]
        rfl

/-- A chain with fewer operands than can be counted is rebuilt without breaking off. -/
theorem tryRebuild_eq {c : Chain} (fits : c.operands.length < UInt64.size) :
    c.tryRebuild = .ok c.rebuild := by
  have linked := tryLinks_eq [] c.operands c.ops (.inl rfl) (by simpa using fits)
  rw [tryRebuild, show tryLinks c.operands c.ops 0 = _ from linked]
  rfl

end Chain

/-- Reduces an expression in a place that wants a type, and counts. -/
abbrev Reducer := Expr → Ty → Purge → Checked (Purged Expr)

namespace Purge

/-- Counts a collapsed expression. -/
def tryCollapse (p : Purge) : Checked Purge := do
  return { p with collapsed := ← Checked.add p.collapsed 1 }

/-- Counts a deleted statement. -/
def tryDelete (p : Purge) : Checked Purge := do
  return { p with deleted := ← Checked.add p.deleted 1 }

end Purge

namespace Expr

section

variable (reduce : Reducer)

/-- Reduces some expressions, until one is lost. -/
def tryReduceAll : List Expr → Purge → Checked (Purged (List Expr))
  | [], p => .ok { rest := some [], state := p }
  | e :: es, p => do
    let r ← reduce e e.ty p
    match r.rest with
    | none => return { rest := none, state := r.state }
    | some e => return (← tryReduceAll es r.state).map fun es => e :: es

/-- Reduces an expression that may be missing. -/
def tryReduceOpt : Option Expr → Purge → Checked (Purged (Option Expr))
  | none, p => .ok { rest := some none, state := p }
  | some e, p => return (← reduce e e.ty p).map some

end

/-- Reduces an expression, to the given depth. -/
def tryReduce (dead : String) : Nat → Reducer
  | 0, _, _, _ => .error .endless
  | depth + 1, ⟨kind, span, ty⟩, wanted, p =>
    match kind with
    | .name n => .ok { rest := if n = dead then none else some ⟨.name n, span, ty⟩, state := p }
    | .binary op l r => do
      let left ← tryReduce dead depth l l.ty p
      let right ← tryReduce dead depth r r.ty left.state
      match left.rest, right.rest with
      | some l, some r => return { rest := some ⟨.binary op l r, span, ty⟩, state := right.state }
      | none, none => return { rest := none, state := right.state }
      | some a, none =>
        if l.ty.fits ty && l.ty.fits wanted then
          return { rest := some a, state := ← right.state.tryCollapse }
        else return { rest := none, state := right.state }
      | none, some b =>
        if r.ty.fits ty && r.ty.fits wanted then
          return { rest := some b, state := ← right.state.tryCollapse }
        else return { rest := none, state := right.state }
    | .chain c => do
      let r ← tryReduceAll (tryReduce dead depth) c.operands p
      match r.rest with
      | none => return { rest := none, state := r.state }
      | some operands =>
        let c ← Chain.tryRebuild { c with operands }
        return { rest := some ⟨.chain c, span, ty⟩, state := r.state }
    | kind => do
      let r ← tryReduceAll (tryReduce dead depth) kind.parts p
      return r.map fun es => ⟨kind.withParts es, span, ty⟩

end Expr

/-- The assignment without its `k`-th pair, in step; unchanged when it has none. -/
def Update.tryErase (u : Update) (k : Nat) : Checked Update :=
  if u.isParallel && k < u.targets.length then do
    return .make (← Checked.remove u.targets k) (← Checked.remove u.values k)
  else .ok u

/-- An assignment on the way through its pairs, or a declaration on the way through its locals. -/
structure Stripping where
  locals : List Variable := []
  init : Update
  lost : List String := []
  state : Purge

section

variable (reduce : Reducer) (dead : String)

/-- Reduces the pair of an assignment at a position, or takes it out. -/
def Update.stripPair (s : Stripping) (k : Nat) : Checked (Bool × Stripping) := do
  let target ← Checked.get s.init.targets k
  if target.mentions dead then return (false, { s with init := ← s.init.tryErase k })
  else
    let r ← reduce (← Checked.get s.init.values k) target.ty s.state
    match r.rest with
    | none => return (false, { s with init := ← s.init.tryErase k, state := r.state })
    | some value =>
      let values ← Checked.set s.init.values k value
      return (true, { s with init := { s.init with values }, state := r.state })

/-- Purges an assignment. -/
def Update.tryPurge (u : Update) (p : Purge) : Checked (Purged Update) :=
  if u.isParallel then do
    let s ← Checked.sweep (fun s : Stripping => s.init.targets.length) (stripPair reduce dead)
      u.targets.length { init := u, state := p } 0
    return { rest := if s.init.targets.isEmpty then none else some s.init.sync, state := s.state }
  else .ok { rest := if u.names.contains dead then none else some u, state := p }

/-- Reduces the value of the local at a position, or takes the local out. -/
def VarDecl.stripLocal (s : Stripping) (k : Nat) : Checked (Bool × Stripping) := do
  let v ← Checked.get s.locals k
  let r ← reduce (← Checked.get s.init.values k) v.ty s.state
  match r.rest with
  | none =>
    return (false, ⟨← Checked.remove s.locals k, ← s.init.tryErase k, s.lost ++ [v.name], r.state⟩)
  | some value =>
    let values ← Checked.set s.init.values k value
    return (true, { s with init := { s.init with values }, state := r.state })

/-- Purges a declaration. -/
def VarDecl.tryPurge (span : Span) (d : VarDecl) (p : Purge) : Checked (Purged VarDecl) :=
  match d.init with
  | none => .ok { rest := some d, state := p }
  | some init =>
    if d.isAligned init then do
      let s ← Checked.sweep (fun s : Stripping => s.init.values.length) (stripLocal reduce)
        init.values.length { locals := d.locals, init, state := p } 0
      return {
        rest := if s.locals.isEmpty then none else some ⟨s.locals, some s.init.sync⟩
        orphans := s.lost.map fun name => (name, span)
        state := s.state }
    else if (Expr.namesList init.values).contains dead then
      .ok { rest := none, orphans := d.names.map fun name => (name, span), state := p }
    else .ok { rest := some d, state := p }

/-- Reduces the argument at a position, or takes it out. -/
def Stmt.stripArg (s : List Expr × Purge) (k : Nat) : Checked (Bool × List Expr × Purge) := do
  let e ← Checked.get s.1 k
  let r ← reduce e e.ty s.2
  match r.rest with
  | none => return (false, ← Checked.remove s.1 k, r.state)
  | some e => return (true, ← Checked.set s.1 k e, r.state)

/-- Purges a list from a position on. -/
abbrev ListPurger := List Stmt → Nat → Purge → Checked (List Stmt × Purge)

variable (inner : ListPurger)

/-- Purges the bodies of the cases that do not bind the name themselves. -/
def MatchCase.tryPurgeList : List MatchCase → Purge → Checked (List MatchCase × Purge)
  | [], p => .ok ([], p)
  | c :: cs, p => do
    let (body, p) ← if c.pattern.names.contains dead then .ok (c.body, p) else inner c.body 0 p
    let (cs, p) ← tryPurgeList cs p
    return ({ c with body } :: cs, p)

/-- Purges the statements of a block. -/
def Block.tryPurge (b : Block) (p : Purge) : Checked (Block × Purge) := do
  let (stmts, p) ← inner b.stmts 0 p
  return ({ b with stmts }, p)

mutual
/-- Purges a statement; `inner` purges the lists in it. -/
def Stmt.tryPurge : Stmt → Purge → Checked (Purged Stmt)
  | ⟨kind, span, ghost⟩, p => do
    return (← kind.tryPurge span p).map fun kind => ⟨kind, span, ghost⟩

def StmtKind.tryPurge (span : Span) : StmtKind → Purge → Checked (Purged StmtKind)
  | .varDecl d, p => return (← d.tryPurge reduce dead span p).map .varDecl
  | .update u, p => return (← u.tryPurge reduce dead p).map .update
  | .expr e, p => return (← reduce e e.ty p).map .expr
  | .ret values, p => return (← Expr.tryReduceAll reduce values p).map .ret
  | .ifElse guard thenBranch elseBranch, p => do
    let r ← Expr.tryReduceOpt reduce guard p
    match r.rest with
    | none => return { rest := none, state := r.state }
    | some guard =>
      let (thenBranch, p) ← thenBranch.tryPurge inner r.state
      let r ← Stmt.tryPurgeElse elseBranch p
      return { r with rest := some (.ifElse guard thenBranch r.rest) }
  | .whileLoop guard invariants decreases body, p => do
    let r ← Expr.tryReduceOpt reduce guard p
    match r.rest with
    | none => return { rest := none, state := r.state }
    | some guard =>
      let (body, p) ← body.tryPurge inner r.state
      return {
        rest := some (.whileLoop guard (Expr.without dead invariants)
          (Expr.without dead decreases) body)
        state := p }
  | .forLoop index start stop ascending invariants body, p => do
    let r ← reduce start start.ty p
    match r.rest with
    | none => return { rest := none, state := r.state }
    | some start =>
      let r ← Expr.tryReduceOpt reduce stop r.state
      match r.rest with
      | none => return { rest := none, state := r.state }
      | some stop =>
        if index.name = dead then
          return {
            rest := some (.forLoop index start stop ascending invariants body)
            state := r.state }
        else
          let (body, p) ← body.tryPurge inner r.state
          return {
            rest := some (.forLoop index start stop ascending (Expr.without dead invariants) body)
            state := p }
  | .breakLoop, p => .ok { rest := some .breakLoop, state := p }
  | .continueLoop, p => .ok { rest := some .continueLoop, state := p }
  | .block b, p => do
    let (b, p) ← b.tryPurge inner p
    return { rest := some (.block b), state := p }
  | .matchOn source cases, p => do
    let r ← reduce source source.ty p
    match r.rest with
    | none => return { rest := none, state := r.state }
    | some source =>
      let (cases, p) ← MatchCase.tryPurgeList dead inner cases r.state
      return { rest := some (.matchOn source cases), state := p }
  | .assert e, p => .ok { rest := if e.mentions dead then none else some (.assert e), state := p }
  | .assume e, p => .ok { rest := if e.mentions dead then none else some (.assume e), state := p }
  | .print args, p => do
    let (args, p) ← Checked.sweep (fun s : List Expr × Purge => s.1.length) (Stmt.stripArg reduce)
      args.length (args, p) 0
    return { rest := if args.isEmpty then none else some (.print args), state := p }

/-- Purges an `else` branch. -/
def Stmt.tryPurgeElse : Option Stmt → Purge → Checked (Purged Stmt)
  | none, p => .ok { rest := none, state := p }
  | some branch, p => do
    let r ← branch.tryPurge p
    return { r with rest := r.rest.or branch.elseBranch? }
end

end

/-- Puts what is left of a statement in its place, or takes the statement out and counts it; says
where the next statement is. -/
def Purged.put (r : Purged Stmt) (list : List Stmt) (index : Nat) :
    Checked (List Stmt × Nat × Purge) :=
  match r.rest with
  | some s => return (← Checked.set list index s, ← Checked.add index 1, r.state)
  | none => return (← Checked.remove list index, index, ← r.state.tryDelete)

namespace Purge

/-- Purges orphans from a list from a position on, if it is that long. -/
def tryAdopt (limit : Nat) (purge : String → Nat → ListPurger) (depth index : Nat) :
    List Orphan → List Stmt → Purge → Checked (List Stmt × Purge)
  | [], list, p => .ok (list, p)
  | orphan :: orphans, list, p =>
    if limit ≤ depth then .ok (list, p.exhaust orphan.1 depth)
    else if p.hasVisited orphan then tryAdopt limit purge depth index orphans list p
    else do
      let next ← Checked.add depth 1
      let (list, p) ← purge orphan.1 next list (min index list.length) (p.takeIn orphan)
      tryAdopt limit purge depth index orphans list p

/-- Purges `dead` from a list from a position on, up to and including the first statement that
declares it again, for so many rounds and calls at most. -/
def tryList (limit : Nat) (reduce : String → Reducer) : Nat → String → Nat → ListPurger
  | 0, _, _, _, _, _ => .error .endless
  | rounds + 1, dead, depth, list, index, p =>
    if index < list.length && !p.exhausted then do
      let s ← Checked.get list index
      let r ← s.tryPurge (reduce dead) dead (tryList limit reduce rounds dead depth) p
      let (list, next, p) ← r.put list index
      let (list, p) ← tryAdopt limit (tryList limit reduce rounds) depth next r.orphans list p
      if s.declares.contains dead then return (list, p)
      else tryList limit reduce rounds dead depth list next p
    else .ok (list, p)

end Purge

/-- Takes a local out of its declaration. -/
def VarDecl.tryDrop (name : String) (d : VarDecl) : Checked (Option VarDecl × List String) :=
  match d.locals.findIdx? fun v => v.name == name with
  | none => .ok (some d, [])
  | some k =>
    match d.init with
    | none => do
      let locals ← Checked.remove d.locals k
      return (if locals.isEmpty then none else some ⟨locals, none⟩, [])
    | some init =>
      if d.isAligned init then do
        let locals ← Checked.remove d.locals k
        let init ← init.tryErase k
        return (if locals.isEmpty then none else some ⟨locals, some init⟩, [])
      else .ok (none, d.names.filter fun n => n ≠ name)

/-- What is left of a statement without one of its locals, and the locals lost with it. -/
def Stmt.tryDrop (name : String) (s : Stmt) : Checked (Purged Stmt) :=
  let p : Purge := { visited := [(name, s.span)] }
  match s.kind with
  | .varDecl d => do
    let (left, orphans) ← d.tryDrop name
    return {
      rest := left.map fun d => { s with kind := .varDecl d }
      orphans := orphans.map fun n => (n, s.span)
      state := p }
  | _ => .ok { rest := some s, state := p }

/-- Deletes a local from its declaration, which stands at a position of the list, and from the
statements behind it. The first argument bounds the depth of the expressions there. -/
def Purge.tryDeleteLocal (bound limit : Nat) (name : String) (list : List Stmt) (index : Nat) :
    Checked (List Stmt × Purge) := do
  let purge := tryList limit (fun dead => Expr.tryReduce dead bound) (Stmt.weightList list + 1)
  let s ← Checked.get list index
  let r ← s.tryDrop name
  let (list, next, p) ← r.put list index
  let (list, p) ← purge name 0 list next p
  tryAdopt limit purge 0 next r.orphans list p

/-- A local deleted with what depends on it, and the notes of the deletion. -/
def Stmt.tryDeleteVariable (site : Site) (name : String) (list : List Stmt) :
    Checked (Outcome (List Stmt) (List Stmt × Span) × List Note) :=
  match list.findIdx? fun s => site.isTarget s.span && s.declares.contains name with
  | none => .ok (.pass list, [])
  | some index => do
    let copy := list
    let s ← Checked.get list index
    let (list, p) ← Purge.tryDeleteLocal (Stmt.sizeList list) site.cascadeLimit name list index
    if p.exhausted then
      let list := copy
      return (.refused .cascadeExhausted list, p.notes ++ [.listRestored name])
    else
      return (.done (list, s.span),
        p.notes ++ [.variableDeleted name p.extent p.deleted p.collapsed p.cascaded])

@[simp] theorem Purge.countCollapsed_countCollapsed (p : Purge) (m n : Nat) :
    (p.countCollapsed m).countCollapsed n = p.countCollapsed (m + n) := by
  simp [countCollapsed, Nat.add_assoc]

@[simp] theorem Purge.spent_countCollapsed (p : Purge) (n : Nat) :
    (p.countCollapsed n).spent = p.spent + n := by
  simp only [spent, countCollapsed]
  omega

/-- One more collapse is counted where there is room in the counter. -/
theorem Purge.tryCollapse_eq {p : Purge} (fits : p.spent + 1 < UInt64.size) :
    p.tryCollapse = .ok (p.countCollapsed 1) := by
  have : p.collapsed ≤ p.spent := Nat.le_add_left _ _
  simp [tryCollapse, countCollapsed, Checked.add_of_lt (show p.collapsed + 1 < _ by omega)]

/-- So is one more deletion. -/
theorem Purge.tryDelete_eq {p : Purge} (fits : p.spent + 1 < UInt64.size) :
    p.tryDelete = .ok p.countDeleted := by
  have : p.deleted ≤ p.spent := Nat.le_add_right _ _
  simp [tryDelete, countDeleted, Checked.add_of_lt (show p.deleted + 1 < _ by omega)]

/-- A reducer comes to what `Expr.reduce` says, as long as what is counted and the size of the
expression stay within a bound. -/
def Reducer.Follows (reduce : Reducer) (dead : String) (bound : Nat) : Prop :=
  ∀ (e : Expr) (wanted : Ty) (p : Purge), p.spent + e.size ≤ bound →
    reduce e wanted p = .ok ((e.reduce dead wanted).purged p)

section

variable {reduce : Reducer} {dead : String} {bound : Nat}

/-- A list is reduced expression by expression, each with the room that the others leave. -/
theorem Expr.tryReduceAll_eq {es : List Expr} {p : Purge}
    (h : ∀ e ∈ es, ∀ p : Purge, p.spent + e.size ≤ bound →
      reduce e e.ty p = .ok ((e.reduce dead e.ty).purged p))
    (room : p.spent + sizeList es ≤ bound) :
    tryReduceAll reduce es p = .ok ((Expr.reduceList dead es).purged p) := by
  induction es generalizing p with
  | nil => rfl
  | cons e es ih =>
    obtain ⟨he, hes⟩ := List.forall_mem_cons.1 h
    rw [sizeList_cons] at room
    have paid := Expr.pays_reduce dead e e.ty
    rw [tryReduceAll, he p (by omega), Checked.ok_bind, Expr.reduceList]
    cases left : (e.reduce dead e.ty).rest with
    | none => simp [Reduction.purged, Reduction.map, Reduction.both, left]
    | some a =>
      rw [Reduction.Pays, left, Option.elim_some] at paid
      have rest := ih hes (p := p.countCollapsed (e.reduce dead e.ty).collapsed)
        (by rw [Purge.spent_countCollapsed]; omega)
      simp only [Reduction.purged, left] at rest ⊢
      rw [rest]
      simp [Reduction.map, Reduction.both, left, Purged.map, Function.comp_def]

/-- An expression that may be absent is reduced where there is room for it. -/
theorem Expr.tryReduceOpt_eq (h : reduce.Follows dead bound) {e : Option Expr} {p : Purge}
    (room : p.spent + sizeOpt e ≤ bound) :
    tryReduceOpt reduce e p = .ok ((Expr.reduceOpt dead e).purged p) := by
  cases e with
  | none => rfl
  | some e =>
    rw [tryReduceOpt, h e e.ty p room]
    rfl

end

/-- An expression is reduced by a recursion of no more than its depth, and counts no more than its
parts. -/
theorem Expr.tryReduce_follows (dead : String) {bound : Nat} (fits : bound < UInt64.size) :
    Reducer.Follows (tryReduce dead bound) dead bound := by
  suffices deep : ∀ depth, ∀ e : Expr, e.size ≤ depth → ∀ (wanted : Ty) (p : Purge),
      p.spent + e.size ≤ bound →
        tryReduce dead depth e wanted p = .ok ((e.reduce dead wanted).purged p) by
    exact fun e wanted p room => deep bound e (by omega) wanted p room
  intro depth
  induction depth with
  | zero =>
    intro e shallow
    have := e.size_pos
    omega
  | succ depth ih =>
    intro e shallow wanted p room
    obtain ⟨kind, span, ty⟩ := e
    rw [Expr.size_eq] at shallow room
    dsimp only at shallow room
    have parts : ∀ p : Purge, p.spent + sizeList kind.parts ≤ bound →
        tryReduceAll (tryReduce dead depth) kind.parts p =
          .ok ((Expr.reduceList dead kind.parts).purged p) :=
      fun p => tryReduceAll_eq fun c hc p => ih c (by have := size_le_of_mem hc; omega) c.ty p
    by_cases name : ∃ n, kind = .name n
    · obtain ⟨n, rfl⟩ := name
      simp only [tryReduce, Expr.reduce, ExprKind.reduce]
      split <;> rfl
    by_cases binary : ∃ op l r, kind = .binary op l r
    · obtain ⟨op, l, r, rfl⟩ := binary
      simp only [ExprKind.parts, sizeList_cons, sizeList_nil] at shallow room
      have paid := (Expr.pays_reduce dead l l.ty).collapsed_le
      have paid' := (Expr.pays_reduce dead r r.ty).collapsed_le
      have first := ih l (by omega) l.ty p (by omega)
      have second := ih r (by omega) r.ty (p.countCollapsed (l.reduce dead l.ty).collapsed)
        (by rw [Purge.spent_countCollapsed]; omega)
      have counted := Purge.tryCollapse_eq (p := p.countCollapsed
        ((l.reduce dead l.ty).collapsed + (r.reduce dead r.ty).collapsed))
        (by rw [Purge.spent_countCollapsed]; omega)
      rw [tryReduce, Expr.reduce, ExprKind.reduce]
      generalize l.reduce dead l.ty = left at first second counted
      generalize r.reduce dead r.ty = right at second counted
      obtain ⟨a, m⟩ := left
      obtain ⟨b, n⟩ := right
      simp only [first, second, Checked.ok_bind, Reduction.purged]
      cases a <;> cases b
      case some.none a =>
        simp only [Reduction.either, Purge.countCollapsed_countCollapsed, counted]
        split <;> simp
      case none.some b =>
        simp only [Reduction.either, Purge.countCollapsed_countCollapsed, counted]
        split <;> simp
      all_goals simp [Reduction.either]
    by_cases chain : ∃ c, kind = .chain c
    · obtain ⟨⟨operands, ops, resolved⟩, rfl⟩ := chain
      have length := length_le_sizeList operands
      simp only [ExprKind.parts] at room parts
      rw [tryReduce, parts p (by omega), Expr.reduce, ExprKind.reduce, Chain.reduce]
      cases left : (Expr.reduceList dead operands).rest with
      | none => simp [Reduction.purged, Reduction.map, left]
      | some es =>
        have rebuilt := Chain.tryRebuild_eq (c := ⟨es, ops, resolved⟩)
          (by rw [length_reduceList left]; omega)
        simp [Reduction.purged, Reduction.map, left, rebuilt]
    · rw [Expr.reduce, ExprKind.reduce_eq (fun n h => name ⟨n, h⟩)
        (fun op l r h => binary ⟨op, l, r, h⟩) fun c h => chain ⟨c, h⟩]
      rw [tryReduce, parts p (by omega)]
      · rfl
      · exact fun n h => name ⟨n, h⟩
      · exact fun op l r h => binary ⟨op, l, r, h⟩
      · exact fun c h => chain ⟨c, h⟩

/-- A pair is taken out of both lists by its position, which is in both. -/
theorem Update.tryErase_eq {u : Update} {k : Nat} {targets values : List Expr}
    (parallel : u.targets.length = u.values.length) (inside : k < u.targets.length)
    (ht : Checked.remove u.targets k = .ok targets) (hv : Checked.remove u.values k = .ok values) :
    u.tryErase k = .ok (.make targets values) := by
  simp [tryErase, isParallel, parallel, parallel ▸ inside, ht, hv]

section

variable {reduce : Reducer} {dead : String} {bound : Nat}

/-- What a loop over the pairs of an assignment keeps: with what is left of the pairs that are to
come, targets and values are the result, and so is the count. -/
structure Update.Strips (dead : String) (bound : Nat) (targets values : List Expr) (q : Purge)
    (k : Nat) (pairs : List (Expr × Expr)) (s : Stripping) : Prop where
  targets : Checked.Reached k s.init.targets (pairs.map (·.1))
    ((reducePairs dead pairs).1.map (·.1)) targets
  values : Checked.Reached k s.init.values (pairs.map (·.2))
    ((reducePairs dead pairs).1.map (·.2)) values
  counted : s.state.countCollapsed (reducePairs dead pairs).2 = q
  room : s.state.spent + Expr.sizeList (pairs.map (·.2)) ≤ bound
  short : k + pairs.length ≤ bound

/-- One round: the pair at hand is kept or taken out, and the invariant moves on to the next one. -/
theorem Update.Strips.round (h : reduce.Follows dead bound) {T V : List Expr} {q : Purge} {k : Nat}
    {pair : Expr × Expr} {pairs : List (Expr × Expr)} {s : Stripping}
    (inv : Strips dead bound T V q k (pair :: pairs) s) :
    ∃ kept s', stripPair reduce dead s k = .ok (kept, s') ∧
      Strips dead bound T V q (if kept then k + 1 else k) pairs s' := by
  obtain ⟨target, value⟩ := pair
  obtain ⟨ht, hv, counted, room, short⟩ := inv
  simp only [List.map_cons, Expr.sizeList_cons, List.length_cons] at ht hv room short
  have lengths : s.init.targets.length = s.init.values.length := by simp [ht.length, hv.length]
  have inside : k < s.init.targets.length := by simp [ht.length]
  have paid := (Expr.pays_reduce dead value target.ty).collapsed_le
  obtain ⟨targets, removed, without⟩ := ht.remove
  obtain ⟨values, removed', without'⟩ := hv.remove
  have erased := tryErase_eq lengths inside removed removed'
  rw [reducePairs] at ht hv counted without without'
  generalize rest : reducePairs dead pairs = r at ht hv counted without without'
  obtain ⟨left, n⟩ := r
  simp only [stripPair, ht.get, Checked.ok_bind, erased]
  by_cases mentions : target.mentions dead
  · simp only [mentions, if_true] at without without' counted ⊢
    exact ⟨false, _, rfl, by rw [rest]; exact without, by rw [rest]; exact without',
      by rw [rest]; exact counted, by dsimp only; omega, by simp; omega⟩
  · simp only [mentions, Bool.false_eq_true, if_false] at ht hv without without' counted ⊢
    rw [hv.get, Checked.ok_bind, h value target.ty s.state (by omega), Checked.ok_bind]
    cases kept : (value.reduce dead target.ty).rest with
    | none =>
      simp only [kept, Reduction.purged] at without without' counted ⊢
      exact ⟨false, _, rfl, by rw [rest]; exact without, by rw [rest]; exact without',
        by rw [rest, Purge.countCollapsed_countCollapsed]; exact counted,
        by rw [Purge.spent_countCollapsed]; omega, by simp; omega⟩
    | some value =>
      simp only [kept, Reduction.purged, List.map_cons] at ht hv counted ⊢
      obtain ⟨values, changed, next⟩ := hv.set
      rw [changed]
      exact ⟨true, _, rfl, by rw [rest]; exact ht.skip, by rw [rest]; exact next,
        by rw [rest, Purge.countCollapsed_countCollapsed]; exact counted,
        by rw [Purge.spent_countCollapsed]; omega, by simp; omega⟩

/-- The position and the pairs ahead make up the lists, so no position is past the end. -/
theorem Update.Strips.total (fits : bound < UInt64.size) {T V : List Expr} {q : Purge} {k : Nat}
    {pairs : List (Expr × Expr)} {s : Stripping} (inv : Strips dead bound T V q k pairs s) :
    s.init.targets.length = k + pairs.length ∧ s.init.targets.length < UInt64.size := by
  have length := inv.targets.length
  have short := inv.short
  rw [List.length_map] at length
  exact ⟨length, by omega⟩

/-- The run: an assignment is purged pair by pair as the plain purge does it. -/
theorem Update.tryPurge_eq (h : reduce.Follows dead bound) (fits : bound < UInt64.size)
    {u : Update} {p : Purge} (room : p.spent + u.size ≤ bound) :
    u.tryPurge reduce dead p = .ok (u.purge dead p) := by
  unfold Update.size at room
  unfold tryPurge Update.purge
  split
  · rename_i parallel
    have length : u.targets.length = u.values.length := by simpa [isParallel] using parallel
    have short := Expr.length_le_sizeList u.targets
    have start : Strips dead bound ((reducePairs dead (u.targets.zip u.values)).1.map (·.1))
        ((reducePairs dead (u.targets.zip u.values)).1.map (·.2))
        (p.countCollapsed (reducePairs dead (u.targets.zip u.values)).2) 0
        (u.targets.zip u.values) { init := u, state := p } := by
      refine ⟨?_, ?_, rfl, ?_, ?_⟩
      · rw [List.map_fst_zip length.le]
        exact .start _ _
      · rw [List.map_snd_zip length.ge]
        exact .start _ _
      · rw [List.map_snd_zip length.ge]
        dsimp only
        omega
      · rw [List.length_zip, length, Nat.min_self]
        omega
    obtain ⟨last, s, swept, done⟩ :=
      Checked.sweep_ok (fun inv => inv.total fits) (fun inv => inv.round h) start
    rw [List.length_zip, ← length, Nat.min_self] at swept
    rw [swept, Checked.ok_bind]
    have synced : s.init.sync = make s.init.targets s.init.values := rfl
    have counted : s.state = _ := done.counted
    rw [synced, done.targets.finish, done.values.finish, counted, List.isEmpty_map]
    rfl
  · rfl

/-- What a loop over the locals of a declaration keeps: with what is left of the locals that are to
come, locals, targets and values are the result, and so are the lost locals and the count. -/
structure VarDecl.Strips (dead : String) (bound : Nat) (locals : List Variable)
    (targets values : List Expr) (lost : List String) (q : Purge) (k : Nat)
    (pairs : List (Variable × Expr × Expr)) (s : Stripping) : Prop where
  locals : Checked.Reached k s.locals (pairs.map (·.1)) ((reduceLocals dead pairs).1.map (·.1))
    locals
  targets : Checked.Reached k s.init.targets (pairs.map (·.2.1))
    ((reduceLocals dead pairs).1.map (·.2.1)) targets
  values : Checked.Reached k s.init.values (pairs.map (·.2.2))
    ((reduceLocals dead pairs).1.map (·.2.2)) values
  lost : s.lost ++ (reduceLocals dead pairs).2.1 = lost
  counted : s.state.countCollapsed (reduceLocals dead pairs).2.2 = q
  room : s.state.spent + Expr.sizeList (pairs.map (·.2.2)) ≤ bound
  short : k + pairs.length ≤ bound

/-- One round: the local at hand keeps its value or loses it, and is noted as lost. -/
theorem VarDecl.Strips.round (h : reduce.Follows dead bound) {L : List Variable} {T V : List Expr}
    {lost : List String} {q : Purge} {k : Nat} {pair : Variable × Expr × Expr}
    {pairs : List (Variable × Expr × Expr)} {s : Stripping}
    (inv : Strips dead bound L T V lost q k (pair :: pairs) s) :
    ∃ kept s', stripLocal reduce s k = .ok (kept, s') ∧
      Strips dead bound L T V lost q (if kept then k + 1 else k) pairs s' := by
  obtain ⟨v, target, value⟩ := pair
  obtain ⟨hl, ht, hv, named, counted, room, short⟩ := inv
  simp only [List.map_cons, Expr.sizeList_cons, List.length_cons] at hl ht hv room short
  have lengths : s.init.targets.length = s.init.values.length := by simp [ht.length, hv.length]
  have inside : k < s.init.targets.length := by simp [ht.length]
  have paid := (Expr.pays_reduce dead value v.ty).collapsed_le
  obtain ⟨locals, removed, gone⟩ := hl.remove
  obtain ⟨targets, removed', gone'⟩ := ht.remove
  obtain ⟨values, removed'', gone''⟩ := hv.remove
  have erased := Update.tryErase_eq lengths inside removed' removed''
  simp only [stripLocal, hl.get, hv.get, Checked.ok_bind, h value v.ty s.state (by omega)]
  rw [reduceLocals] at hl ht hv named counted gone gone' gone''
  generalize rest : reduceLocals dead pairs = r at hl ht hv named counted gone gone' gone''
  obtain ⟨left, others, n⟩ := r
  cases kept : (value.reduce dead v.ty).rest with
  | none =>
    simp only [kept, Reduction.purged, removed, erased, Checked.ok_bind] at *
    exact ⟨false, _, rfl, by rw [rest]; exact gone, by rw [rest]; exact gone',
      by rw [rest]; exact gone'', by rw [rest]; simpa using named,
      by rw [rest, Purge.countCollapsed_countCollapsed]; exact counted,
      by rw [Purge.spent_countCollapsed]; omega, by simp; omega⟩
  | some value =>
    simp only [kept, Reduction.purged, List.map_cons] at *
    obtain ⟨values, changed, next⟩ := hv.set
    rw [changed]
    exact ⟨true, _, rfl, by rw [rest]; exact hl.skip, by rw [rest]; exact ht.skip,
      by rw [rest]; exact next, by rw [rest]; exact named,
      by rw [rest, Purge.countCollapsed_countCollapsed]; exact counted,
      by rw [Purge.spent_countCollapsed]; omega, by simp; omega⟩

/-- The position and the locals ahead make up the lists. -/
theorem VarDecl.Strips.total (fits : bound < UInt64.size) {L : List Variable} {T V : List Expr}
    {lost : List String} {q : Purge} {k : Nat} {pairs : List (Variable × Expr × Expr)}
    {s : Stripping} (inv : Strips dead bound L T V lost q k pairs s) :
    s.init.values.length = k + pairs.length ∧ s.init.values.length < UInt64.size := by
  have length := inv.values.length
  have short := inv.short
  rw [List.length_map] at length
  exact ⟨length, by omega⟩

/-- The run: a declaration is purged local by local as the plain purge does it. -/
theorem VarDecl.tryPurge_eq (h : reduce.Follows dead bound) (fits : bound < UInt64.size)
    (span : Span) {d : VarDecl} {p : Purge} (room : p.spent + d.size ≤ bound) :
    d.tryPurge reduce dead span p = .ok (d.purge dead span p) := by
  obtain ⟨locals, init⟩ := d
  cases init with
  | none => rfl
  | some init =>
    simp only [VarDecl.size, Update.size] at room
    simp only [tryPurge, VarDecl.purge]
    split
    · rename_i aligned
      simp only [isAligned, Update.isParallel, Bool.and_eq_true, beq_iff_eq] at aligned
      obtain ⟨paired, owned⟩ := aligned
      have short := Expr.length_le_sizeList init.targets
      obtain ⟨mapLocals, mapTargets, mapValues⟩ := map_zip_zip owned paired
      let r := reduceLocals dead (locals.zip (init.targets.zip init.values))
      have start : Strips dead bound (r.1.map (·.1)) (r.1.map (·.2.1)) (r.1.map (·.2.2)) r.2.1
          (p.countCollapsed r.2.2) 0 (locals.zip (init.targets.zip init.values))
          { locals, init, state := p } := by
        refine ⟨?_, ?_, ?_, rfl, rfl, ?_, ?_⟩
        · rw [mapLocals]
          exact .start _ _
        · rw [mapTargets]
          exact .start _ _
        · rw [mapValues]
          exact .start _ _
        · rw [mapValues]
          dsimp only
          omega
        · rw [← List.length_map (·.1), mapLocals]
          omega
      obtain ⟨last, s, swept, done⟩ :=
        Checked.sweep_ok (fun inv => inv.total fits) (fun inv => inv.round h) start
      rw [← List.length_map (·.2.2), mapValues] at swept
      rw [swept, Checked.ok_bind]
      have synced : s.init.sync = .make s.init.targets s.init.values := rfl
      have lost : s.lost = _ := (List.append_nil _).symm.trans done.lost
      have counted : s.state = _ := done.counted
      rw [synced, done.locals.finish, done.targets.finish, done.values.finish, counted, lost,
        List.isEmpty_map]
      rfl
    · split <;> rfl

/-- What a loop over the arguments of a `print` keeps. -/
structure Stmt.Strips (dead : String) (bound : Nat) (args : List Expr) (q : Purge) (k : Nat)
    (es : List Expr) (s : List Expr × Purge) : Prop where
  args : Checked.Reached k s.1 es (reduceArgs dead es).1 args
  counted : s.2.countCollapsed (reduceArgs dead es).2 = q
  room : s.2.spent + Expr.sizeList es ≤ bound
  short : k + es.length ≤ bound

/-- One round: the argument at hand is kept, reduced or taken out. -/
theorem Stmt.Strips.round (h : reduce.Follows dead bound) {args : List Expr} {q : Purge} {k : Nat}
    {e : Expr} {es : List Expr} {s : List Expr × Purge}
    (inv : Strips dead bound args q k (e :: es) s) :
    ∃ kept s', stripArg reduce s k = .ok (kept, s') ∧
      Strips dead bound args q (if kept then k + 1 else k) es s' := by
  obtain ⟨ha, counted, room, short⟩ := inv
  simp only [Expr.sizeList_cons, List.length_cons] at room short
  have paid := (Expr.pays_reduce dead e e.ty).collapsed_le
  obtain ⟨args, removed, gone⟩ := ha.remove
  simp only [stripArg, ha.get, Checked.ok_bind, h e e.ty s.2 (by omega)]
  rw [reduceArgs] at ha counted gone
  generalize rest : reduceArgs dead es = r at ha counted gone
  obtain ⟨left, n⟩ := r
  cases kept : (e.reduce dead e.ty).rest with
  | none =>
    simp only [kept, Reduction.purged, removed, Checked.ok_bind] at *
    exact ⟨false, _, rfl, by rw [rest]; exact gone,
      by rw [rest, Purge.countCollapsed_countCollapsed]; exact counted,
      by rw [Purge.spent_countCollapsed]; omega, by simp; omega⟩
  | some e =>
    simp only [kept, Reduction.purged] at *
    obtain ⟨args, changed, next⟩ := ha.set
    rw [changed]
    exact ⟨true, _, rfl, by rw [rest]; exact next,
      by rw [rest, Purge.countCollapsed_countCollapsed]; exact counted,
      by rw [Purge.spent_countCollapsed]; omega, by simp; omega⟩

/-- The run over the arguments of a `print`. -/
theorem Stmt.sweepArgs_eq (h : reduce.Follows dead bound) (fits : bound < UInt64.size)
    {args : List Expr} {p : Purge} (room : p.spent + Expr.sizeList args ≤ bound) :
    Checked.sweep (fun s : List Expr × Purge => s.1.length) (stripArg reduce) args.length
        (args, p) 0 =
      .ok ((reduceArgs dead args).1, p.countCollapsed (reduceArgs dead args).2) := by
  have short := Expr.length_le_sizeList args
  have start : Strips dead bound (reduceArgs dead args).1
      (p.countCollapsed (reduceArgs dead args).2) 0 args (args, p) :=
    ⟨.start _ _, rfl, room, by omega⟩
  obtain ⟨last, ⟨left, q⟩, swept, done⟩ := Checked.sweep_ok
    (fun inv => ⟨inv.args.length, by have := inv.args.length; have := inv.short; omega⟩)
    (fun inv => inv.round h) start
  have counted : q = _ := done.counted
  have args' : left = _ := done.args.finish
  rw [swept, counted, args']

/-- Behind what stands in front, a purger comes to what a purge of lists says, on lists no heavier
than `n` and as long as positions, counts and sizes stay within a bound. -/
def ListPurger.Follows (purger : ListPurger) (inner : ListPurge) (bound n : Nat) : Prop :=
  ∀ (front list : List Stmt) (p : Purge), Stmt.weightList list ≤ n →
    front.length + p.spent + Stmt.sizeList list ≤ bound →
      purger (front ++ list) front.length p = .ok (front ++ (inner list p).1, (inner list p).2)

/-- A purger that follows the plain purge does so from the start of a list. -/
theorem ListPurger.Follows.whole {purger : ListPurger} {inner : ListPurge} {n : Nat}
    (h : purger.Follows inner bound n) {list : List Stmt} {p : Purge}
    (light : Stmt.weightList list ≤ n) (room : p.spent + Stmt.sizeList list ≤ bound) :
    purger list 0 p = .ok (inner list p) :=
  h [] list p light (by rw [List.length_nil]; omega)

variable {purger : ListPurger} {inner : ListPurge} {n : Nat}

/-- A block light enough for the fuel is purged in its list. -/
theorem Block.tryPurge_eq (hi : purger.Follows inner bound n) {b : Block} {p : Purge}
    (light : b.weight ≤ n) (room : p.spent + b.size ≤ bound) :
    b.tryPurge purger p = .ok (b.purge inner p) := by
  obtain ⟨list, span⟩ := b
  rw [tryPurge, hi.whole light room]
  rfl

/-- So are the cases of a match, each with the room that those before it left. -/
theorem MatchCase.tryPurgeList_eq (hi : purger.Follows inner bound n) (paying : Paying inner)
    {cases : List MatchCase} {p : Purge} (light : weightList cases ≤ n)
    (room : p.spent + sizeList cases ≤ bound) :
    tryPurgeList dead purger cases p = .ok (purgeList inner dead cases p) := by
  induction cases generalizing p with
  | nil => rfl
  | cons c cases ih =>
    obtain ⟨pattern, body, span⟩ := c
    rw [weightList] at light
    rw [sizeList] at room
    rw [tryPurgeList, purgeList]
    split
    · rw [Checked.ok_bind]
      dsimp only
      rw [ih (by omega) (by omega)]
      rfl
    · have pays := (paying body p).pays
      rw [hi.whole (show Stmt.weightList body ≤ n by omega) (by omega), Checked.ok_bind]
      dsimp only
      rw [ih (by omega) (by omega)]
      rfl

mutual
/-- A statement light enough for the fuel is purged without breaking off. -/
theorem Stmt.tryPurge_eq (hr : reduce.Follows dead bound) (hi : purger.Follows inner bound n)
    (paying : Paying inner) (fits : bound < UInt64.size) : (s : Stmt) → ∀ p : Purge,
    s.weight ≤ n + 1 → p.spent + s.size ≤ bound →
      s.tryPurge reduce dead purger p = .ok (s.purge inner dead p)
  | ⟨kind, span, ghost⟩, p, light, room => by
    rw [Stmt.weight] at light
    rw [Stmt.size] at room
    rw [Stmt.tryPurge, StmtKind.tryPurge_eq hr hi paying fits span kind p (by omega) (by omega)]
    rfl

/-- One case per form: its expressions and its lists have room side by side. -/
theorem StmtKind.tryPurge_eq (hr : reduce.Follows dead bound) (hi : purger.Follows inner bound n)
    (paying : Paying inner) (fits : bound < UInt64.size) (span : Span) : (kind : StmtKind) →
    ∀ p : Purge, kind.weight ≤ n → p.spent + kind.size ≤ bound →
      kind.tryPurge reduce dead purger span p = .ok (kind.purge inner dead span p)
  | .varDecl d, p, light, room => by
    rw [StmtKind.tryPurge, d.tryPurge_eq hr fits span room]
    rfl
  | .update u, p, light, room => by
    rw [StmtKind.tryPurge, Update.tryPurge_eq hr fits room]
    rfl
  | .expr e, p, light, room => by
    rw [StmtKind.tryPurge, hr e e.ty p room]
    rfl
  | .ret values, p, light, room => by
    rw [StmtKind.tryPurge, Expr.tryReduceAll_eq (fun e _ p => hr e e.ty p) room]
    rfl
  | .print args, p, light, room => by
    rw [StmtKind.tryPurge, Stmt.sweepArgs_eq hr fits room]
    rfl
  | .assert _, p, _, _ | .assume _, p, _, _ | .breakLoop, p, _, _ | .continueLoop, p, _, _ => rfl
  | .ifElse guard thenBranch elseBranch, p, light, room => by
    rw [StmtKind.weight] at light
    rw [StmtKind.size] at room
    have paid := (Expr.pays_reduceOpt dead guard).collapsed_le
    rw [StmtKind.tryPurge, Expr.tryReduceOpt_eq hr (by omega), StmtKind.purge]
    cases left : (Expr.reduceOpt dead guard).rest with
    | none => simp [Reduction.purged, left]
    | some guard =>
      simp only [Reduction.purged, left, Checked.ok_bind]
      generalize first : p.countCollapsed _ = q
      have spent := congrArg Purge.spent first
      rw [Purge.spent_countCollapsed] at spent
      have pays := (Block.pays_purge paying thenBranch q).pays
      rw [Block.tryPurge_eq hi (by omega) (by omega), Checked.ok_bind]
      rw [Stmt.tryPurgeElse_eq hr hi paying fits elseBranch _ (by omega) (by omega)]
      rfl
  | .whileLoop guard invariants decreases body, p, light, room => by
    rw [StmtKind.size] at room
    have paid := (Expr.pays_reduceOpt dead guard).collapsed_le
    rw [StmtKind.tryPurge, Expr.tryReduceOpt_eq hr (by omega), StmtKind.purge]
    cases left : (Expr.reduceOpt dead guard).rest with
    | none => simp [Reduction.purged, left]
    | some guard =>
      simp only [Reduction.purged, left, Checked.ok_bind]
      rw [Block.tryPurge_eq hi light (by rw [Purge.spent_countCollapsed]; omega)]
      rfl
  | .forLoop index start stop ascending invariants body, p, light, room => by
    rw [StmtKind.size] at room
    have paid := (Expr.pays_reduce dead start start.ty).collapsed_le
    have paid' := (Expr.pays_reduceOpt dead stop).collapsed_le
    rw [StmtKind.tryPurge, hr start start.ty p (by omega), StmtKind.purge]
    cases left : (start.reduce dead start.ty).rest with
    | none => simp [Reduction.purged, Reduction.both, left]
    | some start' =>
      simp only [Reduction.purged, Reduction.both, left, Checked.ok_bind]
      rw [Expr.tryReduceOpt_eq hr (by rw [Purge.spent_countCollapsed]; omega)]
      cases left' : (Expr.reduceOpt dead stop).rest with
      | none => simp [Reduction.purged, left']
      | some stop' =>
        simp only [Reduction.purged, left', Checked.ok_bind, Option.map_some,
          Purge.countCollapsed_countCollapsed]
        split
        · rfl
        · rw [Block.tryPurge_eq hi light (by rw [Purge.spent_countCollapsed]; omega)]
          rfl
  | .block b, p, light, room => by
    rw [StmtKind.tryPurge, b.tryPurge_eq hi light room]
    rfl
  | .matchOn source cases, p, light, room => by
    rw [StmtKind.size] at room
    have paid := (Expr.pays_reduce dead source source.ty).collapsed_le
    rw [StmtKind.tryPurge, hr source source.ty p (by omega), StmtKind.purge]
    cases left : (source.reduce dead source.ty).rest with
    | none => simp [Reduction.purged, left]
    | some source =>
      simp only [Reduction.purged, left, Checked.ok_bind]
      rw [MatchCase.tryPurgeList_eq hi paying light (by rw [Purge.spent_countCollapsed]; omega)]
      rfl

/-- A branch is purged as a statement: by recursion along the chain. -/
theorem Stmt.tryPurgeElse_eq (hr : reduce.Follows dead bound) (hi : purger.Follows inner bound n)
    (paying : Paying inner) (fits : bound < UInt64.size) : (s : Option Stmt) → ∀ p : Purge,
    Stmt.weightOpt s ≤ n → p.spent + Stmt.sizeOpt s ≤ bound →
      Stmt.tryPurgeElse reduce dead purger s p = .ok (Stmt.purgeElse inner dead s p)
  | none, p, _, _ => rfl
  | some branch, p, light, room => by
    rw [Stmt.tryPurgeElse,
      Stmt.tryPurge_eq hr hi paying fits branch p (Nat.le_succ_of_le light) room]
    rfl
end

/-- What is left of a statement joins what stands in front. -/
theorem Purged.put_eq (r : Purged Stmt) (front : List Stmt) (s : Stmt) (list : List Stmt)
    (short : front.length + 1 < UInt64.size) (counts : r.counted.spent < UInt64.size) :
    r.put (front ++ s :: list) front.length =
      .ok (front ++ r.rest.toList ++ list, (front ++ r.rest.toList).length, r.counted) := by
  obtain ⟨rest, orphans, p⟩ := r
  cases rest with
  | none =>
    have deleted : p.spent + 1 = p.countDeleted.spent := by
      simp only [Purge.spent, Purge.countDeleted]
      omega
    simp only [Purged.counted, Option.isNone_none, if_true] at counts
    simp [put, Checked.remove_next front list s rfl, Purge.tryDelete_eq (deleted ▸ counts),
      Purged.counted]
  | some t =>
    simp [put, Checked.set_next front list s rfl, Checked.add_of_lt short, Purged.counted]

/-- The locals that fell are adopted one by one: their depth stays below a bound that can be
counted. -/
theorem Purge.tryAdopt_eq {limit : Nat} (bounded : limit < UInt64.size)
    {purge : String → Nat → ListPurger} {inner : String → Nat → ListPurge}
    (hp : ∀ name depth, (purge name depth).Follows (inner name depth) bound n)
    (paying : ∀ name depth, Paying (inner name depth)) (depth : Nat) (front : List Stmt)
    (orphans : List Orphan) {list : List Stmt} {p : Purge} (light : Stmt.weightList list ≤ n)
    (room : front.length + p.spent + Stmt.sizeList list ≤ bound) :
    tryAdopt limit purge depth front.length orphans (front ++ list) p =
      .ok (front ++ (adopt limit inner depth orphans list p).1,
        (adopt limit inner depth orphans list p).2) := by
  induction orphans generalizing list p with
  | nil => rfl
  | cons orphan orphans ih =>
    rw [tryAdopt, adopt]
    split
    · rfl
    · split
      · exact ih light room
      · have paid := paying orphan.1 (depth + 1) list (p.takeIn orphan)
        have lighter := paid.lighter
        have pays := paid.pays
        have taken : (p.takeIn orphan).spent = p.spent := rfl
        have inside : min front.length (front ++ list).length = front.length := by simp
        rw [Checked.add_of_lt (by omega), Checked.ok_bind, inside,
          hp orphan.1 (depth + 1) front list _ light (by omega), Checked.ok_bind]
        exact ih (by omega) (by omega)

/-- The purge of a list by position comes to what `Purge.purgeList` says. Induction on the weight
of the list: what is nested in its first statement is lighter, and so is what is left behind it. -/
theorem Purge.tryList_follows {limit : Nat} (bounded : limit < UInt64.size)
    {reduce : String → Reducer} (hr : ∀ dead, (reduce dead).Follows dead bound)
    (fits : bound < UInt64.size) (n : Nat) {rounds fuel : Nat} (enough : n < rounds)
    (enough' : n ≤ fuel) (dead : String) (depth : Nat) :
    (tryList limit reduce rounds dead depth).Follows (purgeList limit fuel dead depth) bound n := by
  induction n generalizing rounds fuel dead depth with
  | zero =>
    intro front list p light _
    cases list with
    | nil =>
      obtain ⟨rounds, rfl⟩ : ∃ k, rounds = k + 1 := ⟨rounds - 1, by omega⟩
      cases fuel <;> simp [tryList, purgeList]
    | cons s list =>
      have := s.weight_pos
      rw [Stmt.weightList] at light
      omega
  | succ n ih =>
    intro front list p light room
    obtain ⟨rounds, rfl⟩ : ∃ k, rounds = k + 1 := ⟨rounds - 1, by omega⟩
    obtain ⟨fuel, rfl⟩ : ∃ k, fuel = k + 1 := ⟨fuel - 1, by omega⟩
    cases list with
    | nil => simp [tryList, purgeList]
    | cons s list =>
      have inside : front.length < (front ++ s :: list).length := by simp
      cases going : p.exhausted with
      | true => simp [tryList, purgeList, going]
      | false =>
        rw [Stmt.weightList] at light
        rw [Stmt.sizeList] at room
        have weighs := s.weight_pos
        have sized := s.size_pos
        have inner := ih (show n < rounds by omega) (show n ≤ fuel by omega)
        have paying := Purge.paying_purgeList limit fuel
        obtain ⟨lighter, pays⟩ := Stmt.pays_purge dead (paying dead depth) s p
        have purged := Stmt.tryPurge_eq (hr dead) (inner dead depth) (paying dead depth) fits s p
          (by omega) (by omega)
        generalize same : s.purge (purgeList limit fuel dead depth) dead p = r
          at lighter pays purged
        have put := r.put_eq front s list (by omega) (by omega)
        have length := Stmt.length_le_sizeList r.rest.toList
        rw [Stmt.sizeList_toList] at length
        have room' : (front ++ r.rest.toList).length + r.counted.spent + Stmt.sizeList list ≤
            bound := by
          rw [List.length_append]
          omega
        have adopted := tryAdopt_eq bounded inner paying depth (front ++ r.rest.toList) r.orphans
          (show Stmt.weightList list ≤ n by omega) room'
        obtain ⟨lighter', pays'⟩ := paying_adopt limit depth paying r.orphans list r.counted
        generalize hx : adopt limit (purgeList limit fuel) depth r.orphans list r.counted = x
          at adopted lighter' pays'
        have later := inner dead depth (front ++ r.rest.toList) x.1 x.2 (by omega) (by omega)
        rw [tryList, if_pos (by simp [going]), Checked.get_next front list s rfl, Checked.ok_bind,
          purged, Checked.ok_bind, put, Checked.ok_bind, purgeList_cons going same hx rfl]
        dsimp only
        rw [adopted, Checked.ok_bind]
        dsimp only
        split
        · simp
        · rw [later]
          simp

/-- A pair is erased without breaking off, also where the lists differ in length. -/
theorem Update.tryErase_erasePair (u : Update) (k : Nat) : u.tryErase k = .ok (u.erasePair k) := by
  unfold tryErase erasePair
  split
  · rename_i inside
    simp only [isParallel, Bool.and_eq_true, beq_iff_eq, decide_eq_true_eq] at inside
    rw [Checked.remove_of_lt inside.2, Checked.remove_of_lt (inside.1 ▸ inside.2)]
    rfl
  · rfl

/-- So is a local of a declaration. -/
theorem VarDecl.tryDrop_eq (name : String) (d : VarDecl) : d.tryDrop name = .ok (d.drop name) := by
  obtain ⟨locals, init⟩ := d
  cases found : locals.findIdx? fun v => v.name == name with
  | none => simp only [tryDrop, drop, found]
  | some k =>
    have inside : k < locals.length := (List.findIdx?_eq_some_iff_getElem.1 found).1
    cases init with
    | none => simp [tryDrop, drop, found, Checked.remove_of_lt inside]
    | some init =>
      simp only [tryDrop, drop, found, Checked.remove_of_lt inside, Update.tryErase_erasePair]
      split <;> rfl

/-- What a deletion does first, and what it does then. -/
theorem Stmt.exists_tryDrop (name : String) (s : Stmt) :
    ∃ r : Purged Stmt, s.tryDrop name = .ok r ∧ r.state.spent = 0 ∧
      ∀ (limit : Nat) (list : List Stmt),
        let x := Purge.purgeList limit (Stmt.weightList list) name 0 list r.counted
        let y :=
          Purge.adopt limit (Purge.purgeList limit (Stmt.weightList list)) 0 r.orphans x.1 x.2
        Purge.deleteLocal limit name s list = (r.rest.toList ++ y.1, y.2) := by
  obtain ⟨kind, span, ghost⟩ := s
  cases kind with
  | varDecl d =>
    exact ⟨_, by simp only [tryDrop, VarDecl.tryDrop_eq, Checked.ok_bind]; rfl, rfl,
      fun limit list => rfl⟩
  | _ => exact ⟨_, rfl, rfl, fun limit list => rfl⟩

/-- A statement stays or is counted. -/
theorem Purged.length_add_counted {α : Type} (r : Purged α) :
    r.rest.toList.length + r.counted.spent = r.state.spent + 1 := by
  obtain ⟨rest, orphans, p⟩ := r
  cases rest with
  | none =>
    simp only [Purged.counted, Option.isNone_none, if_true, Purge.spent, Purge.countDeleted,
      Option.toList_none, List.length_nil]
    omega
  | some a =>
    simp only [Purged.counted, Option.isNone_some, Bool.false_eq_true, if_false,
      Option.toList_some, List.length_singleton]
    omega

/-- The run: a local is deleted with everything that depends on it. -/
theorem Purge.tryDeleteLocal_eq {limit : Nat} (bounded : limit < UInt64.size)
    (fits : bound < UInt64.size) (name : String) (before : List Stmt) (s : Stmt) (after : List Stmt)
    (room : before.length + s.size + Stmt.sizeList after ≤ bound) :
    tryDeleteLocal bound limit name (before ++ s :: after) before.length =
      .ok (before ++ (deleteLocal limit name s after).1, (deleteLocal limit name s after).2) := by
  have sized := s.size_pos
  have light : Stmt.weightList after < Stmt.weightList (before ++ s :: after) + 1 := by
    rw [Stmt.weightList_append, Stmt.weightList]
    omega
  have follows := tryList_follows bounded (fun dead => Expr.tryReduce_follows dead fits) fits
    (Stmt.weightList after) light (Nat.le_refl _)
  have paying := paying_purgeList limit (Stmt.weightList after)
  obtain ⟨r, dropped, fresh, deleted⟩ := s.exists_tryDrop name
  have counts := r.length_add_counted
  have room' :
      (before ++ r.rest.toList).length + r.counted.spent + Stmt.sizeList after ≤ bound := by
    rw [List.length_append]
    omega
  obtain ⟨lighter, pays⟩ := paying name 0 after r.counted
  have purged := follows name 0 (before ++ r.rest.toList) after r.counted (Nat.le_refl _) room'
  have adopted := tryAdopt_eq bounded follows paying 0 (before ++ r.rest.toList) r.orphans
    (p := (purgeList limit (Stmt.weightList after) name 0 after r.counted).2) lighter (by omega)
  rw [tryDeleteLocal, Checked.get_next before after s rfl, Checked.ok_bind, dropped,
    Checked.ok_bind, r.put_eq before s after (by omega) (by omega), Checked.ok_bind, deleted]
  dsimp only
  rw [purged, Checked.ok_bind]
  dsimp only
  rw [adopted]
  simp

end

/-- The position of the first member that passes a test is the length of what is in front of it. -/
theorem findIdx?_eq_splitAtFirst {α : Type} (p : α → Bool) (list : List α) :
    list.findIdx? p = (splitAtFirst p list).map fun (before, _, _) => before.length := by
  induction list with
  | nil => rfl
  | cons a list ih =>
    rw [List.findIdx?_cons, splitAtFirst, ih]
    split
    · rfl
    · simp [Function.comp_def]

/-- The deletion of a local from a list comes to what `Stmt.deleteVariable` says, where the list
and the limit fit a word. -/
theorem Stmt.tryDeleteVariable_eq {site : Site} (bounded : site.cascadeLimit < UInt64.size)
    (name : String) {list : List Stmt} (fits : Stmt.sizeList list < UInt64.size) :
    Stmt.tryDeleteVariable site name list = .ok (Stmt.deleteVariable site name list) := by
  rw [tryDeleteVariable, deleteVariable, findIdx?_eq_splitAtFirst]
  cases found : splitAtFirst (fun s => site.isTarget s.span && s.declares.contains name) list with
  | none => rfl
  | some parts =>
    obtain ⟨before, s, after⟩ := parts
    obtain ⟨rfl, -⟩ := splitAtFirst_eq_some found
    have length := Stmt.length_le_sizeList before
    have deleted := Purge.tryDeleteLocal_eq bounded fits name before s after
      (by rw [Stmt.sizeList_append, Stmt.sizeList]; omega)
    simp only [Option.map_some, Checked.get_next before after s rfl, Checked.ok_bind, deleted]
    split <;> rfl

end Mutation
