import Mutation.Proofs.CheckedEdit
import Mutation.Proofs.CheckedSurvey
import Mutation.Scan

/-!
# Scanning by position

A scan goes through its nodes in order, but what a node suggests it finds out by position: pairs of
declarations and of methods are made of an element and a slice of what stands behind it, the names
declared between two declarations come from another slice, the default case of a match is looked
up, and the two middle characters of a text change places. The scan is here as it does that.
Positions are counted from the lists themselves, so it never breaks off and proposes what the scan
proposes (`Module.tryScan_eq`).
-/

namespace Mutation

namespace Checked

variable {α β : Type}

/-- What the elements of a list yield, one after the other. -/
def collect (f : α → Checked (List β)) : List α → Checked (List β)
  | [] => .ok []
  | a :: list => do return (← f a) ++ (← collect f list)

/-- What the elements of a list yield, from a position on, each with every element behind it. The
elements behind are a slice of the list. -/
def pairs (f : α → α → Checked (List β)) (list : List α) : List α → Nat → Checked (List β)
  | [], _ => .ok []
  | a :: rest, index => do
    let behind ← slice list (← add index 1) list.length
    return (← collect (f a) behind) ++ (← pairs f list rest (index + 1))

theorem collect_ok {f : α → Checked (List β)} {g : α → List β} {list : List α}
    (h : ∀ a ∈ list, f a = .ok (g a)) : collect f list = .ok (list.flatMap g) := by
  induction list with
  | nil => rfl
  | cons a list ih =>
    obtain ⟨ha, hlist⟩ := List.forall_mem_cons.1 h
    rw [collect, ha, ih hlist]
    rfl

theorem slice_between (front middle rest : List α) {start stop : Nat} (hs : start = front.length)
    (ht : stop = start + middle.length) :
    slice (front ++ middle ++ rest) start stop = .ok middle := by
  subst hs ht
  rw [slice_of_le (Nat.le_add_right _ _) (by simp), ← List.length_append, List.take_left,
    List.drop_left]

/-- A round of `pairs`: the slice is what is left of the list. -/
theorem pairs_next (f : α → α → Checked (List β)) {list front rest : List α} {a : α} {index : Nat}
    (whole : list = front ++ a :: rest) (h : index = front.length)
    (fits : list.length < UInt64.size) :
    pairs f list (a :: rest) index =
      (do return (← collect (f a) rest) ++ (← pairs f list rest (index + 1))) := by
  have length : list.length = index + 1 + rest.length := by
    rw [whole, h, List.length_append, List.length_cons]
    omega
  have behind : slice list (index + 1) list.length = .ok rest := by
    have split : list = (front ++ [a]) ++ rest ++ [] := by simp [whole]
    rw [length]
    nth_rewrite 1 [split]
    exact slice_between _ _ _ (by simp [h]) rfl
  rw [pairs, add_of_lt (by omega), ok_bind, behind, ok_bind]

end Checked

/-!
## Lists
-/

namespace Stmt

/-- The declaration can take part in an exchange of initializers. -/
def tryExchangeable (s : Stmt) : Checked (Option (Variable × Expr)) :=
  if s.ghost then .ok none
  else do return (← s.trySimpleDecl).filter fun (v, _) => !v.ghost && v.ty.isPrimitive

/-- The declarations that can take part in an exchange, with their positions. -/
def tryDecls (list : List Stmt) : Checked (List (Nat × Variable × Expr)) :=
  Checked.collect
    (fun (s, i) => do return ((← s.tryExchangeable).map fun d => (i, d)).toList) list.zipIdx

/-- The proposal to exchange the initializers of two declarations at their positions. -/
def tryExchange (list : List Stmt) :
    Nat × Variable × Expr → Nat × Variable × Expr → Checked (List Candidate)
  | (i, first), (j, second) =>
    if first.1.ty = second.1.ty then do
      let between ← Checked.slice list i j
      if (between.flatMap declares).any fun n => second.2.mentions n then return []
      else if first.2.mentions second.1.name then return []
      else
        let other ← Checked.get list j
        let own ← Checked.get list i
        return View.atRange own.span .initializerSwap [other.span.rangeLocation.text]
    else return []

/-- Proposals to exchange initializers in a list. -/
def tryExchanges (list : List Stmt) : Checked (List Candidate) := do
  let decls ← tryDecls list
  Checked.pairs (tryExchange list) decls decls 0

/-- The declarations that can take part in an exchange, with their positions from `index` on. -/
def decls (list : List Stmt) (index : Nat) : List (Nat × Variable × Expr) :=
  (list.zipIdx index).flatMap fun (s, i) => (s.exchangeable?.map fun d => (i, d)).toList

theorem tryExchangeable_eq (s : Stmt) : s.tryExchangeable = .ok s.exchangeable? := by
  unfold tryExchangeable exchangeable?
  rw [trySimpleDecl_eq]
  split <;> rfl

theorem tryDecls_eq (list : List Stmt) : tryDecls list = .ok (decls list 0) :=
  Checked.collect_ok fun found _ => by simp only [tryExchangeable_eq]; rfl

@[simp] theorem decls_cons (s : Stmt) (list : List Stmt) (index : Nat) :
    decls (s :: list) index =
      (s.exchangeable?.map fun d => (index, d)).toList ++ decls list (index + 1) := by
  simp [decls, List.zipIdx_cons]

theorem length_decls_le (list : List Stmt) (index : Nat) :
    (decls list index).length ≤ list.length := by
  induction list generalizing index with
  | nil => exact Nat.le_refl 0
  | cons s list ih =>
    have := ih (index + 1)
    rw [decls_cons, List.length_append, List.length_cons]
    cases s.exchangeable? with
    | none => simp; omega
    | some d => simp; omega

section

variable {list front mid rest : List Stmt} {s t : Stmt} {first second : Variable × Expr}
  {i j : Nat}

/-- The statements from the one declaration up to the other are where the slice is taken. -/
theorem tryExchange_eq (whole : list = front ++ s :: mid ++ t :: rest) (hi : i = front.length)
    (hj : j = i + (s :: mid).length) : tryExchange list (i, first) (j, second) =
      .ok (View.atRange s.span .initializerSwap
        (View.argumentIf (mayExchange first second ((s :: mid).flatMap declares))
          t.span.rangeLocation.text)) := by
  have between : Checked.slice list i j = .ok (s :: mid) := by
    rw [whole]
    exact Checked.slice_between _ _ _ hi hj
  have own : Checked.get list i = .ok s := by
    rw [whole, List.append_assoc, List.cons_append]
    exact Checked.get_next _ _ _ hi
  have other : Checked.get list j = .ok t := by
    rw [whole]
    exact Checked.get_next _ _ _ (by rw [hj, hi, List.length_append])
  simp only [tryExchange, between, own, other, Checked.ok_bind, Checked.pure_eq, mayExchange]
  by_cases same : first.1.ty = second.1.ty
  · rw [if_pos same]
    cases ((s :: mid).flatMap declares).any fun n => second.2.mentions n <;>
      cases first.2.mentions second.1.name <;> simp [same, View.argumentIf, View.atRange]
  · simp [same, View.argumentIf, View.atRange]

theorem collect_tryExchange (whole : list = front ++ s :: mid ++ rest) (hi : i = front.length)
    (hj : j = i + (s :: mid).length) :
    Checked.collect (tryExchange list (i, first)) (decls rest j) =
      .ok (exchangesWith s.span first ((s :: mid).flatMap declares) rest) := by
  -- by induction on the statements behind `j`; what is passed goes to `mid`, whose names are the
  -- ones `exchangesWith` has gathered
  induction rest generalizing mid j with
  | nil => rfl
  | cons t rest ih =>
    have later := ih (show list = front ++ s :: (mid ++ [t]) ++ rest by simp [whole])
      (show j + 1 = i + (s :: (mid ++ [t])).length by simp [hj]; omega)
    have names : (s :: (mid ++ [t])).flatMap declares =
        (s :: mid).flatMap declares ++ t.declares := by
      simp
    rw [names] at later
    rw [decls_cons, exchangesWith]
    cases t.exchangeable? with
    | none => simpa using later
    | some second =>
      rw [Option.map_some, Option.toList_some, List.singleton_append, Checked.collect,
        tryExchange_eq whole hi hj, later]
      rfl

end

theorem pairs_tryExchange {list front rest : List Stmt} {before all : List (Nat × Variable × Expr)}
    {i k : Nat} (whole : list = front ++ rest) (hi : i = front.length)
    (found : all = before ++ decls rest i) (hk : k = before.length)
    (fits : all.length < UInt64.size) :
    Checked.pairs (tryExchange list) all (decls rest i) k = .ok (exchanges rest) := by
  -- two positions go along: `i` in the list, and `k` among the declarations found in it
  induction rest generalizing front before i k with
  | nil => rfl
  | cons s rest ih =>
    have next : list = front ++ [s] ++ rest := by simp [whole]
    have position : i + 1 = (front ++ [s]).length := by simp [hi]
    rw [exchanges]
    cases h : s.exchangeable? with
    | none =>
      rw [decls_cons, h] at found ⊢
      simpa using ih next position found hk
    | some first =>
      rw [decls_cons, h, Option.map_some, Option.toList_some, List.singleton_append] at found ⊢
      have row : Checked.collect (tryExchange list (i, first)) (decls rest (i + 1)) =
          .ok (exchangesWith s.span first s.declares rest) := by
        have split : list = front ++ s :: [] ++ rest := by simp [whole]
        simpa using collect_tryExchange split hi rfl
      have later := ih next position
        (show all = (before ++ [(i, first)]) ++ _ by simpa using found)
        (show k + 1 = _ by simp [hk])
      rw [Checked.pairs_next _ found hk fits, row, later]
      rfl

theorem tryExchanges_eq {list : List Stmt} (fits : list.length < UInt64.size) :
    tryExchanges list = .ok (exchanges list) := by
  rw [tryExchanges, tryDecls_eq, Checked.ok_bind]
  exact pairs_tryExchange (List.nil_append list).symm rfl (List.nil_append _).symm rfl
    (Nat.lt_of_le_of_lt (length_decls_le list 0) fits)

end Stmt

namespace Member

/-- The proposal to exchange the bodies of two methods. -/
def tryExchange (first second : Method) : Checked (List Candidate) :=
  .ok (View.atRange first.span .bodySwap
    (View.argumentIf (first.sameFormalsAs second) second.name))

/-- Proposals to exchange the bodies of methods. -/
def tryExchanges (ms : List Member) : Checked (List Candidate) :=
  let methods := ms.filterMap exchangeable?
  Checked.pairs tryExchange methods methods 0

theorem collect_tryExchange (first : Method) (list : List Method) :
    Checked.collect (tryExchange first) list =
      .ok (View.atRange first.span .bodySwap
        ((list.filter first.sameFormalsAs).map (·.name))) := by
  induction list with
  | nil => rfl
  | cons second list ih =>
    rw [Checked.collect, ih, List.filter_cons]
    simp only [tryExchange, Checked.ok_bind, Checked.pure_eq, View.argumentIf]
    split <;> rfl

theorem pairs_tryExchange {ms : List Member} {before all : List Method} {k : Nat}
    (found : all = before ++ ms.filterMap exchangeable?) (hk : k = before.length)
    (fits : all.length < UInt64.size) :
    Checked.pairs tryExchange all (ms.filterMap exchangeable?) k = .ok (exchanges ms) := by
  induction ms generalizing before k with
  | nil => rfl
  | cons m ms ih =>
    rw [exchanges]
    cases h : m.exchangeable? with
    | none =>
      rw [List.filterMap_cons_none h] at found ⊢
      exact ih found hk
    | some first =>
      rw [List.filterMap_cons_some h] at found ⊢
      have later := ih (show all = (before ++ [first]) ++ _ by simpa using found)
        (show k + 1 = _ by simp [hk])
      rw [Checked.pairs_next _ found hk fits, collect_tryExchange, later]
      rfl

theorem tryExchanges_eq {ms : List Member} (fits : ms.length < UInt64.size) :
    tryExchanges ms = .ok (exchanges ms) :=
  pairs_tryExchange (List.nil_append _).symm rfl
    (Nat.lt_of_le_of_lt (List.length_filterMap_le _ _) fits)

end Member

/-!
## Nodes
-/

namespace Stmt

/-- The default case reads none of its bindings. -/
def tryFree (cases : List MatchCase) : Checked Bool :=
  match MatchCase.defaultIdx? cases with
  | none => .ok false
  | some default => do return (← Checked.get cases default).readsNoBinding

/-- Proposals for a match. -/
def tryMatchProposals (span : Span) (cases : List MatchCase) : Checked (List Candidate) := do
  let free ← tryFree cases
  let named := cases.zipIdx.filterMap fun (c, i) =>
    match c.pattern.ctor? with
    | some ctor =>
      if MatchCase.ctorIdx? cases ctor = some i && c.readsNoBinding then some ctor else none
    | none => none
  let kept := (cases.zipIdx.filter fun (c, _) => c.readsNoBinding).map fun (_, i) =>
    Text.natText i
  return View.atRange span .caseReplacement (if free then named else []) ++
    View.atRange span .caseExtraction kept

/-- Proposals for an element of a statement list. -/
def tryProposals (s : Stmt) : Checked (List Candidate) :=
  match s.kind with
  | .matchOn _ cases => do
    return View.atRange s.span .statementDeletion [""] ++ (← tryMatchProposals s.span cases)
  | _ => .ok s.proposals

theorem tryFree_eq (cases : List MatchCase) : tryFree cases =
    .ok (((MatchCase.defaultIdx? cases).bind (cases[·]?)).any MatchCase.readsNoBinding) := by
  unfold tryFree
  cases h : MatchCase.defaultIdx? cases with
  | none => rfl
  | some default =>
    have found := List.getElem?_eq_getElem (List.findIdx?_eq_some_iff_getElem.1 h).1
    simp [Checked.get_of_getElem? found, found]

theorem tryMatchProposals_eq (span : Span) (cases : List MatchCase) :
    tryMatchProposals span cases = .ok (matchProposals span cases) := by
  rw [tryMatchProposals, tryFree_eq]
  rfl

theorem tryProposals_eq (s : Stmt) : s.tryProposals = .ok s.proposals := by
  obtain ⟨kind, span, ghost⟩ := s
  cases kind with
  | matchOn source cases =>
    simp only [tryProposals, tryMatchProposals_eq, Checked.ok_bind, Checked.pure_eq]
    rfl
  | _ => rfl

end Stmt

namespace Literal

/-- A text with its two middle characters exchanged. -/
def tryScramble (s : String) : Checked String := do
  let cs := s.toList
  if cs.length < 2 then return String.ofList cs
  else
    let mid := cs.length / 2
    return String.ofList (← Checked.swap cs (← Checked.sub mid 1) mid)

/-- The values proposed in place of a literal of type `ty`, in order. -/
def tryReplacements (l : Literal) (ty : Ty) (sentinel : String) : Checked (List Literal) :=
  match l with
  | .string s =>
    if s.isEmpty then .ok [.string sentinel]
    else do
      let scrambled ← tryScramble s
      return (if scrambled = s then [""] else ["", scrambled]).map .string
  | l => .ok (l.replacements ty sentinel)

theorem tryScramble_eq (s : String) : tryScramble s = .ok (scramble s) := by
  unfold tryScramble scramble
  by_cases short : s.toList.length < 2
  · simp only [if_pos short, Checked.pure_eq]
  · have first := List.getElem?_eq_getElem (show s.toList.length / 2 - 1 < s.toList.length by omega)
    have second := List.getElem?_eq_getElem (show s.toList.length / 2 < s.toList.length by omega)
    simp only [if_neg short, Checked.sub_of_le (show 1 ≤ s.toList.length / 2 by omega),
      Checked.swap_of_getElem? first second, swapAt, first, second, Checked.ok_bind,
      Checked.pure_eq]

theorem tryReplacements_eq (l : Literal) (ty : Ty) (sentinel : String) :
    l.tryReplacements ty sentinel = .ok (l.replacements ty sentinel) := by
  cases l with
  | string s =>
    simp only [tryReplacements, replacements, stringReplacements, tryScramble_eq]
    split
    · rfl
    · rfl
  | _ => rfl

end Literal

namespace View

variable (v : View)

/-- The pairs of arguments with one type; behind each argument the earlier ones are skipped. -/
def tryEqualPairs (args : List Expr) : Checked (List String) :=
  Checked.collect
    (fun (a, i) => do
      let behind := args.zipIdx.drop (← Checked.add i 1)
      return (behind.filter fun (b, _) => a.ty = b.ty).map fun (_, j) =>
        Text.natText i ++ ";" ++ Text.natText j)
    args.zipIdx

/-- Proposals for a call; one that is a statement of its own has no value to replace. -/
def tryCall (e : Expr) (receiver : Option Expr) (method : String) (args : List Expr) :
    Checked (List Candidate) := do
  let used := !v.isBare e.span
  let fitting := (args.zipIdx.filter fun (a, _) => a.ty.fits e.ty).map fun (_, i) => Text.natText i
  let callees :=
    match Expr.calleeOwner? v.enclosingType receiver with
    | some owner => v.declarations.compatibleCallables owner method
    | none => []
  return atRange e.span .argumentPropagation (if used then fitting else []) ++
    atRange e.span .receiverPropagation
      (argumentIf (used && receiver.any fun r => r.ty.fits e.ty) "") ++
    atRange e.span .calleeReplacement callees ++
    atRange e.span .argumentSwap (← tryEqualPairs args)

/-- Proposals by the shape of an expression. -/
def tryShape (e : Expr) : Checked (List Candidate) :=
  match e.kind with
  | .literal l => do
    let values ← l.tryReplacements e.ty v.sentinel
    return atAnchor e .literalReplacement (values.map Literal.text)
  | .call r method args => v.tryCall e r method args
  | _ => .ok (v.shape e)

/-- Proposals for an expression. -/
def tryExpr (e : Expr) : Checked (List Candidate) := do
  return (← v.tryShape e) ++ v.default e

/-- The elements behind a position are those whose index is larger. -/
theorem filter_behind {α : Type} (p : α → Bool) (list : List α) (start i : Nat) :
    ((list.zipIdx start).filter fun (b, j) => i < j && p b) =
      ((list.zipIdx start).drop (i + 1 - start)).filter fun (b, _) => p b := by
  induction list generalizing start with
  | nil => simp
  | cons a list ih =>
    rw [List.zipIdx_cons, List.filter_cons, ih]
    by_cases behind : i < start
    · simp [behind, show i + 1 - start = 0 by omega, show i + 1 - (start + 1) = 0 by omega,
        List.filter_cons]
    · obtain ⟨n, hn⟩ : ∃ n, i + 1 - start = n + 1 := ⟨i - start, by omega⟩
      simp [behind, hn, show i + 1 - (start + 1) = n by omega]

theorem tryEqualPairs_eq {args : List Expr} (fits : args.length < UInt64.size) :
    tryEqualPairs args = .ok (equalPairs args) := by
  refine Checked.collect_ok fun (a, i) h => ?_
  have inside : i < args.length := (List.mem_zipIdx' h).1
  have behind := filter_behind (fun b : Expr => decide (a.ty = b.ty)) args 0 i
  simp only [Checked.add_of_lt (show i + 1 < UInt64.size by omega), Checked.ok_bind,
    Checked.pure_eq]
  rw [behind]
  rfl

theorem tryShape_eq {e : Expr} (fits : e.size < UInt64.size) :
    v.tryShape e = .ok (v.shape e) := by
  obtain ⟨kind, span, ty⟩ := e
  cases kind with
  | literal l =>
    simp only [tryShape, Literal.tryReplacements_eq, Checked.ok_bind, Checked.pure_eq]
    rfl
  | call r method args =>
    have short : args.length < UInt64.size := by
      have parts := Expr.length_le_sizeList args
      rw [Expr.size_eq] at fits
      simp only [ExprKind.parts, Expr.sizeList_append] at fits
      omega
    simp only [tryShape, tryCall, tryEqualPairs_eq short, Checked.ok_bind, Checked.pure_eq]
    rfl
  | _ => rfl

theorem tryExpr_eq {e : Expr} (fits : e.size < UInt64.size) : v.tryExpr e = .ok (v.expr e) := by
  rw [tryExpr, v.tryShape_eq fits]
  rfl

end View

/-!
## The scan
-/

namespace Scan

/-- The scan behind the start of a node. -/
def tryEnter (o : ScanOptions) (node : Node) (s : Scan) : Checked Scan :=
  match node with
  | .stmt st =>
    let s := s.enterStmt st
    if s.isChained st.span then .ok s else do return s.emit o (← st.tryProposals)
  | .expr e => do return s.emit o (← s.view.tryExpr e)
  | node => .ok (s.enter o node)

/-- The walk of a scan over expressions. -/
def tryExprSurvey (o : ScanOptions) : Survey (Checked Scan) where
  visit node r := Checked.hook .proceed (r.bind (tryEnter o node))
  leave node r := r.map (leave node)

/-- The walk of a scan. -/
def trySurvey (o : ScanOptions) : Survey (Checked Scan) where
  visit node r := Checked.hook .proceed (r.bind (tryEnter o node))
  leave node r := r.map (leave node)
  target e r :=
    match e.kind with
    | .index _ i => Checked.hook .skip ((tryExprSurvey o).expr i r).value
    | _ => (.skip, r)
  stmtList list r := Checked.hook .proceed do return (← r).emit o (← Stmt.tryExchanges list)
  memberList list r := Checked.hook .proceed do return (← r).emit o (← Member.tryExchanges list)

theorem tryEnter_eq (o : ScanOptions) {node : Node} (fits : node.size < UInt64.size) (s : Scan) :
    tryEnter o node s = .ok (s.enter o node) := by
  cases node with
  | stmt st =>
    simp only [tryEnter, enter, Stmt.tryProposals_eq, Checked.ok_bind, Checked.pure_eq]
    split <;> rfl
  | expr e =>
    rw [tryEnter, View.tryExpr_eq _ fits]
    rfl
  | _ => rfl

variable (o : ScanOptions) {bound : Nat} (fits : bound < UInt64.size)

include fits

theorem tryExprSurvey_carries : (tryExprSurvey o).Carries (exprSurvey o) bound where
  worth _ _ := rfl
  specifications _ := rfl
  ghost _ := rfl
  enter _ _ := rfl
  exit _ _ := rfl
  visit node s small := by
    simp only [tryExprSurvey, Except.bind, tryEnter_eq o (Nat.lt_of_le_of_lt small fits)]
    rfl
  leave _ _ := rfl
  target _ _ _ := rfl
  stmtList _ _ _ := rfl
  memberList _ _ _ := rfl

theorem trySurvey_carries : (trySurvey o).Carries (survey o) bound where
  worth _ _ := rfl
  specifications _ := rfl
  ghost _ := rfl
  enter _ _ := rfl
  exit _ _ := rfl
  visit node s small := by
    simp only [trySurvey, Except.bind, tryEnter_eq o (Nat.lt_of_le_of_lt small fits)]
    rfl
  leave _ _ := rfl
  target e s small := by
    obtain ⟨kind, span, ty⟩ := e
    cases kind with
    | index q i =>
      have inner : i.size ≤ bound :=
        Nat.le_trans (Nat.le_of_lt (Expr.size_lt_of_part (by simp [ExprKind.parts]))) small
      have walked := (tryExprSurvey_carries o fits).expr inner s
      simp only [trySurvey, survey, walked, Flow.value_map]
      rfl
    | _ => rfl
  stmtList list s small := by
    have short : list.length < UInt64.size :=
      Nat.lt_of_le_of_lt (Nat.le_trans (Stmt.length_le_sizeList list) small) fits
    simp only [trySurvey, Stmt.tryExchanges_eq short]
    rfl
  memberList list s small := by
    have short : list.length < UInt64.size :=
      Nat.lt_of_le_of_lt (Nat.le_trans (Member.length_le_sizeList list) small) fits
    simp only [trySurvey, Member.tryExchanges_eq short]
    rfl

end Scan

/-- The candidates of a module, in walk order. -/
def Module.tryScan (m : Module) (o : ScanOptions) : Checked (List Candidate) := do
  let start : Scan := { view := { declarations := m.declarations, sentinel := o.sentinel } }
  let s ← ((Scan.trySurvey o).module m (.ok start)).value
  return s.candidates

theorem Module.tryScan_eq {m : Module} (fits : m.size < UInt64.size) (o : ScanOptions) :
    m.tryScan o = .ok (m.scan o) := by
  have walked := (Scan.trySurvey_carries o fits).module (Nat.le_refl m.size)
  simp only [tryScan, scan, walked, Flow.value_map]
  rfl

/-- Neither a scan of a module nor a request on it breaks off, whatever the spans in it are, however
its lists and its copies go together, and whatever is asked for: by position both come to what they
come to here. The module only has to fit into memory. -/
theorem Module.engine_unbroken {m : Module} (fits : m.size < UInt64.size) (o : ScanOptions)
    (r : Request) (cascadeLimit : UInt64) :
    m.tryScan o = .ok (m.scan o) ∧
      m.tryMutate r cascadeLimit = .ok (m.mutate r cascadeLimit.toNat) :=
  ⟨m.tryScan_eq fits o, m.tryMutate_eq fits r cascadeLimit⟩

/-- A module in which nothing goes together: ranges end before they start and anchors lie outside
of them, a declaration has one value for two locals and a copy of something else, and a component
is read that a tuple does not have. -/
def Module.crooked : Module :=
  let a : Variable := { name := "a", ty := .int, span := ⟨9, 4, 40⟩ }
  let value : Expr := ⟨.name "t", ⟨7, 7, 3⟩, .tuple [.int]⟩
  let component : Expr := ⟨.tupleIndex ⟨.name "a", ⟨8, 6, 0⟩, .tuple [.int]⟩ 7, ⟨6, 5, 9⟩, .int⟩
  ⟨"m", [.class
    { name := "C"
      span := ⟨100, 0, 200⟩
      members := [.method
        { name := "f"
          params := []
          span := ⟨50, 40, 0⟩
          body := some ⟨[⟨.varDecl ⟨[a, { a with name := "b" }],
              some ⟨[value], [value], [⟨component, value⟩]⟩⟩, ⟨9, 4, 40⟩, false⟩,
            ⟨.print [component], ⟨3, 2, 1⟩, false⟩], ⟨60, 30, 90⟩⟩ }] }]⟩

theorem Module.crooked_unbroken :
    Module.crooked.size < UInt64.size ∧
      Module.crooked.tryScan {} = .ok (Module.crooked.scan {}) ∧
      Module.crooked.tryMutate ⟨.range 9 4, .variableDeletion, some "a"⟩ 3 =
        .ok (Module.crooked.mutate ⟨.range 9 4, .variableDeletion, some "a"⟩ 3) :=
  have fits : Module.crooked.size < UInt64.size := by decide
  ⟨fits, Module.engine_unbroken fits {} ⟨.range 9 4, .variableDeletion, some "a"⟩ 3⟩

end Mutation
