import Mathlib.Data.List.Chain
import Mutation.Proofs.Agreement

/-!
# Chains of branches

An `if` is a list of branches, each with its guard and its block, along its `else if` links, and
perhaps a last `else` behind them (`Stmt.links`, `Stmt.lastElse`). The two views lose nothing
(`Stmt.ofLinks_links`).

Deleting a branch is an operation on the list (`Stmt.deleteBranch_links`). The branch at a link goes
out of it and the rest stays. The first branch gives way to the chain of the others, or to the last
`else`, or to nothing. A target that is no `if` of the chain is passed over.
-/

namespace Mutation

/-- A branch of an `if`, with the span and the mark of the `if` or `else if` that it belongs to. -/
structure Link where
  guard : Option Expr
  body : Block
  span : Span
  ghost : Bool

namespace Stmt

mutual
/-- The branches of an `if`, its own first; another statement has none. -/
def links : Stmt → List Link
  | ⟨.ifElse guard body next, span, ghost⟩ => ⟨guard, body, span, ghost⟩ :: linksBelow next
  | _ => []

/-- The branches along an `else`. -/
def linksBelow : Option Stmt → List Link
  | none => []
  | some s => s.links
end

mutual
/-- What stands behind the last branch of an `if`; another statement stands for itself. -/
def lastElse : Stmt → Option Stmt
  | ⟨.ifElse _ _ next, _, _⟩ => lastElseBelow next
  | s => some s

/-- What stands at the end of an `else`. -/
def lastElseBelow : Option Stmt → Option Stmt
  | none => none
  | some s => s.lastElse
end

/-- The chain of some branches, with what stands behind the last one. -/
def ofLinks : List Link → Option Stmt → Option Stmt
  | [], last => last
  | l :: ls, last => some ⟨.ifElse l.guard l.body (ofLinks ls last), l.span, l.ghost⟩

mutual
/-- A statement is the chain of its branches. -/
theorem ofLinks_links : (s : Stmt) → ofLinks s.links s.lastElse = some s
  | ⟨.ifElse guard body next, span, ghost⟩ => by
    rw [links, lastElse, ofLinks, ofLinks_linksBelow next]
  | ⟨.varDecl _, _, _⟩ | ⟨.update _, _, _⟩ | ⟨.expr _, _, _⟩ | ⟨.ret _, _, _⟩
  | ⟨.whileLoop .., _, _⟩ | ⟨.forLoop .., _, _⟩ | ⟨.breakLoop, _, _⟩ | ⟨.continueLoop, _, _⟩
  | ⟨.block _, _, _⟩ | ⟨.matchOn .., _, _⟩ | ⟨.assert _, _, _⟩ | ⟨.assume _, _, _⟩
  | ⟨.print _, _, _⟩ => rfl

theorem ofLinks_linksBelow : (s : Option Stmt) → ofLinks (linksBelow s) (lastElseBelow s) = s
  | none => rfl
  | some s => ofLinks_links s
end

mutual
/-- Behind the last branch stands no further `if`. -/
theorem isIf_lastElse : (s : Stmt) → ∀ t ∈ s.lastElse, t.isIf = false
  | ⟨.ifElse _ _ next, _, _⟩, t, ht => isIf_lastElseBelow next t ht
  | ⟨.varDecl _, _, _⟩, _, rfl | ⟨.update _, _, _⟩, _, rfl | ⟨.expr _, _, _⟩, _, rfl
  | ⟨.ret _, _, _⟩, _, rfl | ⟨.whileLoop .., _, _⟩, _, rfl | ⟨.forLoop .., _, _⟩, _, rfl
  | ⟨.breakLoop, _, _⟩, _, rfl | ⟨.continueLoop, _, _⟩, _, rfl | ⟨.block _, _, _⟩, _, rfl
  | ⟨.matchOn .., _, _⟩, _, rfl | ⟨.assert _, _, _⟩, _, rfl | ⟨.assume _, _, _⟩, _, rfl
  | ⟨.print _, _, _⟩, _, rfl => rfl

theorem isIf_lastElseBelow : (s : Option Stmt) → ∀ t ∈ lastElseBelow s, t.isIf = false
  | none, _, ht => by cases ht
  | some s, t, ht => isIf_lastElse s t ht
end

section

variable {ls : List Link} {last : Option Stmt}

/-- A statement other than an `if` has no branches and stands for itself. -/
theorem links_of_isIf {s : Stmt} (other : s.isIf = false) : s.links = [] ∧ s.lastElse = some s := by
  obtain ⟨kind, span, ghost⟩ := s
  cases kind with
  | ifElse => cases other
  | _ => exact ⟨rfl, rfl⟩

/-- The branches of a chain are those that it was put together from. -/
theorem linksBelow_ofLinks (plain : ∀ t ∈ last, t.isIf = false) :
    linksBelow (ofLinks ls last) = ls ∧ lastElseBelow (ofLinks ls last) = last := by
  induction ls with
  | nil =>
    cases last with
    | none => exact ⟨rfl, rfl⟩
    | some t => exact links_of_isIf (plain t rfl)
  | cons l ls ih =>
    obtain ⟨branches, behind⟩ := ih
    constructor
    · rw [ofLinks, linksBelow, links, branches]
    · rw [ofLinks, lastElseBelow, lastElse, behind]

/-! ### The link at the target -/

/-- The ranges of an `else if` and of all behind it lie in those of the `if`s before. -/
theorem encloses_of_isChain {l : Link} (nested : ((l :: ls).map Link.span).IsChain
    fun a b => a.encloses b = true) : ∀ x ∈ l :: ls, l.span.encloses x.span = true := by
  induction ls generalizing l with
  | nil =>
    intro x hx
    rw [List.mem_singleton.1 hx]
    exact Span.encloses_iff.2 ⟨UInt32.le_refl _, UInt32.le_refl _⟩
  | cons l' ls ih =>
    obtain ⟨first, rest⟩ := List.isChain_cons_cons.1 nested
    intro x hx
    rcases List.mem_cons.1 hx with rfl | hx
    · exact Span.encloses_iff.2 ⟨UInt32.le_refl _, UInt32.le_refl _⟩
    · exact Span.encloses_trans first (ih rest x hx)

/-- The link at the target goes out of the chain. The search for it follows the links down: it is
in the range of each of them, and it is none of those before. -/
theorem unlinkBelow?_ofLinks {k : Nat} (hk : k < ls.length)
    (apart : (ls.map Link.span).Pairwise fun a b => a.coincides b = false)
    (nested : (ls.map Link.span).IsChain fun a b => a.encloses b = true) :
    unlinkBelow? ls[k].span.rangeLocation (ofLinks ls last) =
      some (ofLinks (ls.eraseIdx k) last) := by
  induction ls generalizing k with
  | nil => cases hk
  | cons l ls ih =>
    have inside : (l :: ls)[k].span.rangeLocation.mayLieIn l.span = true := by
      apply Location.range_mayLieIn
      exact encloses_of_isChain nested _ (List.getElem_mem hk)
    rw [ofLinks, unlinkBelow?]
    simp only [inside, Bool.not_true, Bool.false_eq_true, if_false]
    cases k with
    | zero =>
      have here : l.span.rangeLocation.matchesB l.span = true := Location.range_matchesB l.span
      simp [isIf, elseBranch?, here]
    | succ k =>
      have below : k < ls.length := Nat.lt_of_succ_lt_succ hk
      have away : ls[k].span.rangeLocation.matchesB l.span = false := by
        have apart := (List.pairwise_cons.1 apart).1 _ (List.mem_map_of_mem (List.getElem_mem below))
        simpa [Span.rangeLocation, Location.matchesB, Span.coincides] using apart
      have rest := ih below (List.pairwise_cons.1 apart).2 nested.tail
      simp only [List.getElem_cons_succ, away, Bool.and_false, Bool.false_eq_true, if_false, unlink?,
        rest, Option.map_some, List.eraseIdx_cons_succ, ofLinks]

/-- Without a link at the target, nothing is taken out of a chain. -/
theorem unlinkBelow?_eq_none {target : Location} (plain : ∀ t ∈ last, t.isIf = false)
    (away : ∀ l ∈ ls, target.matchesB l.span = false) :
    unlinkBelow? target (ofLinks ls last) = none := by
  induction ls with
  | nil =>
    cases last with
    | none => rfl
    | some t =>
      have other := plain t rfl
      obtain ⟨kind, span, ghost⟩ := t
      rw [ofLinks, unlinkBelow?]
      split
      · rfl
      · cases kind with
        | ifElse => cases other
        | _ => rfl
  | cons l ls ih =>
    obtain ⟨first, rest⟩ := List.forall_mem_cons.1 away
    rw [ofLinks, unlinkBelow?]
    split
    · rfl
    · simp [first, unlink?, ih rest]

end

/-! ### Deleting a branch -/

/-- The `if` of some branches, the first one given apart. -/
def chain (l : Link) (ls : List Link) (last : Option Stmt) : Stmt :=
  ⟨.ifElse l.guard l.body (ofLinks ls last), l.span, l.ghost⟩

section

variable {l : Link} {ls : List Link} {last : Option Stmt}

/-- An `if` is a chain of branches, and what stands behind the last one is no further `if`. -/
theorem eq_chain_of_isIf {s : Stmt} (hs : s.isIf = true) :
    ∃ l ls last, (∀ t ∈ last, t.isIf = false) ∧ s = chain l ls last := by
  obtain ⟨kind, span, ghost⟩ := s
  cases kind with
  | ifElse guard body next =>
    refine ⟨⟨guard, body, span, ghost⟩, linksBelow next, lastElseBelow next, ?_, ?_⟩
    · exact isIf_lastElseBelow next
    · rw [chain, ofLinks_linksBelow]
  | _ => cases hs

theorem links_chain (plain : ∀ t ∈ last, t.isIf = false) : (chain l ls last).links = l :: ls := by
  rw [chain, links, (linksBelow_ofLinks plain).1]

theorem lastElse_chain (plain : ∀ t ∈ last, t.isIf = false) :
    (chain l ls last).lastElse = last := by
  rw [chain, lastElse, (linksBelow_ofLinks plain).2]

/-- The branch at a link goes out of the list of branches. -/
theorem deleteBranch_link {k : Nat} (hk : k < ls.length)
    (apart : ((l :: ls).map Link.span).Pairwise fun a b => a.coincides b = false)
    (nested : ((l :: ls).map Link.span).IsChain fun a b => a.encloses b = true) :
    (chain l ls last).deleteBranch ls[k].span.rangeLocation =
      .done (.amend (chain l (ls.eraseIdx k) last)) := by
  have inside : ls[k].span.rangeLocation.mayLieIn l.span = true := by
    apply Location.range_mayLieIn
    exact encloses_of_isChain nested _ (List.mem_cons_of_mem _ (List.getElem_mem hk))
  have away : ls[k].span.rangeLocation.matchesB l.span = false := by
    have first := (List.pairwise_cons.1 apart).1 _ (List.mem_map_of_mem (List.getElem_mem hk))
    simpa [Span.rangeLocation, Location.matchesB, Span.coincides] using first
  have rest : unlinkBelow? ls[k].span.rangeLocation (ofLinks ls last) =
      some (ofLinks (ls.eraseIdx k) last) :=
    unlinkBelow?_ofLinks hk (List.pairwise_cons.1 apart).2 nested.tail
  simp [deleteBranch, chain, isIf, inside, away, unlink?, rest]

/-- At the range of the `if`, what stands behind its first branch takes its place. -/
theorem deleteBranch_first : (chain l ls last).deleteBranch l.span.rangeLocation =
    ((ofLinks ls last).elim (.done .remove) fun branch => .done branch.asElement) := by
  have here : l.span.rangeLocation.matchesB l.span = true := Location.range_matchesB l.span
  have inside : l.span.rangeLocation.mayLieIn l.span = true := by
    apply Location.range_mayLieIn
    exact Span.encloses_iff.2 ⟨UInt32.le_refl _, UInt32.le_refl _⟩
  simp only [deleteBranch, chain, isIf, inside, here, Bool.and_self, if_true, elseBranch?]
  cases ofLinks ls last <;> rfl

/-- A target that is no `if` of the chain is passed over. -/
theorem deleteBranch_pass {target : Location} (plain : ∀ t ∈ last, t.isIf = false)
    (away : ∀ x ∈ l :: ls, target.matchesB x.span = false) :
    (chain l ls last).deleteBranch target = .pass (chain l ls last) := by
  obtain ⟨first, others⟩ := List.forall_mem_cons.1 away
  have rest := unlinkBelow?_eq_none plain others
  simp [deleteBranch, chain, isIf, unlink?, rest, first]

end

/-- Of an `if` one branch goes. At the range of a link it is the branch of that link, and the
branches before and after it and the last `else` stay as they are. At the range of the `if` it is
the first branch: the chain of the others takes its place when there are others, else what stands
in the last `else`, and without one the `if` goes. A target that is no `if` of the chain is passed
over. -/
theorem deleteBranch_links {s : Stmt} (site : Site) (hs : s.isIf = true)
    (apart : (s.links.map Link.span).Pairwise fun a b => a.coincides b = false)
    (nested : (s.links.map Link.span).IsChain fun a b => a.encloses b = true) :
    (∀ (k : Nat) (hk : k < s.links.length), 1 ≤ k →
      site.target = s.links[k].span.rangeLocation →
      ∃ t, Operator.deleteBranch.onStmt site s = .done (.amend t) ∧
        t.links = s.links.eraseIdx k ∧ t.lastElse = s.lastElse ∧ t.span = s.span) ∧
    (site.target = s.span.rangeLocation →
      (s.links.tail ≠ [] →
        ∃ t, Operator.deleteBranch.onStmt site s = .done (.replace t) ∧
          t.links = s.links.tail ∧ t.lastElse = s.lastElse) ∧
      (s.links.tail = [] →
        (∀ b span ghost, s.lastElse = some ⟨.block b, span, ghost⟩ →
          Operator.deleteBranch.onStmt site s =
            if b.declaresLocals then .done (.replace ⟨.block b, span, false⟩)
            else .done (.flatten b.stmts)) ∧
        (∀ e, s.lastElse = some e → (∀ b, e.kind ≠ .block b) →
          Operator.deleteBranch.onStmt site s = .done (.replace e)) ∧
        (s.lastElse = none → Operator.deleteBranch.onStmt site s = .done .remove))) ∧
    ((∀ l ∈ s.links, site.target.matchesB l.span = false) →
      Operator.deleteBranch.onStmt site s = .pass s) := by
  obtain ⟨l, ls, last, plain, rfl⟩ := eq_chain_of_isIf hs
  simp only [links_chain plain, lastElse_chain plain, Operator.onStmt, List.tail_cons] at *
  refine ⟨?_, ?_, ?_⟩
  · intro k hk one target
    obtain _ | k := k
    · cases one
    rw [target]
    refine ⟨_, deleteBranch_link (Nat.lt_of_succ_lt_succ hk) apart nested, ?_, ?_, rfl⟩
    · exact links_chain plain
    · exact lastElse_chain plain
  · intro target
    have answer := @deleteBranch_first l ls last
    rw [show site.target = l.span.rangeLocation from target]
    constructor
    · intro more
      obtain _ | ⟨l', ls⟩ := ls
      · exact absurd rfl more
      · exact ⟨chain l' ls last, answer, links_chain plain, lastElse_chain plain⟩
    · rintro rfl
      refine ⟨?_, ?_, ?_⟩
      · rintro b span ghost rfl
        rw [answer]
        simp only [ofLinks, Option.elim_some, asElement, Block.inPlace]
        split <;> rfl
      · rintro ⟨kind, span, ghost⟩ rfl other
        rw [answer]
        cases kind with
        | block b => exact absurd rfl (other b)
        | _ => rfl
      · rintro rfl
        exact answer
  · exact deleteBranch_pass plain

/-- Three branches and a last `else`:
`if … {} else if … {} else if … {} else { return; }`. -/
def laddered : Stmt :=
  let link (start : Pos) : Link :=
    ⟨none, ⟨[], .range (start + 2) (start + 3)⟩, .range start 30, false⟩
  chain (link 1) [link 10, link 20]
    (some ⟨.block ⟨[⟨.ret [], .range 27 28, false⟩], .range 26 30⟩, .range 26 30, false⟩)

/-- The second link goes, and the first one and the last `else` stay. -/
theorem deleteBranch_laddered :
    laddered.isIf = true ∧
    (laddered.links.map Link.span).Pairwise (fun a b => a.coincides b = false) ∧
    (laddered.links.map Link.span).IsChain (fun a b => a.encloses b = true) ∧
    ∃ t, Operator.deleteBranch.onStmt ⟨.range 20 30, none, 64, {}⟩ laddered = .done (.amend t) ∧
      t.links.map Link.span = [.range 1 30, .range 10 30] ∧ t.lastElse = laddered.lastElse := by
  have apart : (laddered.links.map Link.span).Pairwise fun a b => a.coincides b = false := by decide
  have nested : (laddered.links.map Link.span).IsChain fun a b => a.encloses b = true := by decide
  obtain ⟨link, -, -⟩ :=
    deleteBranch_links ⟨.range 20 30, none, 64, {}⟩ (s := laddered) rfl apart nested
  obtain ⟨t, answer, branches, behind, -⟩ := link 2 (by decide) (by decide) rfl
  refine ⟨rfl, apart, nested, t, answer, ?_, behind⟩
  rw [branches]
  rfl

end Stmt

end Mutation
