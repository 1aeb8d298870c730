import Mutation.Proofs.Depth

/-!
# Editing a statement list on the way

A revision that never halts, and leaves whole lists alone, edits a statement list one element at a
time; it may edit an element that it keeps, and any node within. The list gets longer and shorter on
the way. `Revision.sweep` goes through it by position, and the position moves on by as many elements
as an edit leaves. `Turn` says what becomes of one element, and `Revision.Takes` which turns are
taken, one for each element that stood in the list at first (`Revision.Steady.stmts_turns`). So
nothing that an edit puts in is ever offered or walked.

A revision that makes a kept element larger and larger can keep the walk in it for ever. At any
depth such a walk is cut off, with the turns taken that come before that element.
-/

namespace Mutation

variable {σ α β : Type}

namespace Edit

/-- An edit in range takes one element out and puts its slots in. -/
theorem length_applyAt? (edit : Edit α) {list : List α} {index : Nat}
    (inside : index < list.length) :
    ((edit.applyAt? list index).getD list).length + 1 = list.length + edit.slots := by
  obtain ⟨front, a, rest, rfl, rfl⟩ : ∃ front a rest, list = front ++ a :: rest ∧
      index = front.length :=
    ⟨list.take index, list[index], list.drop (index + 1), by simp, by simp; omega⟩
  rw [applyAt?_append, Option.getD_some]
  simp only [List.length_append, List.length_cons, length_result]
  omega

/-- What an edit leaves of an element that gives way does not depend on the element. -/
theorem result_gives {edit : Edit α} (gives : edit.isKeep = false) (a b : α) :
    edit.result a = edit.result b := by
  cases edit <;> first | rfl | cases gives

end Edit

/-- What becomes of one element of a statement list. -/
inductive Turn where
  /-- It is passed over. -/
  | passed (stmt : Stmt)
  /-- It is offered and kept. The offer leaves `left` in its place, and `after` is what the walk
  into that comes to. -/
  | kept (stmt left after : Stmt)
  /-- It is offered and gives way. -/
  | edited (stmt : Stmt) (edit : Edit Stmt)

namespace Turn

/-- The element. -/
def element : Turn → Stmt
  | passed st => st
  | kept st _ _ => st
  | edited st _ => st

/-- What stands in its place afterwards. -/
def result : Turn → List Stmt
  | passed st => [st]
  | kept _ _ after => [after]
  | edited st edit => edit.result st

end Turn

namespace Revision

/-- The revision never halts, and leaves statement lists as they are. -/
structure Steady (v : Revision σ) : Prop where
  halted : ∀ s, v.halted s = false
  visit : ∀ k a s b, (v.visit k a s).1 ≠ .halt b
  target : ∀ e s e', (v.target e s).1 ≠ .halt e'
  reviseStmts : ∀ list s,
    (v.reviseStmts list s).1 = .descend list ∨ (v.reviseStmts list s).1 = .settle list

variable (v : Revision σ)

/-- An element is offered: its kind of code is walked, and it is worth entering. -/
def offers (st : Stmt) (s : σ) : Bool := v.admits st.context s && v.worth s st.span

variable (depth : Nat)

/-- `Takes depth s turns s'`: from the state `s`, the revision takes these turns one after another
and comes to the state `s'`. -/
inductive Takes : σ → List Turn → σ → Prop
  | nil (s : σ) : Takes s [] s
  | passed {s s' : σ} {st : Stmt} {turns : List Turn} (out : v.offers st s = false)
    (rest : Takes s turns s') : Takes s (.passed st :: turns) s'
  | kept {s s₁ s₂ s' : σ} {st left after : Stmt} {turns : List Turn}
    (within : v.offers st s = true) (offered : v.offer st s = (⟨left, .keep⟩, s₁))
    (walked : v.stmt depth left s₁ = .go (after, s₂)) (rest : Takes s₂ turns s') :
    Takes s (.kept st left after :: turns) s'
  | edited {s s₁ s' : σ} {st left : Stmt} {edit : Edit Stmt} {turns : List Turn}
    (within : v.offers st s = true) (offered : v.offer st s = (⟨left, edit⟩, s₁))
    (gives : edit.isKeep = false) (rest : Takes s₁ turns s') : Takes s (.edited st edit :: turns) s'

/-- `Covers depth s list r`: from the state `s`, the revision takes one turn for each element of the
list, and `r` is what the turns come to. When the walk is cut off in an element that is kept, the
turns before it are taken, and the elements behind it stay. -/
inductive Covers (s : σ) : List Stmt → Walked (List Stmt × σ) → Prop
  | all {turns : List Turn} {s' : σ} (taken : v.Takes depth s turns s') :
    Covers s (turns.map Turn.element) (.go (turns.flatMap Turn.result, s'))
  | cut {turns : List Turn} {st left after : Stmt} {s₁ s₂ s' : σ}
    (taken : v.Takes depth s turns s₁) (within : v.offers st s₁ = true)
    (offered : v.offer st s₁ = (⟨left, .keep⟩, s₂)) (walked : v.stmt depth left s₂ = .cut (after, s'))
    (rest : List Stmt) :
    Covers s (turns.map Turn.element ++ st :: rest)
      (.cut (turns.flatMap Turn.result ++ after :: rest, s'))

variable {v depth} in
/-- One more turn in front. -/
theorem Covers.cons {s s₁ : σ} {list : List Stmt} {r : Walked (List Stmt × σ)} (turn : Turn)
    (first : ∀ turns s', v.Takes depth s₁ turns s' → v.Takes depth s (turn :: turns) s')
    (h : v.Covers depth s₁ list r) :
    v.Covers depth s (turn.element :: list) (r.rebuild fun list => turn.result ++ list) := by
  cases h with
  | all taken => exact .all (first _ _ taken)
  | cut taken within offered walked rest =>
    simpa using Covers.cut (first _ _ taken) within offered walked rest

/-! ### By position -/

/-- Goes through a statement list by position, from `index` on. The element there is offered in its
place; an edit is then applied to the list, and the walk goes on behind the elements that stand in
that place. -/
def sweep (list : List Stmt) (index : Nat) (s : σ) : Walked (List Stmt × σ) :=
  if inside : index < list.length then
    if v.offers list[index] s then
      match v.offer list[index] s with
      | (⟨left, edit⟩, s) =>
        if v.halted s then
          .halt ((edit.applyAt? (list.set index left) index).getD (list.set index left), s)
        else if edit.isKeep then
          match v.stmt depth left s with
          | .halt (st, s) => .halt (list.set index st, s)
          | .cut (st, s) => .cut (list.set index st, s)
          | .go (st, s) =>
            if v.halted s then .halt (list.set index st, s)
            else sweep (list.set index st) (index + 1) s
        else
          sweep ((edit.applyAt? (list.set index left) index).getD (list.set index left))
            (index + edit.slots) s
    else sweep list (index + 1) s
  else .go (list, s)
termination_by list.length - index
decreasing_by
  · simp only [List.length_set]
    omega
  · have placed : index < (list.set index left).length := by simpa using inside
    have length := edit.length_applyAt? placed
    simp only [List.length_set] at length
    omega
  · omega

/-- Going through a list by position leaves what is in front as it is, and comes to what the walk of
the elements comes to. -/
theorem sweep_eq (front list : List Stmt) (s : σ) :
    v.sweep depth (front ++ list) front.length s =
      (v.elements (v.stmt depth) list s).rebuild fun list => front ++ list := by
  induction list generalizing front s with
  | nil => simp [sweep, elements]
  | cons st list ih =>
    have behind (new : List Stmt) (s : σ) :
        v.sweep depth (front ++ (new ++ list)) (front.length + new.length) s =
          (v.elements (v.stmt depth) list s).rebuild fun list => front ++ (new ++ list) := by
      have rest := ih (front ++ new) s
      simpa only [List.append_assoc, List.length_append] using rest
    have here (inside : front.length < (front ++ st :: list).length) :
        (front ++ st :: list)[front.length] = st := by simp
    have placed (t : Stmt) :
        (front ++ st :: list).set front.length t = front ++ t :: list := by simp
    have applied (edit : Edit Stmt) (t : Stmt) := edit.applyAt?_append front t list
    rw [sweep, dif_pos (by simp), here, elements, ← offers]
    by_cases within : v.offers st s = true
    · obtain ⟨⟨left, edit⟩, s₁, offered⟩ : ∃ offer s₁, v.offer st s = (offer, s₁) := ⟨_, _, rfl⟩
      rw [if_pos within, if_pos within]
      simp only [offered, placed, applied, Option.getD_some, following, Offer.result]
      cases halted : v.halted s₁ with
      | true => simp
      | false =>
        cases keeps : edit.isKeep with
        | true =>
          simp only [Bool.not_true, Bool.or_self, Bool.false_eq_true, if_false, if_true]
          cases v.stmt depth left s₁ with
          | halt r | cut r => simp
          | go r =>
            obtain ⟨st', s₂⟩ := r
            have rest := behind [st'] s₂
            simp only [List.singleton_append, List.length_singleton] at rest
            cases ended : v.halted s₂ <;> simp [ended, rest]
        | false =>
          have rest := behind (edit.result left) s₁
          rw [edit.length_result] at rest
          simp [rest]
    · have rest := behind [st] s
      simp only [List.singleton_append, List.length_singleton] at rest
      rw [if_neg within, if_neg within, rest, Walked.rebuild_rebuild]

end Revision

/-! ### A walk that does not halt -/

/-- The walk has not ended of its own accord. -/
abbrev Walked.Unhalted (r : Walked α) : Prop := r.Avoids .halted

namespace Revision.Steady

open Walked (Avoids Unhalted)

variable {v : Revision σ} (h : v.Steady)

include h

/-- A node whose inside does not end the walk does not end it: its hooks let it in or pass it over.
-/
theorem around {k : NodeSort} {inside : Walker σ k.Carrier} (inner : ∀ a s, (inside a s).Unhalted)
    (a : k.Carrier) (s : σ) : (v.around k inside a s).Unhalted := by
  refine Avoids.next ?_
  have steady := h.visit k a s
  generalize v.visit k a s = answer at steady
  obtain ⟨reply, s'⟩ := answer
  cases reply with
  | descend b => exact inner b s'
  | settle _ => exact .go _
  | halt b => exact absurd rfl (steady b)

section

variable {expr : Walker σ Expr} (hE : ∀ e s, (expr e s).Unhalted)

include hE

/-- No target ends the walk. -/
theorem targets (es : List Expr) (s : σ) : (v.targets expr es s).Unhalted := by
  induction es generalizing s with
  | nil => exact .go _
  | cons e es ih =>
    unfold Revision.targets
    have steady := h.target e s
    generalize v.target e s = answer at steady
    obtain ⟨reply, s'⟩ := answer
    cases reply with
    | halt e' => exact absurd rfl (steady e')
    | settle e' => exact (ih s').rebuild _
    | descend e' =>
      have walked := hE e' s'
      simp only
      cases he : expr e' s' with
      | go r => exact (ih r.2).rebuild _
      | halt r => exact absurd (he ▸ rfl) walked
      | cut _ => nofun

/-- Nor does an assignment. -/
theorem update (u : Update) (s : σ) : (v.update expr u s).Unhalted := by
  have targets := h.targets hE u.targets s
  unfold Revision.update
  generalize v.targets expr u.targets s = walked at targets
  obtain r | r | r := walked
  · exact values_avoids (fun e _ => hE e) r.2
  · exact absurd rfl targets
  · nofun

end

section

variable {stmt : Walker σ Stmt} (hS : ∀ st s, (stmt st s).Unhalted)

include hS

/-- Nor does an element, whatever the visitor answers at its offer. -/
theorem elements (list : List Stmt) (s : σ) : (v.elements stmt list s).Unhalted := by
  have following {first rest : List Stmt} {k : σ → Walked (List Stmt × σ)}
      (hk : ∀ s, (k s).Unhalted) (s : σ) : (v.following first rest s k).Unhalted := by
    rw [Revision.following, if_neg (by simp [h.halted])]
    exact (hk s).rebuild _
  induction list generalizing s with
  | nil => exact .go _
  | cons st list ih =>
    unfold Revision.elements
    split
    · obtain ⟨offer, s'⟩ := v.offer st s
      simp only
      split
      · exact following ih s'
      · have walked := hS offer.left s'
        cases hs : stmt offer.left s' with
        | go r => exact following ih _
        | halt r => exact absurd (hs ▸ rfl) walked
        | cut _ => nofun
    · exact (ih s).rebuild _

/-- Nor does a list. -/
theorem stmts (list : List Stmt) (s : σ) : (v.stmts stmt list s).Unhalted := by
  have steady := h.reviseStmts list s
  unfold Revision.stmts Revision.listed
  generalize v.reviseStmts list s = answer at steady
  obtain ⟨reply, s'⟩ := answer
  obtain rfl | rfl : reply = .descend list ∨ reply = .settle list := steady
  · rw [Reply.enter, if_neg (by simp [h.halted])]
    exact h.elements hS list s'
  · exact .go _

theorem block (b : Block) (s : σ) : (v.block stmt b s).Unhalted :=
  .gated _ (h.around (k := .block) (fun b s => (h.stmts hS b.stmts s).rebuild _) b s)

theorem matchCases (cases : List MatchCase) (s : σ) : (v.matchCases stmt cases s).Unhalted := by
  induction cases generalizing s with
  | nil => exact .go _
  | cons c cases ih =>
    have first : (v.matchCase stmt c s).Unhalted :=
      .gated _ (h.around (k := .case) (fun c s => (h.stmts hS c.body s).rebuild _) c s)
    exact (first.both ih).rebuild _

/-- One case per form, whose parts do not end the walk. -/
theorem stmtKind {expr : Walker σ Expr} (hE : ∀ e s, (expr e s).Unhalted) (kind : StmtKind)
    (s : σ) : (v.stmtKind expr stmt kind s).Unhalted := by
  have each {es : List Expr} : ∀ e ∈ es, ∀ s, (expr e s).Unhalted := fun e _ => hE e
  unfold Revision.stmtKind
  cases kind with
  | varDecl d => exact (varDecl_avoids (fun _ _ => each) s).rebuild _
  | update u => exact (h.update hE u s).rebuild _
  | expr e | assert e | assume e => exact (hE e s).rebuild _
  | ret es | print es => exact (exprs_avoids each s).rebuild _
  | ifElse guard thenBranch elseBranch =>
    exact (((exprOpt_avoids each s).both (h.block hS thenBranch)).both
      (stmtOpt_avoids fun st _ => hS st)).rebuild _
  | whileLoop guard invariants decreases body =>
    exact ((((exprOpt_avoids each s).both (clause_avoids each)).both (clause_avoids each)).both
      (h.block hS body)).rebuild _
  | forLoop index start stop ascending invariants body =>
    exact ((((hE start s).both (exprOpt_avoids each)).both (clause_avoids each)).both
      (h.block hS body)).rebuild _
  | breakLoop | continueLoop => exact .go _
  | block b => exact (h.block hS b s).rebuild _
  | matchOn source cases => exact ((hE source s).both (h.matchCases hS cases)).rebuild _

end

/-- No expression ends a steady walk: by induction on the depth. -/
theorem expr (depth : Nat) (e : Expr) (s : σ) : (v.expr depth e s).Unhalted := by
  induction depth generalizing e s with
  | zero => nofun
  | succ depth ih =>
    exact .gated _ (h.around (k := .expr)
      (fun e s => (exprKind_avoids (fun e _ => ih e) s).rebuild _) e s)

/-- No statement ends a steady walk: by induction on the depth. -/
theorem stmt (depth : Nat) (st : Stmt) (s : σ) : (v.stmt depth st s).Unhalted := by
  induction depth generalizing st s with
  | zero => nofun
  | succ depth ih =>
    exact .gated _ (within_avoids (h.around (k := .stmt)
      (fun st s => (h.stmtKind ih (h.expr depth) st.kind s).rebuild _) st) s)

/-- An element is passed over, walked or replaced, and the walk goes on with the next one, unless it
is cut off in one that is walked. -/
theorem elements_turns (depth : Nat) (list : List Stmt) (s : σ) :
    v.Covers depth s list (v.elements (v.stmt depth) list s) := by
  induction list generalizing s with
  | nil => exact .all (.nil s)
  | cons st list ih =>
    cases within : v.offers st s with
    | false =>
      rw [Revision.elements, ← Revision.offers, within]
      exact (ih s).cons (.passed st) fun _ _ => .passed within
    | true =>
      obtain ⟨⟨left, edit⟩, s₁, offered⟩ : ∃ offer s₁, v.offer st s = (offer, s₁) := ⟨_, _, rfl⟩
      rw [Revision.elements, ← Revision.offers, if_pos within]
      simp only [offered, h.halted, Bool.false_or, Revision.following, Bool.false_eq_true, if_false]
      cases keeps : edit.isKeep with
      | false =>
        have same : Offer.result ⟨left, edit⟩ = (Turn.edited st edit).result :=
          Edit.result_gives keeps left st
        rw [Bool.not_false, if_pos rfl, same]
        exact (ih s₁).cons (.edited st edit) fun _ _ => .edited within offered keeps
      | true =>
        obtain rfl : edit = .keep := by
          cases edit <;> first | rfl | cases keeps
        rw [Bool.not_true, if_neg Bool.false_ne_true]
        cases walked : v.stmt depth left s₁ with
        | go r => exact (ih r.2).cons (.kept st left r.1) fun _ _ => .kept within offered walked
        | halt r => exact absurd (walked ▸ rfl) (h.stmt depth left s₁)
        | cut r => exact .cut (.nil s) within offered walked list

/-- A steady revision walks a list to its end, unless it skips the list as a whole or is cut off in
an element that it keeps. It takes one turn for each element that stands in the list at first, in
order: an element is offered exactly when its kind of code is walked and it is worth entering, and
it is entered when it is kept, as the offer leaves it. What an edit puts in has no turn. By position
or not, the walk leaves behind what the turns come to. A revision that makes no node larger is never
cut off when the depth is the size of the list. -/
theorem stmts_turns (depth : Nat) (list : List Stmt) (s : σ) :
    (∃ s₀, v.reviseStmts list s = (.settle list, s₀) ∧
      v.stmts (v.stmt depth) list s = .go (list, s₀)) ∨
    ∃ s₀, v.reviseStmts list s = (.descend list, s₀) ∧
      v.Covers depth s₀ list (v.stmts (v.stmt depth) list s) ∧
      v.sweep depth list 0 s₀ = v.stmts (v.stmt depth) list s ∧
      (v.Modest → Stmt.sizeList list ≤ depth → ∃ turns s', turns.map Turn.element = list ∧
        v.Takes depth s₀ turns s' ∧
        v.stmts (v.stmt depth) list s = .go (turns.flatMap Turn.result, s')) := by
  have steady := h.reviseStmts list s
  obtain ⟨reply, s₀, answered⟩ : ∃ reply s₀, v.reviseStmts list s = (reply, s₀) := ⟨_, _, rfl⟩
  rw [answered] at steady
  obtain rfl | rfl : reply = .descend list ∨ reply = .settle list := steady
  · have walked : v.stmts (v.stmt depth) list s = v.elements (v.stmt depth) list s₀ := by
      rw [Revision.stmts, Revision.listed, answered, Reply.enter, if_neg (by simp [h.halted])]
    have covers := h.elements_turns depth list s₀
    refine .inr ⟨s₀, answered, walked ▸ covers, ?_, fun modest small => ?_⟩
    · have swept := v.sweep_eq depth [] list s₀
      simpa [walked] using swept
    · have uncut := modest.elements (fun _ hst => modest.stmt hst) small s₀
      rw [walked]
      generalize v.elements (v.stmt depth) list s₀ = r at covers uncut
      cases covers with
      | all taken => exact ⟨_, _, rfl, taken, rfl⟩
      | cut => exact absurd rfl uncut
  · exact .inl ⟨s₀, answered, by rw [Revision.stmts, Revision.listed, answered]; rfl⟩

end Revision.Steady

/-- The statement that prints a number. -/
def Stmt.printing (value : UInt8) (pos : Pos) : Stmt :=
  ⟨.print [⟨.literal (.int (.ofByte value)), .token (pos + 1), .int⟩], .range pos (pos + 2), false⟩

/-- The statement that prints nothing. -/
def Stmt.printingNothing (span : Span) : Stmt := ⟨.print [], span, false⟩

/-- A revision that notes where the statements begin that it is offered, and empties each of them.
In the place of the one at 1 it puts two that are as it was, and the one at 4 it removes. -/
def Revision.noting (enters : Bool) : Revision (List Pos) where
  reviseStmts list seen := (if enters then .descend list else .settle list, seen)
  offer st seen :=
    (⟨.printingNothing st.span,
      if st.span.start = 1 then .flatten [st, st] else if st.span.start = 4 then .remove else .keep⟩,
      seen ++ [st.span.start])

theorem Revision.steady_noting (enters : Bool) : (noting enters).Steady where
  halted _ := rfl
  visit _ _ _ _ := nofun
  target _ _ _ := nofun
  reviseStmts _ _ := by cases enters <;> simp [noting]

/-- Neither copy is offered, neither is the element behind the removed one left out, and the one
that is kept is kept as the offer has left it. -/
theorem Revision.noting_turns :
    ∃ turns, turns.map Turn.element = [.printing 1 1, .printing 2 4, .printing 3 7] ∧
      (noting true).Takes 5 [] turns [1, 4, 7] ∧
      turns.flatMap Turn.result =
        [.printing 1 1, .printing 1 1, .printingNothing (.range 7 9)] ∧
      (noting true).sweep 5 [.printing 1 1, .printing 2 4, .printing 3 7] 0 [] =
        .go ([.printing 1 1, .printing 1 1, .printingNothing (.range 7 9)], [1, 4, 7]) := by
  have walked : (noting true).stmts ((noting true).stmt 5)
      [.printing 1 1, .printing 2 4, .printing 3 7] [] =
        .go ([.printing 1 1, .printing 1 1, .printingNothing (.range 7 9)], [1, 4, 7]) := by rfl
  rcases (steady_noting true).stmts_turns 5 [.printing 1 1, .printing 2 4, .printing 3 7] [] with
    ⟨s₀, answered, -⟩ | ⟨s₀, answered, covers, swept, -⟩
  · cases answered
  · cases answered
    rw [walked] at covers swept
    generalize same : [Stmt.printing 1 1, .printing 2 4, .printing 3 7] = list at covers swept
    generalize came : [Stmt.printing 1 1, .printing 1 1, .printingNothing (.range 7 9)] = new
      at covers swept
    cases covers with
    | all taken => exact ⟨_, rfl, taken, rfl, swept⟩

/-- A list that is skipped as a whole is left as it is, and none of its elements is offered. -/
theorem Revision.noting_skips :
    (noting false).Steady ∧
      (∀ st ∈ [Stmt.printing 1 1, .printing 2 4], ∀ seen, (noting false).offers st seen = true) ∧
      (noting false).stmts ((noting false).stmt 5) [.printing 1 1, .printing 2 4] [] =
        .go ([.printing 1 1, .printing 2 4], []) :=
  ⟨steady_noting false, fun st hst seen => by
    rcases List.mem_pair.1 hst with rfl | rfl <;> rfl, rfl⟩

end Mutation
