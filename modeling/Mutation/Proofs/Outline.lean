import Mutation.Proofs.FreeNames

/-!
# Outlines of statements

A purge is followed through four views of the code at once: the free names, the names an
`else if` may leave behind, the statements by their ranges with what is free behind them, and
the form of `else` branches. An `Outline` holds the four, and outlines compose as the code does:
side by side (`++`), under a binder (`binding`), one statement before the rest of its list
(`before`).

`U` are the names that may stay free although they should not. `Cleans dead` says that a purge of
`dead` has turned one outline into another: nothing becomes free that was not free before, except
for names in `U`, and `dead` itself is gone unless it is in `U`. A purge does not look at a local
it has been at before (`Seen`); that is harmless as long as such a local is not free behind its
declaration any more (`Settled`).
-/

namespace Mutation

/-- What a purge changes in a piece of code. -/
structure Outline where
  free : List String := []
  linked : List String := []
  /-- The names an `if` leaves behind when it loses its guard. -/
  link : List String := []
  standing : List ((Pos × Pos) × List String) := []
  branched : Bool := true

namespace Outline

/-- The ranges of the statements in the lists. -/
def areas (o : Outline) : List (Pos × Pos) := o.standing.map (·.1)

/-- The outline of expressions. -/
def names (ns : List String) : Outline := { free := ns }

/-- Two pieces of code side by side. -/
instance : Append Outline where
  append a b :=
    { free := a.free ++ b.free
      linked := a.linked ++ b.linked
      standing := a.standing ++ b.standing
      branched := a.branched && b.branched }

/-- A piece of code in which some names are bound. -/
def binding (bound : List String) (o : Outline) : Outline :=
  { o with free := o.free.filter (· ∉ bound), link := [] }

/-- A statement that declares some names, before the rest of its list. -/
def before (declared : List String) (area : Pos × Pos) (a b : Outline) : Outline :=
  { free := a.free ++ b.free.filter (· ∉ declared)
    linked := a.linked ++ b.linked
    standing := a.standing ++ (area, b.free) :: b.standing
    branched := a.branched && b.branched }

/-- A piece of code in which a guard comes before an `else` branch. -/
def guarded (link : List String) (o : Outline) : Outline := { o with link }

end Outline

/-- The outline of a statement. -/
def Stmt.outline (s : Stmt) : Outline := ⟨s.free, s.linked, s.link, s.standing, s.branched⟩

/-- The outline of a statement that may be missing. -/
def Stmt.outlineOpt : Option Stmt → Outline
  | none => {}
  | some s => s.outline

/-- The outline of an `else` branch. -/
def Stmt.outlineElse (s : Option Stmt) : Outline :=
  { free := Stmt.freeOpt s
    linked := Stmt.linkedElse s
    standing := Stmt.standingOpt s
    branched := Stmt.branchedElse s }

/-- The outline of a statement list. -/
def Stmt.outlineList (list : List Stmt) : Outline :=
  { free := Stmt.freeList list
    linked := Stmt.linkedList list
    standing := Stmt.standingList list
    branched := Stmt.branchedList list }

/-- The outline of the cases of a match. -/
def MatchCase.outlineList (cases : List MatchCase) : Outline :=
  { free := MatchCase.freeList cases
    linked := MatchCase.linkedList cases
    standing := MatchCase.standingList cases
    branched := MatchCase.branchedList cases }

theorem Stmt.outlineList_cons (s : Stmt) (list : List Stmt) :
    Stmt.outlineList (s :: list) =
      .before s.declares s.span.area s.outline (Stmt.outlineList list) := rfl

theorem MatchCase.outlineList_cons (pattern : Pattern) (body : List Stmt) (span : Span)
    (cases : List MatchCase) :
    MatchCase.outlineList (⟨pattern, body, span⟩ :: cases) =
      (Stmt.outlineList body).binding pattern.names ++ MatchCase.outlineList cases := rfl

/-- There is nothing new among some names, except for what `U` allows. -/
def Narrows (U : String → Prop) (ns ns' : List String) : Prop := ∀ n ∈ ns', n ∈ ns ∨ U n

namespace Narrows

variable {U : String → Prop} {as as' bs bs' cs : List String}

theorem refl (as : List String) : Narrows U as as := fun _ => .inl

/-- What is not new in two steps is not new. -/
theorem trans (h : Narrows U as bs) (h' : Narrows U bs cs) : Narrows U as cs := by
  intro n hn
  rcases h' n hn with hn | hn
  · exact h n hn
  · exact .inr hn

/-- Two pieces narrow side by side. -/
theorem append (h : Narrows U as as') (h' : Narrows U bs bs') :
    Narrows U (as ++ bs) (as' ++ bs') := by
  intro n hn
  rcases List.mem_append.1 hn with hn | hn
  · exact (h n hn).imp_left (List.mem_append_left _)
  · exact (h' n hn).imp_left (List.mem_append_right _)

/-- Taking bound names away from both keeps them narrow. -/
theorem filter {p : String → Bool} (h : Narrows U as as') :
    Narrows U (as.filter p) (as'.filter p) := by
  intro n hn
  obtain ⟨hn, hp⟩ := List.mem_filter.1 hn
  exact (h n hn).imp_left fun hn => List.mem_filter.2 ⟨hn, hp⟩

/-- Fewer names are none new. -/
theorem of_subset (h : ∀ n ∈ as', n ∈ as) : Narrows U as as' := fun n hn => .inl (h n hn)

end Narrows

/-- The local named `z` of the statement with this range has been purged. -/
def Seen (V : List Orphan) (z : String) (area : Pos × Pos) : Prop :=
  ∃ x ∈ V, x.1 = z ∧ x.2.area = area

/-- The purge looks a local up by its name and the range of its declaration. -/
theorem Purge.hasVisited_iff {p : Purge} {orphan : Orphan} :
    p.hasVisited orphan = true ↔ Seen p.visited orphan.1 orphan.2.area := by
  simp [Purge.hasVisited, Seen, Span.coincides_iff_area]

namespace Outline

variable (U D : String → Prop)

/-- What a purge leaves: nothing new is free, no statement is new. -/
structure Shrinks (o o' : Outline) : Prop where
  free : Narrows U o.free o'.free
  linked : Narrows U o.linked o'.linked
  link : Narrows U o.link o'.link
  areas : o'.areas.Sublist o.areas
  standing : ∀ x' ∈ o'.standing, ∃ x ∈ o.standing, x.1 = x'.1 ∧ Narrows U x.2 x'.2
  branched : o'.branched = true

/-- No local that has been purged is free behind its declaration. -/
def Settled (V : List Orphan) (o : Outline) : Prop :=
  ∀ x ∈ o.standing, ∀ z, Seen V z x.1 → z ∈ x.2 → U z

/-- The code is fit for a purge of names in `D`. -/
structure Fit (V : List Orphan) (o : Outline) : Prop where
  safe : ∀ n ∈ o.linked, D n → U n
  branched : o.branched = true
  apart : o.areas.Nodup
  settled : o.Settled U V

/-- What a purge of `dead` makes of some code. -/
structure Cleans (dead : String) (V V' : List Orphan) (o o' : Outline) : Prop where
  shrinks : o.Shrinks U o'
  gone : dead ∈ o'.free → U dead
  /-- Only locals declared in this code are newly purged. -/
  fresh : ∀ x ∈ V', x ∈ V ∨ x.2.area ∈ o.areas
  settled : o'.Settled U V'

variable {U D} {o o' o'' a a' b b' : Outline} {V V' V₁ V₂ : List Orphan} {dead : String}

theorem mem_areas {x : (Pos × Pos) × List String} (h : x ∈ o.standing) : x.1 ∈ o.areas :=
  List.mem_map_of_mem h

@[simp] theorem areas_append (a b : Outline) : (a ++ b).areas = a.areas ++ b.areas :=
  List.map_append

@[simp] theorem areas_binding (bound : List String) (o : Outline) :
    (o.binding bound).areas = o.areas := rfl

namespace Shrinks

theorem refl (h : o.branched = true) : o.Shrinks U o where
  free := .refl _
  linked := .refl _
  link := .refl _
  areas := .refl _
  standing := fun x hx => ⟨x, hx, rfl, .refl _⟩
  branched := h

/-- What shrinks in two steps shrinks. -/
theorem trans (h : o.Shrinks U o') (h' : o'.Shrinks U o'') : o.Shrinks U o'' where
  free := h.free.trans h'.free
  linked := h.linked.trans h'.linked
  link := h.link.trans h'.link
  areas := h'.areas.trans h.areas
  standing := by
    intro x'' hx''
    obtain ⟨x', hx', same', narrow'⟩ := h'.standing x'' hx''
    obtain ⟨x, hx, same, narrow⟩ := h.standing x' hx'
    exact ⟨x, hx, same.trans same', narrow.trans narrow'⟩
  branched := h'.branched

/-- Nothing is left. -/
theorem lost : o.Shrinks U {} where
  free := by simp [Narrows]
  linked := by simp [Narrows]
  link := by simp [Narrows]
  areas := List.nil_sublist _
  standing := by simp
  branched := rfl

/-- Two pieces shrink side by side. -/
theorem append (ha : a.Shrinks U a') (hb : b.Shrinks U b') : (a ++ b).Shrinks U (a' ++ b') where
  free := ha.free.append hb.free
  linked := ha.linked.append hb.linked
  link := .refl _
  areas := by
    rw [areas_append, areas_append]
    exact ha.areas.append hb.areas
  standing := by
    intro x' hx'
    rcases List.mem_append.1 hx' with hx' | hx'
    · obtain ⟨x, hx, rest⟩ := ha.standing x' hx'
      exact ⟨x, List.mem_append_left _ hx, rest⟩
    · obtain ⟨x, hx, rest⟩ := hb.standing x' hx'
      exact ⟨x, List.mem_append_right _ hx, rest⟩
  branched := by
    change (a'.branched && b'.branched) = true
    rw [ha.branched, hb.branched]
    rfl

/-- Code that shrinks under some bound names shrinks. -/
theorem binding (bound : List String) (h : o.Shrinks U o') :
    (o.binding bound).Shrinks U (o'.binding bound) :=
  { h with free := h.free.filter, link := .refl _ }

end Shrinks

namespace Settled

/-- What shrinks stays settled: nothing is free in it that was not. -/
theorem shrink (h : o.Settled U V) (hs : o.Shrinks U o') : o'.Settled U V := by
  intro x' hx' z seen hz
  obtain ⟨x, hx, same, narrow⟩ := hs.standing x' hx'
  rcases narrow z hz with hz | hz
  · exact h x hx z (same ▸ seen) hz
  · exact hz

/-- What happens to other statements does not matter. -/
theorem elsewhere (h : o.Settled U V) (fresh : ∀ x ∈ V', x ∈ V ∨ x.2.area ∉ o.areas) :
    o.Settled U V' := by
  rintro x hx z ⟨v, hv, name, area⟩ hz
  rcases fresh v hv with old | outside
  · exact h x hx z ⟨v, old, name, area⟩ hz
  · exact absurd (area ▸ mem_areas hx) outside

end Settled

/-- What shrinks stays fit, as far as it is settled. -/
theorem Fit.shrink (h : o.Fit U D V) (hs : o.Shrinks U o') (settled : o'.Settled U V') :
    o'.Fit U D V' where
  safe := by
    intro n hn deleted
    rcases hs.linked n hn with hn | hn
    · exact h.safe n hn deleted
    · exact hn
  branched := hs.branched
  apart := h.apart.sublist hs.areas
  settled := settled

/-- The first of two pieces of fit code is fit. -/
theorem Fit.left (h : (a ++ b).Fit U D V) : a.Fit U D V where
  safe := fun n hn => h.safe n (List.mem_append_left _ hn)
  branched := (Bool.and_eq_true_iff.1 h.branched).1
  apart := by
    have apart := h.apart
    rw [areas_append] at apart
    exact (List.nodup_append.1 apart).1
  settled := fun x hx => h.settled x (List.mem_append_left _ hx)

/-- And so is the second. -/
theorem Fit.right (h : (a ++ b).Fit U D V) : b.Fit U D V where
  safe := fun n hn => h.safe n (List.mem_append_right _ hn)
  branched := (Bool.and_eq_true_iff.1 h.branched).2
  apart := by
    have apart := h.apart
    rw [areas_append] at apart
    exact (List.nodup_append.1 apart).2.1
  settled := fun x hx => h.settled x (List.mem_append_right _ hx)

/-- No statement of the first stands where one of the second does. -/
theorem Fit.disjoint (h : (a ++ b).Fit U D V) : a.areas.Disjoint b.areas := by
  have apart := h.apart
  rw [areas_append] at apart
  exact fun x hx hy => (List.nodup_append.1 apart).2.2 x hx x hy rfl

/-- Code is fit whatever names are bound in it. -/
theorem Fit.bound {bound : List String} (h : (o.binding bound).Fit U D V) : o.Fit U D V :=
  ⟨h.safe, h.branched, h.apart, h.settled⟩

/-- And whatever its guard leaves behind. -/
theorem Fit.guardless {link : List String} (h : (o.guarded link).Fit U D V) : o.Fit U D V :=
  ⟨h.safe, h.branched, h.apart, h.settled⟩

/-- What comes second is still fit for the purge after the first. -/
theorem Fit.next (fit : (a ++ b).Fit U D V) (ha : Cleans U dead V V₁ a a') : b.Fit U D V₁ :=
  { fit.right with
    settled := fit.right.settled.elsewhere fun x hx =>
      (ha.fresh x hx).imp_right fun inside outside => fit.disjoint inside outside }

/-- Two pieces side by side are purged one after the other. -/
theorem Cleans.append (fit : (a ++ b).Fit U D V)
    (ha : a.Fit U D V → Cleans U dead V V₁ a a')
    (hb : b.Fit U D V₁ → Cleans U dead V₁ V₂ b b') :
    Cleans U dead V V₂ (a ++ b) (a' ++ b') := by
  have first := ha fit.left
  have second := hb (fit.next first)
  refine ⟨first.shrinks.append second.shrinks, ?_, ?_, ?_⟩
  · intro hd
    rcases List.mem_append.1 hd with hd | hd
    · exact first.gone hd
    · exact second.gone hd
  · intro x hx
    rw [areas_append]
    rcases second.fresh x hx with hx | hx
    · exact (first.fresh x hx).imp_right (List.mem_append_left _)
    · exact .inr (List.mem_append_right _ hx)
  · have kept : a'.Settled U V₂ := first.settled.elsewhere fun x hx =>
      (second.fresh x hx).imp_right fun inside outside =>
        fit.disjoint (first.shrinks.areas.subset outside) inside
    intro x hx
    rcases List.mem_append.1 hx with hx | hx
    · exact kept x hx
    · exact second.settled x hx

/-- Code in which `dead` is not free may stay as it is. -/
theorem Cleans.same (fit : o.Fit U D V) (h : dead ∉ o.free) : Cleans U dead V V o o where
  shrinks := .refl fit.branched
  gone := fun hd => absurd hd h
  fresh := fun _ => .inl
  settled := fit.settled

/-- Nothing is left. -/
theorem Cleans.lost : Cleans U dead V V o {} where
  shrinks := .lost
  gone := by simp
  fresh := fun _ => .inl
  settled := by simp [Settled]

/-- Expressions hold no statements. -/
theorem Cleans.names {ns ns' : List String} (h : ∀ n ∈ ns', n ∈ ns ∧ n ≠ dead) :
    Cleans U dead V V (.names ns) (.names ns') where
  shrinks :=
    { free := fun n hn => .inl (h n hn).1
      linked := .refl _
      link := .refl _
      areas := .refl _
      standing := by simp [Outline.names]
      branched := rfl }
  gone := fun hd => absurd rfl (h dead hd).2
  fresh := fun _ => .inl
  settled := by simp [Settled, Outline.names]

/-- A purge under bound names is a purge. -/
theorem Cleans.binding (bound : List String) (h : Cleans U dead V V' o o') :
    Cleans U dead V V' (o.binding bound) (o'.binding bound) where
  shrinks := h.shrinks.binding bound
  gone := fun hd => h.gone (List.mem_filter.1 hd).1
  fresh := h.fresh
  settled := h.settled

/-- A guard is purged as an expression and leaves only names it had. -/
theorem Cleans.guarded {link link' : List String} (h : Cleans U dead V V' o o')
    (hl : Narrows U link link') : Cleans U dead V V' (o.guarded link) (o'.guarded link') where
  shrinks := { h.shrinks with link := hl }
  gone := h.gone
  fresh := h.fresh
  settled := h.settled

/-- Code behind a statement after some locals of that statement were purged from it. -/
structure Adopted (U : String → Prop) (area : Pos × Pos) (V V' : List Orphan) (o o' : Outline) :
    Prop where
  shrinks : o.Shrinks U o'
  fresh : ∀ x ∈ V', x ∈ V ∨ x.2.area = area ∨ x.2.area ∈ o.areas
  settled : o'.Settled U V'
  absent : ∀ z, Seen V' z area → z ∈ o'.free → U z

namespace Adopted

variable {area : Pos × Pos}

/-- The code is fit for the next purge, which may be one of a local of the statement. -/
theorem fit (h : Adopted U area V V₁ o o') (fit : o.Fit U D V) (outside : area ∉ o.areas)
    (next : ∀ x ∈ V₂, x ∈ V₁ ∨ x.1 = dead ∧ x.2.area = area) : o'.Fit U D V₂ := by
  refine fit.shrink h.shrinks (h.settled.elsewhere fun x hx => (next x hx).imp_right ?_)
  rintro ⟨-, rfl⟩ inside
  exact outside (h.shrinks.areas.subset inside)

/-- The step: purging one more local of the statement from the code behind it. -/
theorem cleans (h : Adopted U area V V₁ o o') (outside : area ∉ o.areas)
    (next : ∀ x ∈ V₂, x ∈ V₁ ∨ x.1 = dead ∧ x.2.area = area)
    (clean : Cleans U dead V₂ V' o' o'') : Adopted U area V V' o o'' where
  shrinks := h.shrinks.trans clean.shrinks
  fresh := by
    intro x hx
    rcases clean.fresh x hx with hx | inside
    · rcases next x hx with hx | ⟨-, same⟩
      · exact h.fresh x hx
      · exact .inr (.inl same)
    · exact .inr (.inr (h.shrinks.areas.subset inside))
  settled := clean.settled
  absent := by
    rintro z ⟨x, hx, rfl, rfl⟩ hz
    rcases clean.fresh x hx with hx | inside
    · rcases next x hx with hx | ⟨rfl, -⟩
      · rcases clean.shrinks.free _ hz with hz | hz
        · exact h.absent _ ⟨x, hx, rfl, rfl⟩ hz
        · exact hz
      · exact clean.gone hz
    · exact absurd (h.shrinks.areas.subset inside) outside

end Adopted

section

variable {declared declared' : List String} {area : Pos × Pos}

theorem areas_before : (before declared area a b).areas = a.areas ++ area :: b.areas := by
  simp [areas, before]

/-- In a list that is fit, the first statement is fit. -/
theorem Fit.first (h : (before declared area a b).Fit U D V) : a.Fit U D V where
  safe := fun n hn => h.safe n (List.mem_append_left _ hn)
  branched := (Bool.and_eq_true_iff.1 h.branched).1
  apart := (List.nodup_append.1 (areas_before ▸ h.apart)).1
  settled := fun x hx => h.settled x (List.mem_append_left _ hx)

/-- And so is the rest of the list. -/
theorem Fit.behind (h : (before declared area a b).Fit U D V) : b.Fit U D V where
  safe := fun n hn => h.safe n (List.mem_append_right _ hn)
  branched := (Bool.and_eq_true_iff.1 h.branched).2
  apart := (List.nodup_cons.1 (List.nodup_append.1 (areas_before ▸ h.apart)).2.1).2
  settled := fun x hx => h.settled x (List.mem_append_right _ (List.mem_cons_of_mem _ hx))

/-- No statement of the rest stands where the first one does. -/
theorem Fit.outside (h : (before declared area a b).Fit U D V) : area ∉ b.areas :=
  (List.nodup_cons.1 (List.nodup_append.1 (areas_before ▸ h.apart)).2.1).1

/-- Nothing inside the first statement stands where it or a later one does. -/
theorem Fit.not_mem_first (h : (before declared area a b).Fit U D V) {r : Pos × Pos}
    (hr : r ∈ area :: b.areas) : r ∉ a.areas := fun mem =>
  (List.nodup_append.1 (areas_before ▸ h.apart)).2.2 r mem r hr rfl

/-- Before any local of the first statement is purged from the rest. -/
theorem Adopted.start (fit : (before declared area a b).Fit U D V)
    (first : Cleans U dead V V₁ a a') : Adopted U area V₁ V₁ b b where
  shrinks := .refl fit.behind.branched
  fresh := fun _ => .inl
  settled := fit.behind.settled.elsewhere fun x hx =>
    (first.fresh x hx).imp_right fun inside outside =>
      fit.not_mem_first (List.mem_cons_of_mem _ outside) inside
  absent := by
    rintro z ⟨x, hx, rfl, rfl⟩ hz
    rcases first.fresh x hx with hx | inside
    · exact fit.settled (_, b.free) (List.mem_append_right _ List.mem_cons_self) _
        ⟨x, hx, rfl, rfl⟩ hz
    · exact absurd inside (fit.not_mem_first List.mem_cons_self)

/-- The rest stays fit while the first statement is purged. -/
theorem Fit.rest (fit : (before declared area a b).Fit U D V)
    (first : Cleans U dead V V₁ a a') : b.Fit U D V₁ :=
  { fit.behind with settled := (Adopted.start fit first).settled }

/-- The locals that a statement loses must be purged from the rest of the list. -/
theorem Shrinks.before (first : a.Shrinks U a') (rest : Adopted U area V V' b b')
    (lost : ∀ n ∈ declared, n ∉ declared' → Seen V' n area) :
    (before declared area a b).Shrinks U (before declared' area a' b') where
  free := by
    refine first.free.append fun n hn => ?_
    obtain ⟨hn, unbound⟩ := List.mem_filter.1 hn
    by_cases bound : n ∈ declared
    · exact .inr (rest.absent n (lost n bound (by simpa using unbound)) hn)
    · exact (rest.shrinks.free n hn).imp_left fun hn => List.mem_filter.2 ⟨hn, by simpa using bound⟩
  linked := first.linked.append rest.shrinks.linked
  link := .refl _
  areas := by
    rw [areas_before, areas_before]
    exact first.areas.append (rest.shrinks.areas.cons_cons _)
  standing := by
    intro x' hx'
    rcases List.mem_append.1 hx' with hx' | hx'
    · obtain ⟨x, hx, narrow⟩ := first.standing x' hx'
      exact ⟨x, List.mem_append_left _ hx, narrow⟩
    · rcases List.mem_cons.1 hx' with rfl | hx'
      · exact ⟨(area, b.free), List.mem_append_right _ List.mem_cons_self, rfl, rest.shrinks.free⟩
      · obtain ⟨x, hx, narrow⟩ := rest.shrinks.standing x' hx'
        exact ⟨x, List.mem_append_right _ (List.mem_cons_of_mem _ hx), narrow⟩
  branched := Bool.and_eq_true_iff.2 ⟨first.branched, rest.shrinks.branched⟩

/-- A list is clean when its first statement is clean, the locals that the statement has lost were
purged from the rest, and so was `dead` unless the statement binds it. -/
theorem Cleans.before (fit : (before declared area a b).Fit U D V)
    (first : Cleans U dead V V₁ a a') (rest : Adopted U area V₁ V' b b')
    (lost : ∀ n ∈ declared, n ∉ declared' → Seen V' n area)
    (gone : dead ∉ declared → dead ∈ b'.free → U dead) :
    Cleans U dead V V' (before declared area a b) (before declared' area a' b') where
  shrinks := first.shrinks.before rest lost
  gone := by
    intro stays
    rcases List.mem_append.1 stays with stays | stays
    · exact first.gone stays
    · obtain ⟨stays, unbound⟩ := List.mem_filter.1 stays
      by_cases bound : dead ∈ declared
      · exact rest.absent dead (lost dead bound (by simpa using unbound)) stays
      · exact gone bound stays
  fresh := by
    intro x hx
    rw [areas_before]
    rcases rest.fresh x hx with hx | inside
    · exact (first.fresh x hx).imp_right (List.mem_append_left _)
    · exact .inr (List.mem_append_right _ (by simpa using inside))
  settled := by
    have kept : a'.Settled U V' := first.settled.elsewhere fun x hx =>
      (rest.fresh x hx).imp_right fun inside outside =>
        fit.not_mem_first (by simpa using inside) (first.shrinks.areas.subset outside)
    intro x hx
    rcases List.mem_append.1 hx with hx | hx
    · exact kept x hx
    · rcases List.mem_cons.1 hx with rfl | hx
      · exact rest.absent
      · exact rest.settled x hx

/-- Nothing is left of the first statement. -/
theorem Shrinks.dropped (h : o.Shrinks U (Outline.before [] area {} b)) (link : b.link = []) :
    o.Shrinks U b where
  free := by simpa [Outline.before] using h.free
  linked := h.linked
  link := by simp [Narrows, link]
  areas := (List.sublist_cons_self area b.areas).trans h.areas
  standing := fun x hx => h.standing x (List.mem_cons_of_mem _ hx)
  branched := h.branched

/-- When nothing is left of the first statement, the list is what is left behind it. -/
theorem Cleans.dropped (h : Cleans U dead V V' o (Outline.before [] area {} b))
    (link : b.link = []) : Cleans U dead V V' o b where
  shrinks := h.shrinks.dropped link
  gone := fun stays => h.gone (by simpa [Outline.before] using stays)
  fresh := h.fresh
  settled := fun x hx => h.settled x (List.mem_cons_of_mem _ hx)

end

end Outline

end Mutation
