import Mutation.Text.Numeral

/-!
# Spans on the token axis

Every node of a tree covers a closed range of token positions and marks one of them, its
anchor, which tells nodes apart whose ranges coincide. Spans come from outside and nothing
about them is promised: a range may be empty and an anchor may lie outside it. Two spans
*coincide* when their ranges are equal, whatever their anchors.
-/

namespace Mutation

/-- A position on the token axis. -/
abbrev Pos := UInt32

/-- A closed range of positions with a marked one. -/
structure Span where
  start : Pos
  stop : Pos
  anchor : Pos
deriving DecidableEq, Inhabited

namespace Span

/-- The range is non-empty and holds the anchor. -/
def anchoredB (s : Span) : Bool := s.start ≤ s.anchor && s.anchor ≤ s.stop

/-- The span of one token. -/
def token (p : Pos) : Span := ⟨p, p, p⟩

/-- The range from `a` to `b`, anchored at its start. -/
def range (a b : Pos) : Span := ⟨a, b, a⟩

/-- The range from `a` to `b`, or the single position `a` when `b` comes before it, with the
anchor moved into the range. -/
def fitted (a b anchor : Pos) : Span :=
  let b := max a b
  ⟨a, b, max a (min anchor b)⟩

/-- A position lies in the range. -/
def contains (s : Span) (p : Pos) : Bool := s.start ≤ p && p ≤ s.stop

/-- The range of `t` lies in the range of `s`. -/
def encloses (s t : Span) : Bool := s.start ≤ t.start && t.stop ≤ s.stop

/-- Equality of ranges. -/
def coincides (s t : Span) : Bool := s.start == t.start && s.stop == t.stop

/-- Order by start, then by end. -/
def order (s t : Span) : Ordering :=
  (compare s.start t.start).then (compare s.stop t.stop)

/-- How many positions are covered, an empty range counting as one; `none` when the count does
not fit a position. -/
def size? (s : Span) : Option Nat :=
  let n := s.stop.toNat - s.start.toNat + 1
  if n < UInt32.size then some n else none

/-- The text `[start, stop]@anchor`. -/
def text (s : Span) : String :=
  "[" ++ Text.natText s.start.toNat ++ ", " ++ Text.natText s.stop.toNat ++ "]@" ++
    Text.natText s.anchor.toNat

/-- What is said of an anchor outside its range. -/
def strayAnchorText (s : Span) : String :=
  "Span anchor (" ++ Text.natText s.anchor.toNat ++ ") must lie within [" ++
    Text.natText s.start.toNat ++ ", " ++ Text.natText s.stop.toNat ++ "]"

theorem anchoredB_iff {s : Span} :
    s.anchoredB = true ↔ s.start ≤ s.anchor ∧ s.anchor ≤ s.stop := by
  simp [anchoredB]

theorem encloses_iff {s t : Span} :
    s.encloses t = true ↔ s.start ≤ t.start ∧ t.stop ≤ s.stop := by
  simp [encloses]

theorem coincides_iff {s t : Span} :
    s.coincides t = true ↔ s.start = t.start ∧ s.stop = t.stop := by
  simp [coincides]

end Span

end Mutation
