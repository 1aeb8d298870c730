import Mutation.Source.Span

/-!
# Locations

A request addresses a node by its anchor or by its exact range. As text, an anchor is a
number and a range two numbers with a `-` between them; blanks around the text and around
each number are ignored. A range that is read has its start at or before its end; one that
is built need not.
-/

namespace Mutation

/-- How a request addresses a node. -/
inductive Location where
  | anchor (pos : Pos)
  | range (start stop : Pos)
deriving DecidableEq

/-- Why a text is no location. -/
inductive LocationFault where
  | empty
  | badPosition (text : String)
  | inverted (start stop : Pos)
deriving DecidableEq

/-- What is said of a text that is no location. -/
def LocationFault.message : LocationFault → String
  | .empty => "empty target location"
  | .badPosition text => "invalid position '" ++ text ++ "' in target location"
  | .inverted start stop =>
    "span start " ++ Text.natText start.toNat ++ " lies after end " ++ Text.natText stop.toNat

namespace Location

/-- The location addresses exactly a node with this span. -/
def matchesB : Location → Span → Bool
  | .anchor p, s => s.anchor == p
  | .range a b, s => s.start == a && s.stop == b

/-- A node the location addresses could lie inside this span. -/
def mayLieIn : Location → Span → Bool
  | .anchor p, s => s.contains p
  | .range a b, s => s.start ≤ a && b ≤ s.stop

/-- The first position the location covers. -/
def first : Location → Pos
  | .anchor p => p
  | .range a _ => a

/-- The text of a location. -/
def chars : Location → List Char
  | .anchor p => Text.natChars p.toNat
  | .range a b => Text.natChars a.toNat ++ '-' :: Text.natChars b.toNat

/-- The text of a location. -/
def text (l : Location) : String := String.ofList l.chars

/-- One number of a location; the fault quotes it with its blanks. -/
def readPos (cs : List Char) : Except LocationFault Pos :=
  match Text.readWord32? (Text.trimChars cs) with
  | some p => .ok p
  | none => .error (.badPosition (String.ofList cs))

/-- Reads a location. -/
def readChars (cs : List Char) : Except LocationFault Location :=
  match Text.trimChars cs with
  | [] => .error .empty
  | body =>
    match Text.splitFirst '-' body with
    | none => (readPos body).map .anchor
    | some (left, right) => do
      let a ← readPos left
      let b ← readPos right
      if b < a then .error (.inverted a b) else .ok (.range a b)

/-- Reads a location. -/
def read (s : String) : Except LocationFault Location := readChars s.toList

end Location

namespace Span

/-- The location that addresses a span by its range. -/
def rangeLocation (s : Span) : Location := .range s.start s.stop

/-- The location that addresses a span by its anchor. -/
def anchorLocation (s : Span) : Location := .anchor s.anchor

end Span

end Mutation
