import Mutation.Number.Wide
import Mutation.Number.Decimal

/-!
# Literals and their text

A literal is written as it would stand in a program: characters and texts in quotes, with a
backslash before the six characters that cannot stand for themselves. Operator arguments carry
new values in this form, and `Literal.readAs` reads them back as values of a given kind.
-/

namespace Mutation

/-- A literal value. -/
inductive Literal where
  | int (value : Wide)
  | real (value : Double)
  | bool (value : Bool)
  | char (value : Char)
  | string (value : String)
  | null
deriving DecidableEq

/-- The kind of a literal. -/
inductive LiteralKind where
  | int | real | bool | char | string | null
deriving DecidableEq

namespace LiteralKind

/-- The name of a kind. -/
def name : LiteralKind → String
  | .int => "Int"
  | .real => "Real"
  | .bool => "Bool"
  | .char => "Char"
  | .string => "String"
  | .null => "Null"

/-- Every kind. -/
def all : List LiteralKind := [.int, .real, .bool, .char, .string, .null]

/-- The kind with exactly this name. -/
def ofName? (s : String) : Option LiteralKind := all.find? fun k => k.name == s

end LiteralKind

/-- Real literals are written positionally from `0.0001` up to below `10 ^ 16`; an exponent has
a sign only when it is negative. -/
def Literal.realFormat : RealFormat where
  least := -4
  most := 15
  signed := false
  tie := .larger
  nan := "NaN"
  infinity := "inf"

namespace Literal

/-- The kind of a literal. -/
def kind : Literal → LiteralKind
  | .int _ => .int
  | .real _ => .real
  | .bool _ => .bool
  | .char _ => .char
  | .string _ => .string
  | .null => .null

/-- Equality of values: reals compare as numbers, so not-a-number differs from itself. -/
def same : Literal → Literal → Bool
  | .int a, .int b => a == b
  | .real a, .real b => a.same b
  | .bool a, .bool b => a == b
  | .char a, .char b => a == b
  | .string a, .string b => a == b
  | .null, .null => true
  | _, _ => false

/-- One character inside quotes. -/
def escapeChar (c : Char) : List Char :=
  if c = '\\' then ['\\', '\\']
  else if c = '"' then ['\\', '"']
  else if c = '\'' then ['\\', '\'']
  else if c = '\n' then ['\\', 'n']
  else if c = '\r' then ['\\', 'r']
  else if c = '\t' then ['\\', 't']
  else [c]

/-- A text inside quotes. -/
def escape (cs : List Char) : List Char := cs.flatMap escapeChar

/-- The character a backslash and `c` stand for. -/
def unescapeChar? (c : Char) : Option Char :=
  if c = '\\' ∨ c = '"' ∨ c = '\'' then some c
  else if c = 'n' then some '\n'
  else if c = 'r' then some '\r'
  else if c = 't' then some '\t'
  else none

/-- The text between quotes; refused when a backslash stands before any other character or at
the end. -/
def unescape? : List Char → Option (List Char)
  | [] => some []
  | '\\' :: [] => none
  | '\\' :: c :: cs => do
    let c ← unescapeChar? c
    let cs ← unescape? cs
    return c :: cs
  | c :: cs => (unescape? cs).map (c :: ·)

/-- The text between two quotes `q` at the ends. -/
def unquote? (q : Char) : List Char → Option (List Char)
  | [] => none
  | c :: cs =>
    if c = q then
      match cs.getLast? with
      | some last => if last = q then some cs.dropLast else none
      | none => none
    else none

/-- The text of a literal. -/
def chars : Literal → List Char
  | .int v => Text.intChars v.val
  | .real v => (realFormat.write v).toList
  | .bool true => "true".toList
  | .bool false => "false".toList
  | .char c => '\'' :: (escapeChar c ++ ['\''])
  | .string s => '"' :: (escape s.toList ++ ['"'])
  | .null => "null".toList

/-- The text of a literal. -/
def text (l : Literal) : String := String.ofList l.chars

/-- The literal of the given kind that a text without surrounding blanks denotes. -/
def readBody? (cs : List Char) : LiteralKind → Option Literal
  | .int => (Wide.read? cs).map .int
  | .real => (Double.read? cs).map .real
  | .bool =>
    if cs = "true".toList then some (.bool true)
    else if cs = "false".toList then some (.bool false)
    else none
  | .char =>
    match (unquote? '\'' cs).bind unescape? with
    | some [c] => some (.char c)
    | _ => none
  | .string => ((unquote? '"' cs).bind unescape?).map fun cs => .string (String.ofList cs)
  | .null => if cs = "null".toList then some .null else none

/-- The literal of the given kind that a text denotes. -/
def readAs (kind : LiteralKind) (s : String) : Option Literal :=
  readBody? (Text.trimChars s.toList) kind

end Literal

end Mutation
