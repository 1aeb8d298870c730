import Mutation.Tree.Ty

/-!
# Operators of the language

Binary operators fall into six classes, and a mutation replaces an operator only within its
class. Which members of the class are defined depends on the type of the left operand:
on sets the arithmetic operators are union, difference and intersection, and on sequences the
order is that of initial segments.
-/

namespace Mutation

/-- A binary operator. -/
inductive BinaryOp where
  | add | sub | mul | div | mod
  | lt | le | gt | ge | eq | neq
  | and | or | imp | iff
  | shl | shr
  | bitAnd | bitOr | bitXor
  | mem | notMem
deriving DecidableEq

/-- The six classes of binary operators. -/
inductive OpClass where
  | arithmetic | relational | logical | shift | bitwise | membership
deriving DecidableEq

namespace BinaryOp

/-- Every binary operator, class by class. -/
def all : List BinaryOp :=
  [.add, .sub, .mul, .div, .mod, .lt, .le, .gt, .ge, .eq, .neq, .and, .or, .imp, .iff, .shl,
    .shr, .bitAnd, .bitOr, .bitXor, .mem, .notMem]

/-- The name of an operator, as arguments give it. -/
def name : BinaryOp → String
  | .add => "Add"
  | .sub => "Sub"
  | .mul => "Mul"
  | .div => "Div"
  | .mod => "Mod"
  | .lt => "Lt"
  | .le => "Le"
  | .gt => "Gt"
  | .ge => "Ge"
  | .eq => "Eq"
  | .neq => "Neq"
  | .and => "And"
  | .or => "Or"
  | .imp => "Imp"
  | .iff => "Iff"
  | .shl => "Shl"
  | .shr => "Shr"
  | .bitAnd => "BitAnd"
  | .bitOr => "BitOr"
  | .bitXor => "BitXor"
  | .mem => "In"
  | .notMem => "NotIn"

/-- How an operator is written in a program. -/
def symbol : BinaryOp → String
  | .add => "+"
  | .sub => "-"
  | .mul => "*"
  | .div => "/"
  | .mod => "%"
  | .lt => "<"
  | .le => "<="
  | .gt => ">"
  | .ge => ">="
  | .eq => "=="
  | .neq => "!="
  | .and => "&&"
  | .or => "||"
  | .imp => "==>"
  | .iff => "<==>"
  | .shl => "<<"
  | .shr => ">>"
  | .bitAnd => "&"
  | .bitOr => "|"
  | .bitXor => "^"
  | .mem => "in"
  | .notMem => "!in"

/-- The class of an operator. -/
def opClass : BinaryOp → OpClass
  | .add | .sub | .mul | .div | .mod => .arithmetic
  | .lt | .le | .gt | .ge | .eq | .neq => .relational
  | .and | .or | .imp | .iff => .logical
  | .shl | .shr => .shift
  | .bitAnd | .bitOr | .bitXor => .bitwise
  | .mem | .notMem => .membership

/-- The operator with exactly this name. -/
def ofName? (s : String) : Option BinaryOp := all.find? fun op => op.name == s

/-- Reads a name, without regard to case or surrounding blanks. -/
def read? (s : String) : Option BinaryOp :=
  all.find? fun op => Text.sameLetters op.name (Text.trim s)

/-- The operators that may stand where `op` stands on operands of type `t`, itself included
if it may. -/
def rivals (op : BinaryOp) (t : Ty) : List BinaryOp :=
  match op.opClass with
  | .arithmetic =>
    if t.isIntegral then [.add, .sub, .mul, .div, .mod]
    else if t = .real then [.add, .sub, .mul, .div]
    else if t.isSetLike then [.add, .sub, .mul]
    else []
  | .relational =>
    if t.isNumeric || t = .char || t.isSetLike then [.lt, .le, .gt, .ge, .eq, .neq]
    else if t.isSequenceLike then [.lt, .le, .eq, .neq]
    else [.eq, .neq]
  | .logical => if op = .iff then [.imp] else [.and, .or, .imp]
  | .shift => [.shl, .shr]
  | .bitwise => [.bitAnd, .bitOr, .bitXor]
  | .membership => [.mem, .notMem]

/-- The other operators that may replace `op` on operands of type `t`. -/
def replacements (op : BinaryOp) (t : Ty) : List BinaryOp :=
  (rivals op t).filter fun r => r ≠ op

end BinaryOp

/-- A unary operator. -/
inductive UnaryOp where
  | not | neg
deriving DecidableEq

namespace UnaryOp

/-- The name of an operator, as arguments give it. -/
def name : UnaryOp → String
  | .not => "Not"
  | .neg => "Neg"

/-- The operator with exactly this name. -/
def ofName? (s : String) : Option UnaryOp := [.not, .neg].find? fun op => op.name == s

/-- Reads a name, without regard to case or surrounding blanks. -/
def read? (s : String) : Option UnaryOp :=
  [.not, .neg].find? fun op => Text.sameLetters op.name (Text.trim s)

/-- The negation for a value of type `t`. -/
def forType? : Ty → Option UnaryOp
  | .bool => some .not
  | .int | .real => some .neg
  | _ => none

end UnaryOp

/-- The kinds of collection displays. -/
inductive Collection where
  | seq | set | multiset
deriving DecidableEq

namespace Collection

/-- The name of a kind. -/
def name : Collection → String
  | .seq => "Seq"
  | .set => "Set"
  | .multiset => "Multiset"

/-- The kind with exactly this name. -/
def ofName? (s : String) : Option Collection :=
  [.seq, .set, .multiset].find? fun k => k.name == s

/-- The type of a display with elements of type `t`. -/
def typeOf : Collection → Ty → Ty
  | .seq => .seq
  | .set => .set
  | .multiset => .multiset

end Collection

end Mutation
