import Shading.Named

/-!
# Operators

The operators are the same in the surface language and in the core language.
Every target spells them alike, with one exception: a product that goes through
a matrix (`Shading.Target.Dialect`).
-/

namespace Shading

/-- An operator with one operand. -/
inductive UnaryOp where
  | negate
  | not
  | bitNot
  | preIncrement
  | preDecrement
  | postIncrement
  | postDecrement
deriving DecidableEq, Repr

namespace UnaryOp

def symbol : UnaryOp → String
  | .negate => "-"
  | .not => "!"
  | .bitNot => "~"
  | .preIncrement | .postIncrement => "++"
  | .preDecrement | .postDecrement => "--"

/-- Written behind its operand. -/
def isPostfix : UnaryOp → Bool
  | .postIncrement | .postDecrement => true
  | _ => false

/-- Increments and decrements write their operand. -/
def isMutating : UnaryOp → Bool
  | .preIncrement | .preDecrement | .postIncrement | .postDecrement => true
  | _ => false

end UnaryOp

instance : Named UnaryOp where
  values := [.negate, .not, .bitNot, .preIncrement, .preDecrement, .postIncrement, .postDecrement]
  name
    | .negate => "Negate"
    | .not => "Not"
    | .bitNot => "BitNot"
    | .preIncrement => "PreIncrement"
    | .preDecrement => "PreDecrement"
    | .postIncrement => "PostIncrement"
    | .postDecrement => "PostDecrement"

/-- An operator with two operands. -/
inductive BinaryOp where
  | add
  | sub
  | mul
  | div
  | rem
  | bitAnd
  | bitOr
  | bitXor
  | shl
  | shr
  | eq
  | ne
  | lt
  | le
  | gt
  | ge
  | logicalAnd
  | logicalOr
deriving DecidableEq, Repr

def BinaryOp.symbol : BinaryOp → String
  | .add => "+"
  | .sub => "-"
  | .mul => "*"
  | .div => "/"
  | .rem => "%"
  | .bitAnd => "&"
  | .bitOr => "|"
  | .bitXor => "^"
  | .shl => "<<"
  | .shr => ">>"
  | .eq => "=="
  | .ne => "!="
  | .lt => "<"
  | .le => "<="
  | .gt => ">"
  | .ge => ">="
  | .logicalAnd => "&&"
  | .logicalOr => "||"

instance : Named BinaryOp where
  values := [.add, .sub, .mul, .div, .rem, .bitAnd, .bitOr, .bitXor, .shl, .shr,
    .eq, .ne, .lt, .le, .gt, .ge, .logicalAnd, .logicalOr]
  name
    | .add => "Add"
    | .sub => "Sub"
    | .mul => "Mul"
    | .div => "Div"
    | .rem => "Rem"
    | .bitAnd => "BitAnd"
    | .bitOr => "BitOr"
    | .bitXor => "BitXor"
    | .shl => "Shl"
    | .shr => "Shr"
    | .eq => "Eq"
    | .ne => "Ne"
    | .lt => "Lt"
    | .le => "Le"
    | .gt => "Gt"
    | .ge => "Ge"
    | .logicalAnd => "LogicalAnd"
    | .logicalOr => "LogicalOr"

/-- A plain assignment, or one that applies an operator first. -/
inductive AssignOp where
  | assign
  | add
  | sub
  | mul
  | div
  | rem
  | bitAnd
  | bitOr
  | bitXor
  | shl
  | shr
deriving DecidableEq, Repr

/-- The operator a compound assignment applies. -/
def AssignOp.binary? : AssignOp → Option BinaryOp
  | .assign => none
  | .add => some .add
  | .sub => some .sub
  | .mul => some .mul
  | .div => some .div
  | .rem => some .rem
  | .bitAnd => some .bitAnd
  | .bitOr => some .bitOr
  | .bitXor => some .bitXor
  | .shl => some .shl
  | .shr => some .shr

/-- An assignment is spelled as the operator it applies, and `=`. -/
def AssignOp.symbol (op : AssignOp) : String := (op.binary?.map BinaryOp.symbol).getD "" ++ "="

instance : Named AssignOp where
  values := [.assign, .add, .sub, .mul, .div, .rem, .bitAnd, .bitOr, .bitXor, .shl, .shr]
  name
    | .assign => "Assign"
    | .add => "Add"
    | .sub => "Sub"
    | .mul => "Mul"
    | .div => "Div"
    | .rem => "Rem"
    | .bitAnd => "BitAnd"
    | .bitOr => "BitOr"
    | .bitXor => "BitXor"
    | .shl => "Shl"
    | .shr => "Shr"

end Shading
