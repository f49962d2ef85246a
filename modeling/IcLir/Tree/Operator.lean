/-
  The operators of the source language, grouped by what they take and give: arithmetic
  (numbers, and `+` on strings), comparison (a boolean result) and logic (short-circuit).
-/

namespace IcLir

inductive ArithOp where
  | add | sub | mul | div | mod
deriving DecidableEq, Repr, Inhabited

inductive CompareOp where
  | eq | ne | lt | le | gt | ge
deriving DecidableEq, Repr, Inhabited

inductive LogicOp where
  | or | and
deriving DecidableEq, Repr, Inhabited

inductive BinaryOp where
  | arith (op : ArithOp)
  | compare (op : CompareOp)
  | logic (op : LogicOp)
deriving DecidableEq, Repr, Inhabited

inductive UnaryOp where
  | neg | not
deriving DecidableEq, Repr, Inhabited

def ArithOp.text : ArithOp → String
  | .add => "+"
  | .sub => "-"
  | .mul => "*"
  | .div => "/"
  | .mod => "%"

/-- Division and remainder, whose right operand must not be zero. -/
def ArithOp.divides : ArithOp → Bool
  | .div | .mod => true
  | .add | .sub | .mul => false

def CompareOp.text : CompareOp → String
  | .eq => "=="
  | .ne => "!="
  | .lt => "<"
  | .le => "<="
  | .gt => ">"
  | .ge => ">="

def CompareOp.isEquality : CompareOp → Bool
  | .eq | .ne => true
  | .lt | .le | .gt | .ge => false

def LogicOp.text : LogicOp → String
  | .or => "||"
  | .and => "&&"

namespace BinaryOp

def text : BinaryOp → String
  | .arith op => op.text
  | .compare op => op.text
  | .logic op => op.text

def isArithmetic : BinaryOp → Bool
  | .arith _ => true
  | .compare _ | .logic _ => false

def isLogical : BinaryOp → Bool
  | .logic _ => true
  | .arith _ | .compare _ => false

def isComparison : BinaryOp → Bool
  | .compare _ => true
  | .arith _ | .logic _ => false

/-- The operator of arithmetic, if it is one. -/
def arithmetic? : BinaryOp → Option ArithOp
  | .arith op => some op
  | .compare _ | .logic _ => none

/-- The comparison, if it is one. -/
def comparison? : BinaryOp → Option CompareOp
  | .compare op => some op
  | .arith _ | .logic _ => none

def divides (op : BinaryOp) : Bool := op.arithmetic?.any ArithOp.divides

def isEquality : BinaryOp → Bool
  | .compare op => op.isEquality
  | .arith _ | .logic _ => false

def isOrdering : BinaryOp → Bool
  | .compare op => !op.isEquality
  | .arith _ | .logic _ => false

/-- Swapping the operands keeps the result. -/
def isCommutative : BinaryOp → Bool
  | .arith .add | .arith .mul => true
  | .compare op => op.isEquality
  | .arith _ | .logic _ => false

end BinaryOp

def UnaryOp.text : UnaryOp → String
  | .neg => "-"
  | .not => "!"

end IcLir
