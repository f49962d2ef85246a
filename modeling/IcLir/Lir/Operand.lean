import IcLir.Tree.Operator

/-
  Operands of the low-level intermediate representation (LIR).
-/

namespace IcLir

inductive Register where
  /-- `R0`, `R1` and so on, which hold intermediate values. -/
  | general (n : Nat)
  /-- `Rc1` and `Rc2`, used only inside the guard routines. -/
  | scratch (n : Nat)
  /-- The register for results that nobody reads. -/
  | discard
deriving DecidableEq, Repr, Inhabited

def Register.text : Register → String
  | .general n => s!"R{n}"
  | .scratch n => s!"Rc{n}"
  | .discard => "Rdummy"

/-- Where a value is found. -/
inductive Operand where
  | reg (r : Register)
  | int (value : Int)
  /-- The address of a string or of a dispatch table. -/
  | label (name : String)
  /-- A named slot of the running method: a variable, or the receiver. -/
  | slot (name : String)
  /-- A word of the object that a register points at. -/
  | field (base offset : Nat)
  /-- An element of the array that a register points at. -/
  | element (base index : Nat)
deriving DecidableEq, Repr, Inhabited

namespace Operand

/-- The general register with number `n`. -/
def r (n : Nat) : Operand := .reg (.general n)

/-- The slot of the receiver. -/
def receiver : Operand := .slot "this"

def text : Operand → String
  | .reg x => x.text
  | .int value => toString value
  | .label name => name
  | .slot name => name
  | .field base offset => s!"R{base}.{offset}"
  | .element base index => s!"R{base}[R{index}]"

/-- An operand in memory that is reached through a register. -/
def isIndirect : Operand → Bool
  | .field .. | .element .. => true
  | .reg _ | .int _ | .label _ | .slot _ => false

def isLiteral : Operand → Bool
  | .int _ | .label _ => true
  | .reg _ | .slot _ | .field .. | .element .. => false

def isSlot : Operand → Bool
  | .slot _ => true
  | .reg _ | .int _ | .label _ | .field .. | .element .. => false

/-- The number of a general register. -/
def general? : Operand → Option Nat
  | .reg (.general n) => some n
  | _ => none

def isRegister (o : Operand) (n : Nat) : Bool := o = .r n

end Operand

end IcLir
