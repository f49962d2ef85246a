import IcLir.Lir.Operand

/-
  Instructions of the LIR. A two-operand instruction reads its first operand and changes its
  second: `Add R1,R0` adds `R1` to `R0`. `Compare a,b` sets the condition from `b - a`, which
  the conditional jumps then test.
-/

namespace IcLir

inductive Opcode where
  | move | moveField | moveArray | arrayLength
  | add | sub | mul | div | mod | neg | xor
  | compare | jump | jumpTrue | jumpFalse | jumpG | jumpGE | jumpL | jumpLE
  | library | staticCall | virtualCall | ret
deriving DecidableEq, Repr, Inhabited

namespace Opcode

def all : List Opcode :=
  [.move, .moveField, .moveArray, .arrayLength, .add, .sub, .mul, .div, .mod, .neg, .xor,
   .compare, .jump, .jumpTrue, .jumpFalse, .jumpG, .jumpGE, .jumpL, .jumpLE,
   .library, .staticCall, .virtualCall, .ret]

def mnemonic : Opcode → String
  | .move => "Move"
  | .moveField => "MoveField"
  | .moveArray => "MoveArray"
  | .arrayLength => "ArrayLength"
  | .add => "Add"
  | .sub => "Sub"
  | .mul => "Mul"
  | .div => "Div"
  | .mod => "Mod"
  | .neg => "Neg"
  | .xor => "Xor"
  | .compare => "Compare"
  | .jump => "Jump"
  | .jumpTrue => "JumpTrue"
  | .jumpFalse => "JumpFalse"
  | .jumpG => "JumpG"
  | .jumpGE => "JumpGE"
  | .jumpL => "JumpL"
  | .jumpLE => "JumpLE"
  | .library => "Library"
  | .staticCall => "StaticCall"
  | .virtualCall => "VirtualCall"
  | .ret => "Return"

def named? (mnemonic : String) : Option Opcode := all.find? (·.mnemonic = mnemonic)

end Opcode

/-- When a jump is taken, given the last comparison. -/
inductive Condition where
  | always
  | when (op : CompareOp)
deriving DecidableEq, Repr, Inhabited

def Condition.opcode : Condition → Opcode
  | .always => .jump
  | .when .eq => .jumpTrue
  | .when .ne => .jumpFalse
  | .when .gt => .jumpG
  | .when .ge => .jumpGE
  | .when .lt => .jumpL
  | .when .le => .jumpLE

def ArithOp.opcode : ArithOp → Opcode
  | .add => .add
  | .sub => .sub
  | .mul => .mul
  | .div => .div
  | .mod => .mod

namespace BinaryOp

/-- The instruction that computes an arithmetic operator. -/
def instruction? (op : BinaryOp) : Option Opcode := op.arithmetic?.map ArithOp.opcode

/-- The jump taken when a comparison holds after `Compare right,left`. -/
def jump? (op : BinaryOp) : Option Opcode :=
  op.comparison?.map fun op => (Condition.when op).opcode

end BinaryOp

/-- The instruction that moves an operand to or from a register. -/
def Operand.moveOpcode : Operand → Opcode
  | .field .. => .moveField
  | .element .. => .moveArray
  | .reg _ | .int _ | .label _ | .slot _ => .move

inductive Instr where
  | move (src dst : Operand)
  | arrayLength (array dst : Register)
  | arith (op : ArithOp) (src : Operand) (dst : Register)
  | xor (src : Operand) (dst : Register)
  | neg (dst : Register)
  | compare (src : Operand) (dst : Register)
  | jump (condition : Condition) (target : String)
  | library (routine : String) (args : List Operand) (result : Register)
  | staticCall (label : String) (bindings : List (String × Register)) (result : Register)
  | virtualCall (object : Register) (slot : Nat) (bindings : List (String × Register))
      (result : Register)
  | ret (value : Operand)
deriving DecidableEq, Repr, Inhabited

namespace Instr

/-- A move is named for the side that lies in memory. -/
def opcode : Instr → Opcode
  | .move src dst => if src.isIndirect then src.moveOpcode else dst.moveOpcode
  | .arrayLength .. => .arrayLength
  | .arith op _ _ => op.opcode
  | .xor .. => .xor
  | .neg _ => .neg
  | .compare .. => .compare
  | .jump condition _ => condition.opcode
  | .library .. => .library
  | .staticCall .. => .staticCall
  | .virtualCall .. => .virtualCall
  | .ret _ => .ret

/-- Arguments bound to parameter names, `x2=R1,y2=R2`. -/
def bindingText (bindings : List (String × Register)) : String :=
  ",".intercalate (bindings.map fun b => s!"{b.1}={b.2.text}")

def operandText : Instr → String
  | .move src dst => s!"{src.text},{dst.text}"
  | .arrayLength array dst => s!"{array.text},{dst.text}"
  | .arith _ src dst => s!"{src.text},{dst.text}"
  | .xor src dst => s!"{src.text},{dst.text}"
  | .neg dst => dst.text
  | .compare src dst => s!"{src.text},{dst.text}"
  | .jump _ target => target
  | .library routine args result =>
    routine ++ "(" ++ ",".intercalate (args.map Operand.text) ++ ")," ++ result.text
  | .staticCall label bindings result =>
    label ++ "(" ++ bindingText bindings ++ ")," ++ result.text
  | .virtualCall object slot bindings result =>
    s!"{object.text}.{slot}(" ++ bindingText bindings ++ ")," ++ result.text
  | .ret value => value.text

end Instr

/-- A line of code: a label or an instruction. -/
inductive Line where
  | label (name : String)
  | instr (i : Instr)
deriving DecidableEq, Repr, Inhabited

abbrev Code := List Line

namespace Code

/-- The code that brings `src` into general register `n`; none if it is there. -/
def load (src : Operand) (n : Nat) : Code :=
  if src.isRegister n then [] else [.instr (.move src (.r n))]

/-- What a method without a value returns. -/
def returnNothing : Line := .instr (.ret (.int 9999))

end Code

end IcLir
