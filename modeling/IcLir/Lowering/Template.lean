import IcLir.Context
import IcLir.Lir.Guard
import IcLir.Lir.Label

/-
  The code of each operation, given the code of its operands. An operand in memory is loaded
  before the registers that it is reached through are used again.
-/

namespace IcLir

namespace Lowering

/-- The call of a library routine. -/
def libraryCall (routine : String) (args : List Operand) (result : Nat) : Line :=
  .instr (.library routine args (.general result))

/-- The right operand of an operation: kept where it is if `keep` allows it and the strategy
    makes use of it, else loaded into register `n`. -/
def rightOperand (s : Strategy) (keep : Bool) (value : Operand) (n : Nat) : Code × Operand :=
  if keep && s = .pressureAware && (value.isLiteral || value.isSlot) then ([], value)
  else (Code.load value n, .r n)

/-- Both operands of an operation, ready for use: the left one in a register. -/
structure Operands where
  code : Code
  left : Nat
  right : Operand

/-- Puts the code of two operands together; the first one evaluated has register `d`. -/
def operands (s : Strategy) (rightFirst keepRight : Bool) (d : Nat)
    (left right : Code × Operand) : Operands :=
  if rightFirst then
    let (load, operand) := rightOperand s keepRight right.2 d
    ⟨right.1 ++ load ++ left.1 ++ Code.load left.2 (d + 1), d + 1, operand⟩
  else
    let (load, operand) := rightOperand s keepRight right.2 (d + 1)
    ⟨left.1 ++ Code.load left.2 d ++ right.1 ++ load, d, operand⟩

/-- String concatenation into register `d`. -/
def concatCode (os : Operands) (d : Nat) : Code :=
  os.code ++ [libraryCall "__stringCat" [.r os.left, os.right] d]

/-- The guard of a divisor, which is called on its register. -/
def divisorGuard (op : ArithOp) (right : Operand) : Code :=
  if op.divides then (right.general?.map fun n => Guard.zero.call [n]).toList else []

/-- Arithmetic into register `d`; a divisor is guarded. -/
def arithCode (op : ArithOp) (os : Operands) (d : Nat) : Code :=
  os.code ++ divisorGuard op os.right ++
    [.instr (.arith op os.right (.general os.left))] ++ Code.load (.r os.left) d

/-- An addition that joins strings, or arithmetic proper. -/
def operationCode (isConcat : Bool) (op : ArithOp) (os : Operands) (d : Nat) : Code :=
  if isConcat then concatCode os d else arithCode op os d

/-- Whether the right operand may stay where it is: not for a library call, nor for a divisor,
    whose guard takes a register. -/
def keepsRight (isConcat divides : Bool) : Bool := !isConcat && !divides

/-- A comparison, with 0 or 1 in register `d`. -/
def compareCode (op : CompareOp) (labels : LabelSet) (os : Operands) (d : Nat) : Code :=
  os.code ++
    [.instr (.compare os.right (.general os.left)),
     .instr (.jump (.when op) labels.trueLabel),
     .instr (.move (.int 0) (.r d)),
     .instr (.jump .always labels.endLabel),
     .label labels.trueLabel,
     .instr (.move (.int 1) (.r d)),
     .label labels.endLabel]

/-- Leaves for `exit` if register `d` decides the logical operation. -/
def logicTest (op : LogicOp) (d : Nat) (exit : String) : Code :=
  [.instr (.compare (.int 0) (.general d)),
   .instr (.jump (.when (match op with | .and => .eq | .or => .ne)) exit)]

/-- A logical operation, with 0 or 1 in register `d`; the right operand is passed over once
    the left one decides. -/
def logicCode (op : LogicOp) (labels : LabelSet) (left right : Code × Operand) (d : Nat) : Code :=
  let (exit, through, decided) := match op with
    | .and => (labels.falseLabel, 1, 0)
    | .or => (labels.trueLabel, 0, 1)
  left.1 ++ Code.load left.2 d ++ logicTest op d exit ++
    right.1 ++ Code.load right.2 d ++ logicTest op d exit ++
    [.instr (.move (.int through) (.r d)),
     .instr (.jump .always labels.endLabel),
     .label exit,
     .instr (.move (.int decided) (.r d)),
     .label labels.endLabel]

def unaryCode : UnaryOp → Nat → Instr
  | .neg, d => .neg (.general d)
  | .not, d => .xor (.int 1) (.general d)

/-- An array element: the array is guarded before its index is used. -/
def indexCode (indexFirst : Bool) (array index : Code × Operand) (d : Nat) : Code × Operand :=
  if indexFirst then
    (index.1 ++ Code.load index.2 d ++ array.1 ++ Code.load array.2 (d + 1) ++
      [Guard.nullRef.call [d + 1], Guard.arrayAccess.call [d + 1, d]], .element (d + 1) d)
  else
    (array.1 ++ Code.load array.2 d ++ [Guard.nullRef.call [d]] ++
      index.1 ++ Code.load index.2 (d + 1) ++ [Guard.arrayAccess.call [d, d + 1]],
     .element d (d + 1))

/-- A value made ready to be stored: a register, or a literal where the strategy keeps it. -/
def storeSource (s : Strategy) (value : Operand) : Code × Operand :=
  if s = .pressureAware && value.isLiteral then ([], value) else (Code.load value 0, .r 0)

def jumpLine (condition : Condition) (target : String) : Line := .instr (.jump condition target)

end Lowering

end IcLir
