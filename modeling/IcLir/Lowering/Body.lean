import IcLir.Lowering.Callee
import IcLir.Lowering.Template

/-
  Lowering of method bodies. `lowerExpr env e d` gives code that uses only registers from `d`
  on, and the operand that holds the value when the code is done. Every statement starts from
  register 0, since no value is kept in a register from one statement to the next.
-/

namespace IcLir

namespace Lowering

open Pass (fail promised)

def literalOperand : Literal → Lower Operand
  | .int value => pure (.int value)
  | .string text => return .label (← internString text)
  | .bool true => pure (.int 1)
  | .bool false => pure (.int 0)
  | .null => pure (.int 0)

/-- A bare name: the slot of a variable, or a field of the receiver. -/
def lowerName (env : LowerEnv) (node : Node) (name : String) (d : Nat) :
    Lower (Code × Operand) := do
  let resolution ← promised (env.context.references.get? node.id)
    (.unresolvedReference name node.span.line)
  match resolution with
  | .variable scope => return ([], .slot (slotName name (env.context.scopes.depth scope)))
  | .field _ =>
    let offset ← env.fieldOffset env.type name
    return ([.instr (.move .receiver (.r d))], .field d offset)

def lowerNewObject (env : LowerEnv) (name : String) (d : Nat) : Lower (Code × Operand) := do
  let layout ← env.layout (← env.classType name)
  return ([libraryCall "__allocateObject" [.int layout.objectSize] d,
           .instr (.move (.label layout.dispatchLabel) (.field d 0))], .r d)

/-- A comparison, by the jump of its operator. -/
def comparison (op : BinaryOp) (labels : LabelSet) (os : Operands) (d : Nat) : Lower Code :=
  return compareCode (← promised op.comparison? (.notAComparison op)) labels os d

/-- An addition that joins strings, or arithmetic, by the instruction of its operator. -/
def operation (isConcat : Bool) (op : BinaryOp) (os : Operands) (d : Nat) : Lower Code :=
  if isConcat then return concatCode os d
  else if op.divides && os.right.general?.isNone then fail .divisorNotLoaded
  else return arithCode (← promised op.arithmetic? (.notArithmetic op)) os d

/-- Two operands, the first one evaluated at register `d` and the other above it. -/
def inOrder (rightFirst : Bool) (left right : Nat → Lower (Code × Operand)) (d : Nat) :
    Lower ((Code × Operand) × (Code × Operand)) := do
  if rightFirst then
    let r ← right d
    return (← left (d + 1), r)
  else
    let l ← left d
    return (l, ← right (d + 1))

mutual

def lowerExpr (env : LowerEnv) : Expr → Nat → Lower (Code × Operand)
  | .literal _ value, _ => return ([], ← literalOperand value)
  | .var node name, d => lowerName env node name.name d
  | .field _ object name, d => do
    let (code, value) ← lowerExpr env object d
    let type ← env.typeOf object
    let offset ← env.fieldOffset type name.name
    return (code ++ Code.load value d ++ [Guard.nullRef.call [d]], .field d offset)
  | .index _ array i, d => do
    let rightFirst := env.strategy.rightFirst array i
    let (array, index) ← inOrder rightFirst (lowerExpr env array) (lowerExpr env i) d
    return indexCode rightFirst array index d
  | .staticCall _ className method args, d => do
    let type ← env.classType className.name
    let callee ← env.callee type method.name
    let code ← lowerArgs env args d
    return (code ++ [← env.staticCallLine callee method.name d], .r d)
  | .ownCall _ method args, d => do
    let callee ← env.callee env.type method.name
    if callee.kind.isStatic then
      let code ← lowerArgs env args d
      return (code ++ [← env.staticCallLine callee method.name d], .r d)
    else
      let code ← lowerArgs env args (d + 1)
      let line ← env.virtualCallLine callee d
      return (.instr (.move .receiver (.r d)) :: code ++ [line], .r d)
  | .methodCall _ receiver method args, d => do
    let type ← env.typeOf receiver
    let callee ← env.callee type method.name
    let (objectCode, object) ← lowerExpr env receiver d
    let code ← lowerArgs env args (d + 1)
    let line ← env.virtualCallLine callee d
    return (objectCode ++ Code.load object d ++ [Guard.nullRef.call [d]] ++ code ++ [line], .r d)
  | .this _, _ => return ([], .receiver)
  | .newObject _ className, d => lowerNewObject env className.name d
  | .newArray _ _ size, d => do
    let (code, value) ← lowerExpr env size d
    return (code ++ Code.load value d ++
      [.instr (.arith .mul (.int 4) (.general d)), Guard.size.call [d],
       libraryCall "__allocateArray" [.r d] d], .r d)
  | .length _ array, d => do
    let (code, value) ← lowerExpr env array d
    return (code ++ Code.load value d ++
      [Guard.nullRef.call [d], .instr (.arrayLength (.general d) (.general d))], .r d)
  | .binary _ (.logic op) left right, d => do
    let labels ← freshLabels
    let left ← lowerExpr env left d
    let right ← lowerExpr env right d
    return (logicCode op labels left right d, .r d)
  | .binary _ op left right, d => do
    let rightFirst := env.strategy.rightFirst left right
    if op.isComparison then
      let labels ← freshLabels
      let (l, r) ← inOrder rightFirst (lowerExpr env left) (lowerExpr env right) d
      return (← comparison op labels (operands env.strategy rightFirst true d l r) d, .r d)
    else
      let isConcat ← env.isConcat op left
      let (l, r) ← inOrder rightFirst (lowerExpr env left) (lowerExpr env right) d
      let keep := keepsRight isConcat op.divides
      return (← operation isConcat op (operands env.strategy rightFirst keep d l r) d, .r d)
  | .unary _ op operand, d => do
    let (code, value) ← lowerExpr env operand d
    return (code ++ Code.load value d ++ [.instr (unaryCode op d)], .r d)
  | .paren _ inner, d => lowerExpr env inner d

/-- Evaluates arguments into consecutive registers from `base` on. -/
def lowerArgs (env : LowerEnv) : List Expr → Nat → Lower Code
  | [], _ => return []
  | arg :: args, base => do
    let (code, value) ← lowerExpr env arg base
    let rest ← lowerArgs env args (base + 1)
    return code ++ Code.load value base ++ rest

end

/-- A condition in register 0, compared with false. -/
def lowerCondition (env : LowerEnv) (condition : Expr) : Lower Code := do
  let (code, value) ← lowerExpr env condition 0
  return code ++ Code.load value 0 ++ [.instr (.compare (.int 0) (.general 0))]

def lowerReturn (env : LowerEnv) : Option Expr → Lower Code
  | none => return [Code.returnNothing]
  | some e => do
    let (code, value) ← lowerExpr env e 0
    if value.isIndirect then return code ++ Code.load value 0 ++ [.instr (.ret (.r 0))]
    else return code ++ [.instr (.ret value)]

def lowerDeclaration (env : LowerEnv) (scope : ScopeId) (name : String) :
    Option Expr → Lower Code
  | none => return []
  | some e => do
    let (code, value) ← lowerExpr env e 0
    let (load, source) := storeSource env.strategy value
    let slot := Operand.slot (slotName name (env.context.scopes.depth scope))
    return code ++ load ++ [.instr (.move source slot)]

mutual

def lowerStmt (env : LowerEnv) (loops : Loops) (scope : ScopeId) : Stmt → Lower Code
  | .assign _ target value => do
    let (valueCode, value) ← lowerExpr env value 0
    let (load, source) := storeSource env.strategy value
    let (targetCode, target) ← lowerExpr env target 1
    return valueCode ++ load ++ targetCode ++ [.instr (.move source target)]
  | .call _ expr => do
    let (code, _) ← lowerExpr env expr 0
    return code
  | .ret _ value => lowerReturn env value
  | .ifThen _ condition body => do
    let labels ← freshLabels
    let test ← lowerCondition env condition
    let inner ← env.branchScope scope body
    let bodyCode ← lowerStmt env loops inner body
    return test ++ [jumpLine (.when .eq) labels.endLabel] ++ bodyCode ++ [.label labels.endLabel]
  | .ifElse _ condition thenBranch elseBranch => do
    let labels ← freshLabels
    let test ← lowerCondition env condition
    let inner ← env.branchScope scope thenBranch
    let thenCode ← lowerStmt env loops inner thenBranch
    let inner ← env.branchScope scope elseBranch
    let elseCode ← lowerStmt env loops inner elseBranch
    return test ++ [jumpLine (.when .eq) labels.falseLabel] ++ thenCode ++
      [jumpLine .always labels.endLabel, .label labels.falseLabel] ++ elseCode ++
      [.label labels.endLabel]
  | .loop _ condition body => do
    let labels ← freshLabels
    let test ← lowerCondition env condition
    let inner ← env.branchScope scope body
    let bodyCode ← lowerStmt env (labels :: loops) inner body
    return .label labels.conditionLabel :: test ++ [jumpLine (.when .eq) labels.endLabel] ++
      bodyCode ++ [jumpLine .always labels.conditionLabel, .label labels.endLabel]
  | .breakLoop _ => do
    let target ← promised loops.breakTarget? .breakOutsideLoop
    return [jumpLine .always target]
  | .continueLoop _ => do
    let target ← promised loops.continueTarget? .continueOutsideLoop
    return [jumpLine .always target]
  | .block node stmts => do
    let inner ← env.blockScope node.id
    lowerStmts env loops inner stmts
  | .declare _ _ name init => lowerDeclaration env scope name.name init

def lowerStmts (env : LowerEnv) (loops : Loops) (scope : ScopeId) : List Stmt → Lower Code
  | [] => return []
  | s :: ss => do
    let code ← lowerStmt env loops scope s
    let rest ← lowerStmts env loops scope ss
    return code ++ rest

end

end Lowering

end IcLir
