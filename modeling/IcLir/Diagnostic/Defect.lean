import IcLir.Diagnostic.Cause
import IcLir.Tree.Operator

/-
  Defects: promises between the stages that do not hold. They arise when a stage runs on a
  program that the stages before it have not seen.
-/

namespace IcLir

inductive Defect where
  | neverTyped (token : String) (line : Nat)
  | noClassScope (name : String)
  | noMethodScope (name : String)
  | noBlockScope (node : NodeId)
  | unregisteredClass (name : String)
  | notALocal (name : String)
  | undefinedLocal (name : String)
  | noSignature (name : String)
  | unresolvedReference (name : String) (line : Nat)
  | noField (owner name : String)
  | unresolvedMethod (name : String)
  | noSlot (label : String)
  | divisorNotLoaded
  | notArithmetic (op : BinaryOp)
  | notAComparison (op : BinaryOp)
  | breakOutsideLoop
  | continueOutsideLoop
  | noSuperclassLayout (name : String)
  | unscopedClass (name : String)
  | noLayout (type : Nat)
  | entryNotGenerated
  | entryNotFound
deriving DecidableEq, Repr, Inhabited

def Defect.detail : Defect → String
  | .neverTyped token line => s!"expression '{token}' at line {line} was never type-checked"
  | .noClassScope name => s!"no scope for class '{name}'"
  | .noMethodScope name => s!"no scope for method '{name}'"
  | .noBlockScope node => s!"no block scope for {node}"
  | .unregisteredClass name => s!"class '{name}' was not registered"
  | .notALocal name => s!"'{name}' is not a local variable"
  | .undefinedLocal name => s!"local '{name}' was never defined"
  | .noSignature name => s!"'{name}' has no method signature"
  | .unresolvedReference name line => s!"reference '{name}' at line {line} was never resolved"
  | .noField owner name => s!"class '{owner}' has no field '{name}'"
  | .unresolvedMethod name => s!"method '{name}' was not resolved"
  | .noSlot label => s!"no dispatch slot for '{label}'"
  | .divisorNotLoaded => "divisor was not loaded into a register"
  | .notArithmetic op => s!"'{op.text}' is not arithmetic"
  | .notAComparison op => s!"'{op.text}' is not a comparison"
  | .breakOutsideLoop => "break outside of a loop"
  | .continueOutsideLoop => "continue outside of a loop"
  | .noSuperclassLayout name => s!"superclass of '{name}' has no layout"
  | .unscopedClass name => s!"class '{name}' has no scope"
  | .noLayout type => s!"no layout for type {type + 1}"
  | .entryNotGenerated => "entry method was not generated"
  | .entryNotFound => "analysis accepted a program without an entry method"

/-- Why a stage stopped. -/
inductive CompileError where
  | rejected (rejection : Rejection)
  | defect (defect : Defect)
deriving DecidableEq, Repr, Inhabited

def CompileError.diagnostic : CompileError → Diagnostic
  | .rejected r => r.diagnostic
  | .defect d => .defect d.detail

end IcLir
