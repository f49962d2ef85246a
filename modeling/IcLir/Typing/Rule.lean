import IcLir.Typing.Basic

/-
  Types of literals and of operations on operands whose types are known.
-/

namespace IcLir

namespace Typing

open Pass (require)

def literalType : Literal → TypeId
  | .int _ => TypeId.int
  | .string _ => TypeId.string
  | .bool _ => TypeId.boolean
  | .null => TypeId.null

/-- The type of a binary operation on operands of the given types. -/
def checkBinary (op : BinaryOp) (left right : TypeId) (span : Span) : Check TypeId := do
  let token := op.text
  match op with
  | .arith a =>
    require (left = right) .operandsDiffer token span
    if a = .add then
      require (left = TypeId.int || left = TypeId.string) .illegalPlus token span
      return left
    else
      require (left = TypeId.int) .nonIntArithmetic token span
      return TypeId.int
  | .logic _ =>
    require (left = TypeId.boolean && right = TypeId.boolean) .nonBooleanLogic token span
    return TypeId.boolean
  | .compare c =>
    if c.isEquality then
      require (left ≠ TypeId.void && right ≠ TypeId.void) .voidComparison token span
      let types := (← get).types
      require (types.isSubtype left right || types.isSubtype right left) .unrelatedComparison
        token span
      return TypeId.boolean
    else
      require (left = TypeId.int && right = TypeId.int) .nonIntOrdering token span
      return TypeId.boolean

def checkUnary (op : UnaryOp) (operand : TypeId) (span : Span) : Check TypeId := do
  match op with
  | .neg => require (operand = TypeId.int) .nonIntNegation op.text span
  | .not => require (operand = TypeId.boolean) .nonBooleanNegation op.text span
  return operand

end Typing

end IcLir
