import IcLir.Tree.Span

/-
  Types as written in declarations: a base and a number of array brackets.
-/

namespace IcLir

inductive BaseType where
  | int
  | boolean
  | string
  | void
  | named (name : String)
deriving DecidableEq, Repr, Inhabited

def BaseType.text : BaseType → String
  | .int => "int"
  | .boolean => "boolean"
  | .string => "string"
  | .void => "void"
  | .named name => name

structure TypeExpr where
  base : BaseType
  dims : Nat
  span : Span
deriving DecidableEq, Repr, Inhabited

namespace TypeExpr

def isArray (t : TypeExpr) : Bool := 0 < t.dims

/-- Whether the type is `void` itself, without brackets. -/
def isVoid (t : TypeExpr) : Bool := t.base = .void && !t.isArray

/-- The type as written, with a pair of brackets per dimension. -/
def text (t : TypeExpr) : String := t.base.text ++ String.join (List.replicate t.dims "[]")

end TypeExpr

end IcLir
