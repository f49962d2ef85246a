import IcLir.Tree.Operator
import IcLir.Tree.TypeExpr

/-
  Expressions of the source language. Every expression carries its identity and its span.
-/

namespace IcLir

inductive Literal where
  | int (value : Int)
  | string (text : String)
  | bool (value : Bool)
  | null
deriving DecidableEq, Repr, Inhabited

def Literal.text : Literal → String
  | .int value => toString value
  | .string text => "\"" ++ text ++ "\""
  | .bool true => "true"
  | .bool false => "false"
  | .null => "null"

/-- Where a node stands in the source, and which node it is. -/
structure Node where
  id : NodeId
  span : Span
deriving DecidableEq, Repr, Inhabited

inductive Expr where
  | literal (node : Node) (value : Literal)
  /-- A bare name: a variable, or a field of the receiver. -/
  | var (node : Node) (name : Ident)
  | field (node : Node) (object : Expr) (name : Ident)
  | index (node : Node) (array index : Expr)
  | staticCall (node : Node) (className method : Ident) (args : List Expr)
  /-- A call without a receiver, `method(args)`. -/
  | ownCall (node : Node) (method : Ident) (args : List Expr)
  | methodCall (node : Node) (receiver : Expr) (method : Ident) (args : List Expr)
  | this (node : Node)
  | newObject (node : Node) (className : Ident)
  | newArray (node : Node) (element : TypeExpr) (size : Expr)
  | length (node : Node) (array : Expr)
  | binary (node : Node) (op : BinaryOp) (left right : Expr)
  | unary (node : Node) (op : UnaryOp) (operand : Expr)
  | paren (node : Node) (inner : Expr)
deriving Repr, Inhabited

namespace Expr

def node : Expr → Node
  | .literal n _ | .var n _ | .field n _ _ | .index n _ _ | .staticCall n _ _ _
  | .ownCall n _ _ | .methodCall n _ _ _ | .this n | .newObject n _ | .newArray n _ _
  | .length n _ | .binary n _ _ _ | .unary n _ _ | .paren n _ => n

def id (e : Expr) : NodeId := e.node.id

def span (e : Expr) : Span := e.node.span

/-- What a message quotes for an expression; parentheses quote what they hold. -/
def token : Expr → String
  | .literal _ value => value.text
  | .var _ x => x.name
  | .field _ _ x => x.name
  | .index _ _ _ => "[]"
  | .staticCall _ _ method _ => method.name
  | .ownCall _ method _ => method.name
  | .methodCall _ _ method _ => method.name
  | .this _ => "this"
  | .newObject _ className => className.name
  | .newArray _ element _ => element.text
  | .length _ _ => "length"
  | .binary _ op _ _ => op.text
  | .unary _ op _ => op.text
  | .paren _ inner => inner.token

def isCall : Expr → Bool
  | .staticCall .. | .ownCall .. | .methodCall .. => true
  | _ => false

/-- Something that can be assigned to: a name, a field or an array element. -/
def isLocation : Expr → Bool
  | .var .. | .field .. | .index .. => true
  | _ => false

end Expr

end IcLir
