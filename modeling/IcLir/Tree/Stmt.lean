import IcLir.Tree.Expr

/-
  Statements of the source language. Like expressions, they carry their identity and span.
-/

namespace IcLir

inductive Stmt where
  | assign (node : Node) (target value : Expr)
  | call (node : Node) (expr : Expr)
  | ret (node : Node) (value : Option Expr)
  | ifThen (node : Node) (condition : Expr) (body : Stmt)
  | ifElse (node : Node) (condition : Expr) (thenBranch elseBranch : Stmt)
  | loop (node : Node) (condition : Expr) (body : Stmt)
  | breakLoop (node : Node)
  | continueLoop (node : Node)
  | block (node : Node) (stmts : List Stmt)
  | declare (node : Node) (type : TypeExpr) (name : Ident) (init : Option Expr)
deriving Repr, Inhabited

namespace Stmt

def node : Stmt → Node
  | .assign n _ _ | .call n _ | .ret n _ | .ifThen n _ _ | .ifElse n _ _ _ | .loop n _ _
  | .breakLoop n | .continueLoop n | .block n _ | .declare n _ _ _ => n

def id (s : Stmt) : NodeId := s.node.id

def span (s : Stmt) : Span := s.node.span

def isReturn : Stmt → Bool
  | .ret .. => true
  | _ => false

def isDeclaration : Stmt → Bool
  | .declare .. => true
  | _ => false

end Stmt

end IcLir
