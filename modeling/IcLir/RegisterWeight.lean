import IcLir.OrderedMap
import IcLir.Tree.Program

/-
  How many registers beyond its base register an expression needs. A leaf needs none, a node
  with two operands of equal weight one more than either, and otherwise as many as the heavier
  one. A call has no bound: operands are never moved past a call, since the order of calls can
  be observed. The weights of a whole program are taken once, bottom-up, and kept in a table
  (`WeightTable.estimate`).
-/

namespace IcLir

inductive RegisterWeight where
  | bounded (registers : UInt32)
  | unbounded
deriving DecidableEq, Repr, Inhabited

namespace RegisterWeight

def zero : RegisterWeight := .bounded 0

/-- The weight of a node with two operands. -/
def combine : RegisterWeight → RegisterWeight → RegisterWeight
  | .bounded a, .bounded b => if a = b then .bounded (a + 1) else .bounded (max a b)
  | _, _ => .unbounded

/-- Whether the right operand goes first: both are bounded and it is the heavier. -/
def prefersRight : RegisterWeight → RegisterWeight → Bool
  | .bounded l, .bounded r => l < r
  | _, _ => false

end RegisterWeight

namespace Expr

def weight : Expr → RegisterWeight
  | .literal .. => .zero
  | .var .. => .zero
  | .this _ => .zero
  | .newObject .. => .zero
  | .field _ object _ => object.weight
  | .length _ array => array.weight
  | .newArray _ _ size => size.weight
  | .unary _ _ operand => operand.weight
  | .paren _ inner => inner.weight
  | .index _ array i => array.weight.combine i.weight
  | .binary _ _ left right => left.weight.combine right.weight
  | .staticCall .. => .unbounded
  | .ownCall .. => .unbounded
  | .methodCall .. => .unbounded

/-- The operands of a node with two of them. -/
def operands? : Expr → Option (Expr × Expr)
  | .index _ array i => some (array, i)
  | .binary _ _ left right => some (left, right)
  | _ => none

end Expr

/-- The weights of the expressions that have been visited. -/
structure WeightTable where
  weights : OrderedMap NodeId RegisterWeight

abbrev Weigh := StateM WeightTable

namespace WeightTable

/-- A node that was not visited has no bound. -/
def weight (t : WeightTable) (e : Expr) : RegisterWeight := (t.weights.get? e.id).getD .unbounded

/-- Whether the right operand is evaluated first. -/
def prefersRight (t : WeightTable) (left right : Expr) : Bool :=
  (t.weight left).prefersRight (t.weight right)

def record (e : Expr) (w : RegisterWeight) : Weigh RegisterWeight := do
  modify fun t => ⟨t.weights.insert e.id w⟩
  return w

mutual

def visit : Expr → Weigh RegisterWeight
  | e@(.literal ..) => record e .zero
  | e@(.var ..) => record e .zero
  | e@(.this _) => record e .zero
  | e@(.newObject ..) => record e .zero
  | e@(.field _ object _) => do record e (← visit object)
  | e@(.length _ array) => do record e (← visit array)
  | e@(.newArray _ _ size) => do record e (← visit size)
  | e@(.unary _ _ operand) => do record e (← visit operand)
  | e@(.paren _ inner) => do record e (← visit inner)
  | e@(.index _ array i) => do
    let array ← visit array
    record e (array.combine (← visit i))
  | e@(.binary _ _ left right) => do
    let left ← visit left
    record e (left.combine (← visit right))
  | e@(.staticCall _ _ _ args) => do
    visitArgs args
    record e .unbounded
  | e@(.ownCall _ _ args) => do
    visitArgs args
    record e .unbounded
  | e@(.methodCall _ receiver _ args) => do
    discard (visit receiver)
    visitArgs args
    record e .unbounded

def visitArgs : List Expr → Weigh Unit
  | [] => return
  | e :: es => do
    discard (visit e)
    visitArgs es

end

def visitValue : Option Expr → Weigh Unit
  | none => return
  | some e => discard (visit e)

mutual

def visitStmt : Stmt → Weigh Unit
  | .assign _ target value => do
    discard (visit target)
    discard (visit value)
  | .call _ e => discard (visit e)
  | .ret _ value => visitValue value
  | .ifThen _ condition body => do
    discard (visit condition)
    visitStmt body
  | .ifElse _ condition thenBranch elseBranch => do
    discard (visit condition)
    visitStmt thenBranch
    visitStmt elseBranch
  | .loop _ condition body => do
    discard (visit condition)
    visitStmt body
  | .breakLoop _ => return
  | .continueLoop _ => return
  | .block _ stmts => visitStmts stmts
  | .declare _ _ _ init => visitValue init

def visitStmts : List Stmt → Weigh Unit
  | [] => return
  | s :: ss => do
    visitStmt s
    visitStmts ss

end

/-- The weights of all expressions of a program. -/
def estimate (p : Program) : WeightTable :=
  (p.classes.forM (fun k => k.methods.forM fun m => visitStmts m.body) |>.run ⟨.empty⟩).2

end WeightTable

end IcLir
