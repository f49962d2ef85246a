import IcLir.ClassLayout
import IcLir.Pass
import IcLir.RegisterWeight

/-
  What the stages of a compilation read and extend: the types and scopes of the definition
  stage, the expression types and resolved names of the typing stage, and the class layouts.
-/

namespace IcLir

structure Options where
  /-- Whether operands are ordered by register weight. -/
  optimize : Bool := false
  entryMethod : String := "main"
deriving DecidableEq, Repr, Inhabited

/-- How operands are ordered and placed. -/
inductive Strategy where
  /-- The left operand first, both operands in registers. -/
  | baseline
  /-- The heavier operand first; a right operand that is a literal or a variable is used where
      it is. -/
  | pressureAware
deriving DecidableEq, Repr, Inhabited

/-- Whether the right one of two operands is evaluated first. -/
def Strategy.rightFirst (s : Strategy) (left right : Expr) : Bool :=
  s = .pressureAware && left.weight.prefersRight right.weight

def Options.strategy (o : Options) : Strategy := if o.optimize then .pressureAware else .baseline

/-- The method a program starts with, and its class. -/
structure Entry where
  owner : TypeId
  method : MethodDecl
deriving Inhabited

structure Context where
  options : Options
  types : TypeTable
  scopes : ScopeTree
  declarations : OrderedMap TypeId ClassDecl
  entry : Option Entry
  exprTypes : OrderedMap NodeId TypeId
  references : OrderedMap NodeId Resolution
  layouts : LayoutTable
deriving Inhabited

namespace Context

def initial (options : Options) : Context where
  options := options
  types := .initial
  scopes := .initial
  declarations := .empty
  entry := none
  exprTypes := .empty
  references := .empty
  layouts := .empty

def isEntry (c : Context) (m : MethodDecl) : Bool := c.entry.any (·.method.id = m.id)

/-- The entry method as `Class.method`. -/
def entryText? (c : Context) : Option String :=
  c.entry.map fun e => s!"{c.types.name e.owner}.{e.method.name.name}"

/-- Lays out every class. -/
def layOut : Pass Context Unit := do
  let c ← get
  match LayoutTable.build c.types c.scopes with
  | .ok layouts => set { c with layouts := layouts }
  | .error d => Pass.fail d

end Context

end IcLir
