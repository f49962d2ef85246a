import IcLir.Tree.Program

/-
  The parts of a tree in source order, each node before its own parts: the expressions of an
  expression, the statements and expressions of a statement, and those of a whole program.
-/

namespace IcLir

namespace Expr

mutual

def nodes : Expr → List Expr
  | e@(.literal ..) => [e]
  | e@(.var ..) => [e]
  | e@(.field _ object _) => e :: nodes object
  | e@(.index _ array i) => e :: (nodes array ++ nodes i)
  | e@(.staticCall _ _ _ args) => e :: nodesOfList args
  | e@(.ownCall _ _ args) => e :: nodesOfList args
  | e@(.methodCall _ receiver _ args) => e :: (nodes receiver ++ nodesOfList args)
  | e@(.this _) => [e]
  | e@(.newObject ..) => [e]
  | e@(.newArray _ _ size) => e :: nodes size
  | e@(.length _ array) => e :: nodes array
  | e@(.binary _ _ left right) => e :: (nodes left ++ nodes right)
  | e@(.unary _ _ operand) => e :: nodes operand
  | e@(.paren _ inner) => e :: nodes inner

def nodesOfList : List Expr → List Expr
  | [] => []
  | e :: es => nodes e ++ nodesOfList es

end

end Expr

namespace Stmt

mutual

def nodes : Stmt → List Stmt
  | s@(.assign ..) => [s]
  | s@(.call ..) => [s]
  | s@(.ret ..) => [s]
  | s@(.ifThen _ _ body) => s :: nodes body
  | s@(.ifElse _ _ thenBranch elseBranch) => s :: (nodes thenBranch ++ nodes elseBranch)
  | s@(.loop _ _ body) => s :: nodes body
  | s@(.breakLoop _) => [s]
  | s@(.continueLoop _) => [s]
  | s@(.block _ stmts) => s :: nodesOfList stmts
  | s@(.declare ..) => [s]

def nodesOfList : List Stmt → List Stmt
  | [] => []
  | s :: ss => nodes s ++ nodesOfList ss

end

mutual

def exprs : Stmt → List Expr
  | .assign _ target value => target.nodes ++ value.nodes
  | .call _ e => e.nodes
  | .ret _ value => (value.map Expr.nodes).getD []
  | .ifThen _ condition body => condition.nodes ++ exprs body
  | .ifElse _ condition thenBranch elseBranch =>
    condition.nodes ++ exprs thenBranch ++ exprs elseBranch
  | .loop _ condition body => condition.nodes ++ exprs body
  | .breakLoop _ => []
  | .continueLoop _ => []
  | .block _ stmts => exprsOfList stmts
  | .declare _ _ _ init => (init.map Expr.nodes).getD []

def exprsOfList : List Stmt → List Expr
  | [] => []
  | s :: ss => exprs s ++ exprsOfList ss

end

end Stmt

namespace Program

def methods (p : Program) : List MethodDecl := p.classes.flatMap (·.methods)

def stmts (p : Program) : List Stmt := p.methods.flatMap fun m => Stmt.nodesOfList m.body

def exprs (p : Program) : List Expr := p.methods.flatMap fun m => Stmt.exprsOfList m.body

/-- The methods whose bodies are looked at. -/
def bodies (p : Program) : List MethodDecl := p.methods.filter (·.kind ≠ .library)

def locals (p : Program) : List Stmt := p.stmts.filter Stmt.isDeclaration

/-- The distinct method names, in code point order. -/
def methodNames (p : Program) : List String :=
  (p.methods.map (·.name.name)).eraseDups.mergeSort fun a b => decide (a ≤ b)

end Program

end IcLir
