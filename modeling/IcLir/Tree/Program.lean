import IcLir.Tree.Stmt

/-
  Declarations: classes with their fields and methods, and programs as lists of classes.
-/

namespace IcLir

inductive MethodKind where
  | virtual
  | static
  /-- A routine of the runtime library; it runs without a receiver and its body is never
      looked at. -/
  | library
deriving DecidableEq, Repr, Inhabited

def MethodKind.isStatic : MethodKind → Bool
  | .virtual => false
  | .static | .library => true

/-- A typed name: a field of a class or a parameter of a method. -/
structure VarDecl where
  type : TypeExpr
  name : Ident
deriving Repr, Inhabited

structure MethodDecl where
  id : NodeId
  kind : MethodKind
  returnType : TypeExpr
  name : Ident
  params : List VarDecl
  body : List Stmt
deriving Repr, Inhabited

namespace MethodDecl

def isStatic (m : MethodDecl) : Bool := m.kind.isStatic

def endsWithReturn (m : MethodDecl) : Bool := (m.body.getLast?.map Stmt.isReturn).getD false

def paramNames (m : MethodDecl) : List String := m.params.map (·.name.name)

end MethodDecl

structure ClassDecl where
  name : Ident
  superclass : Option Ident
  fields : List VarDecl
  methods : List MethodDecl
deriving Repr, Inhabited

namespace ClassDecl

/-- A class that only describes routines of the runtime library. -/
def isLibrary (c : ClassDecl) : Bool := !c.methods.isEmpty && c.methods.all (·.kind = .library)

def method? (c : ClassDecl) (name : String) : Option MethodDecl :=
  c.methods.find? (·.name.name = name)

end ClassDecl

structure Program where
  classes : List ClassDecl
deriving Repr, Inhabited

end IcLir
