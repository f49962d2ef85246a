import IcLir.OrderedMap
import IcLir.Tree.Program
import IcLir.TypeTable

/-
  Scopes and the symbols they declare.
-/

namespace IcLir

/-- The number of a scope: its place in the order of creation. -/
abbrev ScopeId := Nat

inductive ScopeKind where
  | global
  | classScope (type : TypeId)
  | method (isStatic : Bool) (result : TypeId)
  | block
deriving DecidableEq, Repr, Inhabited

namespace ScopeKind

def isClass : ScopeKind → Bool
  | .classScope _ => true
  | _ => false

def isMethod : ScopeKind → Bool
  | .method .. => true
  | _ => false

def isStaticMethod : ScopeKind → Bool
  | .method isStatic _ => isStatic
  | _ => false

end ScopeKind

inductive SymbolKind where
  | className
  | field
  | method (kind : MethodKind)
  | parameter
  /-- A local variable, numbered in source order among the locals of its method. -/
  | localVar (ordinal : Nat)
deriving DecidableEq, Repr, Inhabited

namespace SymbolKind

def isVariable : SymbolKind → Bool
  | .parameter | .localVar _ => true
  | .className | .field | .method _ => false

def isMember : SymbolKind → Bool
  | .field | .method _ => true
  | .className | .parameter | .localVar _ => false

def methodKind? : SymbolKind → Option MethodKind
  | .method kind => some kind
  | .className | .field | .parameter | .localVar _ => none

end SymbolKind

structure Symbol where
  name : String
  kind : SymbolKind
  type : TypeId
  scope : ScopeId
  span : Span
deriving DecidableEq, Repr, Inhabited

/-- Whether the symbol is in view when only the first `visible` locals of its method are. -/
def Symbol.isVisible (s : Symbol) (visible : Nat) : Bool :=
  match s.kind with
  | .localVar ordinal => ordinal < visible
  | _ => true

/-- What a bare name stands for: a variable or a field, and the scope that declares it. -/
inductive Resolution where
  | variable (scope : ScopeId)
  | field (scope : ScopeId)
deriving DecidableEq, Repr, Inhabited

/-- What a scope is and what it declares, wherever it lies. -/
structure SymbolTable where
  kind : ScopeKind
  name : String
  depth : Nat
  /-- Whether code in this scope runs without a receiver. -/
  isStatic : Bool
  symbols : OrderedMap String Symbol
deriving Inhabited

namespace SymbolTable

def get? (s : SymbolTable) (name : String) : Option Symbol := s.symbols.get? name

def isClass (s : SymbolTable) : Bool := s.kind.isClass

/-- The symbol `name` of this scope, if it is a field or a method. -/
def member? (s : SymbolTable) (name : String) : Option Symbol :=
  (s.get? name).filter (·.kind.isMember)

/-- The empty table of a new scope inside one with the table `parent`. -/
def inside (parent : SymbolTable) (kind : ScopeKind) (name : String) : SymbolTable where
  kind := kind
  name := name
  depth := if kind.isClass then 1 else parent.depth + 1
  isStatic := match kind with
    | .method isStatic _ => isStatic
    | .global | .classScope _ => false
    | .block => parent.isStatic
  symbols := .empty

end SymbolTable

structure Scope extends SymbolTable where
  /-- The scopes around this one, innermost first. -/
  enclosing : List ScopeId
deriving Inhabited

def Scope.parent? (s : Scope) : Option ScopeId := s.enclosing.head?

end IcLir
