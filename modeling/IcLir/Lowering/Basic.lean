import IcLir.Context
import IcLir.Lir.Assembly
import IcLir.Lir.Label

/-
  What lowering works with: the context it reads, the strategy, the class of the method, and a
  supply of string literals and label numbers shared by the whole program.
-/

namespace IcLir

structure Supply where
  strings : StringPool
  nextLabel : Nat
deriving DecidableEq, Repr, Inhabited

def Supply.initial : Supply := ⟨.empty, 0⟩

abbrev Lower := Pass Supply

structure LowerEnv where
  context : Context
  strategy : Strategy
  type : TypeId

namespace Lowering

open Pass (fail promised)

def freshLabels : Lower LabelSet := do
  let s ← get
  set { s with nextLabel := s.nextLabel + 1 }
  return ⟨s.nextLabel⟩

def internString (text : String) : Lower String := do
  let s ← get
  let (label, strings) := s.strings.intern text
  set { s with strings := strings }
  return label

/-- The name of the slot of a variable declared at `depth`. -/
def slotName (name : String) (depth : Nat) : String := s!"{name}{depth}"

def methodLabel (className method : String) : String := s!"_{className}_{method}"

end Lowering

namespace LowerEnv

open Pass (fail promised)

def typeOf (env : LowerEnv) (e : Expr) : Lower TypeId :=
  promised (env.context.exprTypes.get? e.id) (.neverTyped e.token e.span.line)

def classType (env : LowerEnv) (name : String) : Lower TypeId :=
  promised (env.context.types.class? name) (.unregisteredClass name)

def classScope (env : LowerEnv) (type : TypeId) : Lower ScopeId :=
  match env.context.scopes.classScopes.get? type with
  | some id => pure id
  | none => fail (.noClassScope (env.context.types.name type))

def methodScope (env : LowerEnv) (m : MethodDecl) : Lower ScopeId :=
  promised (env.context.scopes.methodScopes.get? m.id) (.noMethodScope m.name.name)

def blockScope (env : LowerEnv) (node : NodeId) : Lower ScopeId :=
  promised (env.context.scopes.blockScopes.get? node) (.noBlockScope node)

/-- The scope of an if or while body. -/
def branchScope (env : LowerEnv) (scope : ScopeId) (body : Stmt) : Lower ScopeId :=
  if body.isDeclaration then env.blockScope body.id else pure scope

def layout (env : LowerEnv) (type : TypeId) : Lower ClassLayout :=
  promised (env.context.layouts.get? type) (.noLayout type)

def fieldOffset (env : LowerEnv) (type : TypeId) (name : String) : Lower Nat := do
  let layout ← env.layout type
  promised (layout.offset? name) (.noField layout.name name)

/-- Whether an addition joins strings, by the type of its left operand. -/
def isConcat (env : LowerEnv) (op : BinaryOp) (left : Expr) : Lower Bool :=
  match op with
  | .arith .add => return decide ((← env.typeOf left) = TypeId.string)
  | _ => pure false

end LowerEnv

end IcLir
