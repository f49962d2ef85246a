import IcLir.Context

/-
  What the typing stage carries along: the context, whose types it may extend by array types and
  in which it records types and resolutions, and how many locals of the current method are in view.
-/

namespace IcLir

structure Typing extends Context where
  /-- Locals numbered below this are in view. -/
  visible : Nat
deriving Inhabited

abbrev Check := Pass Typing

/-- What stays fixed within one method body. -/
structure MethodEnv where
  scopes : ScopeTree
  type : TypeId
  classScope : ScopeId
  isStatic : Bool
  returnType : TypeId

namespace Typing

open Pass (reject fail require)

/-- Records the type that `check` finds for node `id`. -/
def recorded (id : NodeId) (check : Check TypeId) : Check TypeId := do
  let type ← check
  modify fun t => { t with exprTypes := t.exprTypes.insert id type }
  return type

def resolveType (e : TypeExpr) : Check TypeId := do
  match (← get).types.resolve e with
  | .ok (id, types) => modify ({ · with types := types }); return id
  | .error err => throw (.rejected (err.rejectAt e.span))

def arrayOf (element : TypeId) : Check TypeId := do
  let (id, types) := (← get).types.arrayOf element
  modify ({ · with types := types })
  return id

def requireSubtype (actual expected : TypeId) (cause : Cause) (token : String) (span : Span) :
    Check Unit := do
  require ((← get).types.isSubtype actual expected) cause token span

/-- A value of type `actual` goes where `expected` is declared. -/
def requireValue (actual expected : TypeId) (token : String) (span : Span) : Check Unit := do
  let types := (← get).types
  if types.isSubtype actual expected then pure ()
  else reject (.valueMismatch (types.name expected)) token span

def classScope (scopes : ScopeTree) (type : TypeId) : Check ScopeId := do
  match scopes.classScopes.get? type with
  | some id => pure id
  | none => fail (.noClassScope ((← get).types.name type))

def blockScope (scopes : ScopeTree) (node : NodeId) : Check ScopeId :=
  Pass.promised (scopes.blockScopes.get? node) (.noBlockScope node)

/-- The scope of an if or while body. -/
def branchScope (scopes : ScopeTree) (scope : ScopeId) (body : Stmt) : Check ScopeId :=
  if body.isDeclaration then blockScope scopes body.id else pure scope

end Typing

end IcLir
