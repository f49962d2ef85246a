import IcLir.Typing.Basic

/-
  What the names in an expression stand for: variables, fields, and the methods of the three
  forms of call.
-/

namespace IcLir

namespace Typing

open Pass (reject require promised)

/-- What a bare name stands for, and its type: the nearest symbol in view, if that is a
    variable or a field. -/
def resolveName? (env : MethodEnv) (scope : ScopeId) (name : String) (visible : Nat) :
    Option (Resolution × TypeId) :=
  match env.scopes.lookupVisible scope name visible with
  | none => none
  | some s =>
    if s.kind.isVariable then some (.variable s.scope, s.type)
    else if s.kind = .field then some (.field s.scope, s.type)
    else none

def checkName (env : MethodEnv) (scope : ScopeId) (node : Node) (name : String) :
    Check TypeId := do
  match resolveName? env scope name (← get).visible with
  | some (resolution, type) =>
    modify fun t => { t with references := t.references.insert node.id resolution }
    return type
  | none =>
    let isField := (env.scopes.lookupMember env.classScope name).any (·.kind = .field)
    if env.isStatic && isField then reject .fieldInStatic name node.span
    else reject .unresolvedName name node.span

/-- The type of field `name` of an object of type `owner`. -/
def checkField (env : MethodEnv) (owner : TypeId) (name : String) (span : Span) :
    Check TypeId := do
  let types := (← get).types
  if types.isClass owner then
    let scope ← classScope env.scopes owner
    match (env.scopes.lookupMember scope name).filter (·.kind = .field) with
    | some s => return s.type
    | none => reject (.missingField (types.name owner)) name span
  else
    reject (.missingField (types.name owner)) name span

/-- The kind and signature of the method `name` that a class has or inherits. -/
def findMethod (env : MethodEnv) (scope : ScopeId) (name : Ident) :
    Check (MethodKind × TypeId) := do
  match env.scopes.lookupMember scope name.name with
  | none => reject .unknownMethod name.name name.span
  | some s =>
    match s.kind.methodKind? with
    | some kind => return (kind, s.type)
    | none => reject .notAMethod name.name name.span

/-- The signature behind a method's type, for a call with `count` arguments. -/
def callSignature (method : Ident) (type : TypeId) (count : Nat) (span : Span) :
    Check Signature := do
  let signature ← promised ((← get).types.signature? type) (.noSignature method.name)
  require (count = signature.params.length) .argumentCount method.name span
  return signature

/-- The method named by `Class.method(...)`. -/
def staticCallee (env : MethodEnv) (className method : Ident) (span : Span) : Check TypeId := do
  match (← get).types.class? className.name with
  | none => reject .unknownClass className.name className.span
  | some type =>
    let scope ← classScope env.scopes type
    let (kind, signature) ← findMethod env scope method
    require kind.isStatic .notStatic method.name span
    return signature

/-- The method named by `method(...)` without a receiver. -/
def ownCallee (env : MethodEnv) (method : Ident) (span : Span) : Check TypeId := do
  let (kind, signature) ← findMethod env env.classScope method
  require (!env.isStatic || kind.isStatic) .virtualInStatic method.name span
  return signature

/-- The method named by `receiver.method(...)`, for a receiver of type `type`. -/
def methodCallee (env : MethodEnv) (receiver : Expr) (type : TypeId) (method : Ident)
    (span : Span) : Check TypeId := do
  require ((← get).types.isClass type) .notAnObject receiver.token receiver.span
  let scope ← classScope env.scopes type
  let (kind, signature) ← findMethod env scope method
  require (!kind.isStatic) .staticThroughObject method.name span
  return signature

end Typing

end IcLir
