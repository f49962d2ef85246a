import IcLir.Lowering.Basic

/-
  Calls. A static call names its target, a virtual call names a slot of the receiver's dispatch
  table, and a library call names a runtime routine. Arguments are bound to the slots of the
  parameters, whose names come from the declaration that the static type of the receiver sees.
-/

namespace IcLir

structure Callee where
  method : MethodDecl
  kind : MethodKind
  returnsValue : Bool
  entry : MethodEntry

/-- Where the result of a call goes. -/
def Callee.result (callee : Callee) (d : Nat) : Register :=
  if callee.returnsValue then .general d else .discard

namespace LowerEnv

open Pass (promised)

/-- The method `name` as seen from the class `type`. -/
def callee (env : LowerEnv) (type : TypeId) (name : String) : Lower Callee := do
  let c := env.context
  let missing := Defect.unresolvedMethod name
  let scope ← env.classScope type
  let symbol ← promised (c.scopes.lookupMember scope name) missing
  let kind ← promised symbol.kind.methodKind? missing
  let owner := (c.scopes.classOf? symbol.scope).bind c.declarations.get?
  let method ← promised (owner.bind (·.method? name)) missing
  let layout ← env.layout type
  let entry ← promised (layout.method? name) missing
  let returnsValue := (c.types.signature? symbol.type).any (·.result ≠ TypeId.void)
  return ⟨method, kind, returnsValue, entry⟩

/-- The parameters of a method bound to consecutive registers from `base` on. -/
def bindings (env : LowerEnv) (m : MethodDecl) (base : Nat) : Lower (List (String × Register)) := do
  let depth := env.context.scopes.depth (← env.methodScope m)
  return m.params.zipIdx.map fun (p, i) =>
    (Lowering.slotName p.name.name depth, .general (base + i))

/-- The call of a static method or library routine whose arguments lie from `d` on. -/
def staticCallLine (env : LowerEnv) (callee : Callee) (name : String) (d : Nat) : Lower Line := do
  let result := callee.result d
  match callee.kind with
  | .library =>
    let args := (List.range callee.method.params.length).map fun i => Operand.r (d + i)
    return .instr (.library s!"__{name}" args result)
  | .static | .virtual =>
    return .instr (.staticCall callee.entry.label (← env.bindings callee.method d) result)

/-- The call of a virtual method on the object in register `d`, whose arguments follow it. -/
def virtualCallLine (env : LowerEnv) (callee : Callee) (d : Nat) : Lower Line := do
  let slot ← promised callee.entry.slot (.noSlot callee.entry.label)
  let bindings ← env.bindings callee.method (d + 1)
  return .instr (.virtualCall (.general d) slot bindings (callee.result d))

end LowerEnv

end IcLir
