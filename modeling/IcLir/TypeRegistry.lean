import IcLir.OrderedMap
import IcLir.TypeTable

/-
  The type table with its indexes: names lead to classes, elements to arrays and signatures to
  method types. No type is searched for in the table. A request looks in an index, and whoever
  enters a type enters it in both. What was entered before a request fails stays entered.
-/

namespace IcLir

structure TypeRegistry extends TypeTable where
  classIndex : OrderedMap String TypeId
  arrayIndex : OrderedMap TypeId TypeId
  signatureIndex : OrderedMap Signature TypeId

namespace TypeRegistry

def initial : TypeRegistry := ⟨.initial, .empty, .empty, .empty⟩

instance : Inhabited TypeRegistry := ⟨initial⟩

abbrev Request := EStateM DeclarationError TypeRegistry

/-- The registry with one more type, which no index has yet. -/
def append (r : TypeRegistry) (k : TypeKind) : TypeRegistry := { r with kinds := r.kinds ++ [k] }

def push (k : TypeKind) : Request TypeId := modifyGet fun r => (r.size, r.append k)

/-- The number that an index has for a structural type, which is entered at its first use. -/
def intern (k : TypeKind) (find? : TypeRegistry → Option TypeId)
    (record : TypeId → TypeRegistry → TypeRegistry) : Request TypeId := do
  match find? (← get) with
  | some id => return id
  | none =>
    let id ← push k
    modify (record id)
    return id

def arrayOf (element : TypeId) : Request TypeId :=
  intern (.array element) (·.arrayIndex.get? element) fun id r =>
    { r with arrayIndex := r.arrayIndex.insert element id }

def signature (result : TypeId) (params : List TypeId) : Request TypeId :=
  intern (.method ⟨result, params⟩) (·.signatureIndex.get? ⟨result, params⟩) fun id r =>
    { r with signatureIndex := r.signatureIndex.insert ⟨result, params⟩ id }

def class? (r : TypeRegistry) (name : String) : Option TypeId := r.classIndex.get? name

/-- What was found, or else the failure of the request. -/
def found (id? : Option TypeId) (e : DeclarationError) : Request TypeId :=
  match id? with
  | some id => return id
  | none => throw e

def base? (r : TypeRegistry) : BaseType → Option TypeId
  | .int => some TypeId.int
  | .boolean => some TypeId.boolean
  | .string => some TypeId.string
  | .void => some TypeId.void
  | .named name => r.class? name

def nest (base : TypeId) : Nat → Request TypeId
  | 0 => return base
  | dims + 1 => do nest (← arrayOf base) dims

/-- The number of a written type. -/
def resolve (e : TypeExpr) : Request TypeId := do
  let base ← found ((← get).base? e.base) (.undefinedType e.text)
  nest base e.dims

/-- The number of the type whose name is given backwards: a primitive, an array over the type
    that is named before the brackets, or a class. -/
def spelled (reversed : List Char) : Request TypeId :=
  match Primitive.named? (String.ofList reversed.reverse) with
  | some p => return p.id
  | none =>
    match reversed with
    | ']' :: '[' :: element => do arrayOf (← spelled element)
    | base => do
      let name := String.ofList base.reverse
      found ((← get).class? name) (.undefinedType name)

def typeNamed (name : String) : Request TypeId := spelled name.toList.reverse

/-- Enters a class. Its superclass has to be in the registry already. -/
def addClass (name : String) (superclass : Option String) : Request TypeId := do
  if ((← get).class? name).isSome || (Primitive.named? name).isSome then
    throw (.duplicateClass name)
  let ancestors ← match superclass with
    | none => pure []
    | some base => do
      let id ← found ((← get).class? base) (.undefinedSuperclass name base)
      pure (id :: (← get).ancestors id)
  let id ← push (.classType name ancestors)
  modify fun r => { r with classIndex := r.classIndex.insert name id }
  return id

end TypeRegistry

end IcLir
