import IcLir.Diagnostic.Cause
import IcLir.Tree.TypeExpr

/-
  The numbered types of a program. The five primitives come first, in a fixed order; classes,
  arrays and method signatures follow as they are met. A structural type (array, signature) is
  entered once, so that two types are equal exactly when their numbers are.
-/

namespace IcLir

/-- The number of a type: its place in the table. -/
abbrev TypeId := Nat

inductive Primitive where
  | int | boolean | null | string | void
deriving DecidableEq, Repr, Inhabited

namespace Primitive

def all : List Primitive := [.int, .boolean, .null, .string, .void]

def text : Primitive → String
  | .int => "int"
  | .boolean => "boolean"
  | .null => "null"
  | .string => "string"
  | .void => "void"

/-- The number of a primitive, its place in `all`. -/
def id : Primitive → TypeId
  | .int => 0
  | .boolean => 1
  | .null => 2
  | .string => 3
  | .void => 4

def named? (name : String) : Option Primitive := all.find? (·.text = name)

end Primitive

namespace TypeId

def int : TypeId := Primitive.int.id

def boolean : TypeId := Primitive.boolean.id

def null : TypeId := Primitive.null.id

def string : TypeId := Primitive.string.id

def void : TypeId := Primitive.void.id

/-- Types are shown counted from 1. -/
def text (id : TypeId) : String := toString (id + 1)

end TypeId

structure Signature where
  result : TypeId
  params : List TypeId
deriving DecidableEq, Repr, Inhabited

inductive TypeKind where
  | primitive (p : Primitive)
  /-- A class with its superclasses, nearest first. -/
  | classType (name : String) (ancestors : List TypeId)
  | array (element : TypeId)
  | method (signature : Signature)
deriving DecidableEq, Repr, Inhabited

namespace TypeKind

def isClass : TypeKind → Bool
  | .classType .. => true
  | _ => false

def isArray : TypeKind → Bool
  | .array _ => true
  | _ => false

def isClassNamed (name : String) : TypeKind → Bool
  | .classType n _ => n = name
  | _ => false

/-- The name of a type, given the names of all types before it. -/
def text (names : List String) : TypeKind → String
  | .primitive p => p.text
  | .classType name _ => name
  | .array element => names.getD element "" ++ "[]"
  | .method s =>
    "\x7b" ++ ", ".intercalate (s.params.map fun p => names.getD p "") ++ " -> " ++
      names.getD s.result "" ++ "\x7d"

end TypeKind

structure TypeTable where
  kinds : List TypeKind
deriving DecidableEq, Repr

namespace TypeTable

def initial : TypeTable := ⟨Primitive.all.map .primitive⟩

instance : Inhabited TypeTable := ⟨initial⟩

def size (t : TypeTable) : Nat := t.kinds.length

def kind? (t : TypeTable) (id : TypeId) : Option TypeKind := t.kinds[id]?

def push (t : TypeTable) (k : TypeKind) : TypeId × TypeTable := (t.size, ⟨t.kinds ++ [k]⟩)

/-- The number of a structural type, which is entered at its first use. -/
def intern (t : TypeTable) (k : TypeKind) : TypeId × TypeTable :=
  match t.kinds.idxOf? k with
  | some id => (id, t)
  | none => t.push k

theorem kind?_push_self (t : TypeTable) (k : TypeKind) :
    (t.push k).2.kind? (t.push k).1 = some k := by
  simp [push, kind?, size]

theorem kind?_push_of_lt (t : TypeTable) (k : TypeKind) {id : TypeId} (h : id < t.size) :
    (t.push k).2.kind? id = t.kind? id := by
  simp only [push, kind?]
  exact List.getElem?_append_left h

theorem kind?_intern_self (t : TypeTable) (k : TypeKind) :
    (t.intern k).2.kind? (t.intern k).1 = some k := by
  unfold intern
  split
  · next id h =>
    obtain ⟨hid, hk, _⟩ := List.findIdx?_eq_some_iff_getElem.mp h
    simp only [kind?, List.getElem?_eq_getElem hid]
    exact congrArg some (by simpa using hk)
  · exact kind?_push_self t k

theorem kind?_intern_of_lt (t : TypeTable) (k : TypeKind) {id : TypeId} (h : id < t.size) :
    (t.intern k).2.kind? id = t.kind? id := by
  unfold intern
  split
  · rfl
  · exact kind?_push_of_lt t k h

def arrayOf (t : TypeTable) (element : TypeId) : TypeId × TypeTable := t.intern (.array element)

def signature (t : TypeTable) (result : TypeId) (params : List TypeId) : TypeId × TypeTable :=
  t.intern (.method ⟨result, params⟩)

/-- The array type with `dims` pairs of brackets over `base`. -/
def nest (t : TypeTable) (base : TypeId) : Nat → TypeId × TypeTable
  | 0 => (base, t)
  | dims + 1 => let (id, t) := t.arrayOf base; t.nest id dims

def class? (t : TypeTable) (name : String) : Option TypeId :=
  t.kinds.findIdx? (TypeKind.isClassNamed name)

/-- The classes with their names, in the order of declaration. -/
def classes (t : TypeTable) : List (TypeId × String) :=
  t.kinds.zipIdx.filterMap fun
    | (.classType name _, id) => some (id, name)
    | _ => none

/-- The superclasses of a type, nearest first; only classes have any. -/
def ancestors (t : TypeTable) (id : TypeId) : List TypeId :=
  match t.kind? id with
  | some (.classType _ ancestors) => ancestors
  | _ => []

def superclass? (t : TypeTable) (id : TypeId) : Option TypeId := (t.ancestors id).head?

def element? (t : TypeTable) (id : TypeId) : Option TypeId :=
  match t.kind? id with
  | some (.array element) => some element
  | _ => none

def signature? (t : TypeTable) (id : TypeId) : Option Signature :=
  match t.kind? id with
  | some (.method s) => some s
  | _ => none

def isClass (t : TypeTable) (id : TypeId) : Bool := (t.kind? id).any TypeKind.isClass

def isArray (t : TypeTable) (id : TypeId) : Bool := (t.kind? id).any TypeKind.isArray

/-- Enters a class. Its superclass has to be in the table already. -/
def addClass (t : TypeTable) (name : String) (superclass : Option String) :
    Except DeclarationError (TypeId × TypeTable) :=
  if (t.class? name).isSome || (Primitive.named? name).isSome then
    .error (.duplicateClass name)
  else
    match superclass with
    | none => .ok (t.push (.classType name []))
    | some base =>
      match t.class? base with
      | none => .error (.undefinedSuperclass name base)
      | some id => .ok (t.push (.classType name (id :: t.ancestors id)))

def base? (t : TypeTable) : BaseType → Option TypeId
  | .int => some TypeId.int
  | .boolean => some TypeId.boolean
  | .string => some TypeId.string
  | .void => some TypeId.void
  | .named name => t.class? name

/-- The number of a written type. -/
def resolve (t : TypeTable) (e : TypeExpr) : Except DeclarationError (TypeId × TypeTable) :=
  match t.base? e.base with
  | some id => .ok (t.nest id e.dims)
  | none => .error (.undefinedType e.text)

/-- The pairs of brackets that end a name given backwards, and what stands before them. -/
def splitBrackets : List Char → Nat × List Char
  | ']' :: '[' :: rest => let (dims, base) := splitBrackets rest; (dims + 1, base)
  | base => (0, base)

/-- The number of the type with a spelled-out name: a primitive or a class, and any number of
    brackets. -/
def typeNamed (t : TypeTable) (name : String) : Except DeclarationError (TypeId × TypeTable) :=
  let (dims, reversed) := splitBrackets name.toList.reverse
  let base := String.ofList reversed.reverse
  match ((Primitive.named? base).map Primitive.id).or (t.class? base) with
  | some id => .ok (t.nest id dims)
  | none => .error (.undefinedType base)

/-- Whether a value of type `sub` can stand where `sup` is expected. A class is below its
    superclasses, null is below all but `int`, `boolean` and `void`, and every type is below
    itself; arrays are not covariant. -/
def isSubtype (t : TypeTable) (sub sup : TypeId) : Bool :=
  if sub = sup then true
  else if sub = TypeId.null then
    !(sup = TypeId.int || sup = TypeId.boolean || sup = TypeId.void)
  else (t.ancestors sub).contains sup

def compatible (t : TypeTable) (a b : TypeId) : Bool := t.isSubtype a b && t.isSubtype b a

/-- Whether two signature types may stand for one method. -/
def signaturesMatch (t : TypeTable) (a b : TypeId) : Bool :=
  match t.signature? a, t.signature? b with
  | some s, some s' =>
    s.params.length = s'.params.length && t.compatible s.result s'.result &&
      (s.params.zip s'.params).all fun p => t.compatible p.1 p.2
  | _, _ => false

/-- The names of all types, in order; each is made from names before it. -/
def names (t : TypeTable) : List String :=
  t.kinds.foldl (fun names k => names ++ [k.text names]) []

def name (t : TypeTable) (id : TypeId) : String := t.names.getD id ""

def describe (t : TypeTable) (id : TypeId) : TypeKind → String
  | .primitive p => s!"    {id.text}: Primitive type: {p.text}\n"
  | .classType name [] => s!"    {id.text}: Class: {name}\n"
  | .classType name (base :: _) => s!"    {id.text}: Class: {name}, Superclass ID: {base.text}\n"
  | .array _ => s!"    {id.text}: Array type: {t.name id}\n"
  | .method _ => s!"    {id.text}: Method type: {t.name id}\n"

/-- The numbered table of all types. -/
def render (t : TypeTable) : String :=
  "Type Table\n" ++ String.join (t.kinds.zipIdx.map fun (k, id) => t.describe id k)

end TypeTable

end IcLir
