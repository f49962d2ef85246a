import IcLir.Scope.Tree
import IcLir.Diagnostic.Defect

/-
  Class layouts: where the fields of an object lie and which slot of its dispatch table each
  virtual method has. Offset 0 of an object holds its dispatch table, so fields start at 1;
  slots start at 0. A subclass starts from its superclass's layout: what it inherits keeps its
  place, and an override takes over the slot of the method it replaces.
-/

namespace IcLir

/-- A method as one class sees it. -/
structure MethodEntry where
  name : String
  /-- The class whose declaration is reached. -/
  owner : String
  /-- The place in the dispatch table; static methods have none. -/
  slot : Option Nat
  kind : MethodKind
deriving DecidableEq, Repr, Inhabited

def MethodEntry.label (e : MethodEntry) : String := s!"_{e.owner}_{e.name}"

structure ClassLayout where
  type : TypeId
  name : String
  fields : OrderedMap String Nat
  methods : OrderedMap String MethodEntry
  nextSlot : Nat
deriving Inhabited

namespace ClassLayout

/-- The layout of a class without a superclass, before its members are added. -/
def root (type : TypeId) (name : String) : ClassLayout := ⟨type, name, .empty, .empty, 0⟩

/-- The layout of a subclass, before its own members are added. -/
def derive (l : ClassLayout) (type : TypeId) (name : String) : ClassLayout :=
  { l with type := type, name := name }

/-- The offset that the next field gets. -/
def nextOffset (l : ClassLayout) : Nat := l.fields.size + 1

def addField (l : ClassLayout) (name : String) : ClassLayout :=
  { l with fields := l.fields.insert name l.nextOffset }

/-- Declares a method. One that is known already keeps its slot and only changes hands. -/
def addMethod (l : ClassLayout) (name : String) (kind : MethodKind) : ClassLayout :=
  match l.methods.get? name with
  | some e =>
    { l with methods := l.methods.insert name { e with owner := l.name, kind := kind } }
  | none =>
    match kind with
    | .virtual =>
      { l with methods := l.methods.insert name ⟨name, l.name, some l.nextSlot, kind⟩
               nextSlot := l.nextSlot + 1 }
    | .static | .library => { l with methods := l.methods.insert name ⟨name, l.name, none, kind⟩ }

def offset? (l : ClassLayout) (name : String) : Option Nat := l.fields.get? name

def method? (l : ClassLayout) (name : String) : Option MethodEntry := l.methods.get? name

theorem offset?_addField_self (l : ClassLayout) (name : String) :
    (l.addField name).offset? name = some l.nextOffset :=
  OrderedMap.get?_insert_self ..

theorem offset?_addField_of_ne (l : ClassLayout) {name other : String} (h : other ≠ name) :
    (l.addField name).offset? other = l.offset? other :=
  OrderedMap.get?_insert_of_ne _ _ h

theorem method?_addMethod_of_ne (l : ClassLayout) {name other : String} (kind : MethodKind)
    (h : other ≠ name) : (l.addMethod name kind).method? other = l.method? other := by
  unfold addMethod
  split
  · exact OrderedMap.get?_insert_of_ne _ _ h
  · cases kind <;> exact OrderedMap.get?_insert_of_ne _ _ h

/-- A method that is known keeps its slot. -/
theorem method?_addMethod_of_some (l : ClassLayout) {name : String} {e : MethodEntry}
    (kind : MethodKind) (h : l.method? name = some e) :
    (l.addMethod name kind).method? name = some { e with owner := l.name, kind := kind } := by
  unfold addMethod
  simp only [method?] at h
  rw [h]
  exact OrderedMap.get?_insert_self ..

/-- The labels of the methods that have a slot, by slot. -/
def dispatchTable (l : ClassLayout) : List String :=
  let slotted := l.methods.values.filterMap fun e => e.slot.map fun slot => (slot, e.label)
  (slotted.mergeSort fun a b => decide (a.1 ≤ b.1)).map Prod.snd

def tableLabel (name : String) : String := s!"_DV_{name}"

def dispatchLabel (l : ClassLayout) : String := tableLabel l.name

/-- Bytes of an object: a word for the dispatch table and one for each field. -/
def objectSize (l : ClassLayout) : Nat := 4 * (l.fields.size + 1)

/-- Adds what a symbol of the class scope declares. -/
def addSymbol (l : ClassLayout) (s : Symbol) : ClassLayout :=
  match s.kind with
  | .field => l.addField s.name
  | .method kind => l.addMethod s.name kind
  | .className | .parameter | .localVar _ => l

end ClassLayout

/-- The layouts of all classes, in the order of declaration. -/
abbrev LayoutTable := OrderedMap TypeId ClassLayout

namespace LayoutTable

/-- The layout a class starts from. -/
def start (table : LayoutTable) (types : TypeTable) (type : TypeId) (name : String) :
    Except Defect ClassLayout :=
  match types.superclass? type with
  | none => .ok (.root type name)
  | some base =>
    match table.get? base with
    | some l => .ok (l.derive type name)
    | none => .error (.noSuperclassLayout name)

/-- Adds the layout of one class, whose superclass has its layout already. -/
def addClass (types : TypeTable) (scopes : ScopeTree) (table : LayoutTable)
    (c : TypeId × String) : Except Defect LayoutTable := do
  let layout ← start table types c.1 c.2
  match scopes.classScopes.get? c.1 with
  | none => .error (.unscopedClass c.2)
  | some id =>
    .ok (table.insert c.1 ((scopes.scope id).symbols.values.foldl ClassLayout.addSymbol layout))

def build (types : TypeTable) (scopes : ScopeTree) : Except Defect LayoutTable :=
  types.classes.foldlM (addClass types scopes) .empty

end LayoutTable

end IcLir
