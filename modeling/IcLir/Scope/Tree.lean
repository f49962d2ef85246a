import IcLir.Scope.Basic

/-
  The tree of scopes. A class scope lies in the scope of its superclass, or else in the global
  scope, so that a walk outward from a method passes its locals, the class hierarchy and the
  globals; the walk from a static method leaves the classes out. Every class scope has depth 1,
  whatever the depth of its inheritance, so that an override's parameters are named like those
  of the method it replaces.
-/

namespace IcLir

structure ScopeTree where
  scopes : List Scope
  classScopes : OrderedMap TypeId ScopeId
  methodScopes : OrderedMap NodeId ScopeId
  blockScopes : OrderedMap NodeId ScopeId

namespace ScopeTree

def global : ScopeId := 0

def initial : ScopeTree where
  scopes := [⟨⟨.global, "Global", 0, false, .empty⟩, []⟩]
  classScopes := .empty
  methodScopes := .empty
  blockScopes := .empty

instance : Inhabited ScopeTree := ⟨initial⟩

def size (t : ScopeTree) : Nat := t.scopes.length

def scope? (t : ScopeTree) (id : ScopeId) : Option Scope := t.scopes[id]?

def scope (t : ScopeTree) (id : ScopeId) : Scope := (t.scope? id).getD default

def depth (t : ScopeTree) (id : ScopeId) : Nat := (t.scope id).depth

def parent? (t : ScopeTree) (id : ScopeId) : Option ScopeId := (t.scope id).parent?

/-- The scopes inside `id`, one level down, in the order of creation. -/
def children (t : ScopeTree) (id : ScopeId) : List ScopeId :=
  (List.range t.size).filter fun c => t.parent? c = some id

/-- The scope `id` and those around it, innermost first. -/
def path (t : ScopeTree) (id : ScopeId) : List ScopeId := id :: (t.scope id).enclosing

def addScope (t : ScopeTree) (parent : ScopeId) (kind : ScopeKind) (name : String) :
    ScopeId × ScopeTree :=
  (t.size, { t with scopes := t.scopes ++ [⟨(t.scope parent).inside kind name, t.path parent⟩] })

theorem size_addScope (t : ScopeTree) (parent : ScopeId) (kind : ScopeKind) (name : String) :
    (t.addScope parent kind name).2.size = t.size + 1 := by
  simp [addScope, size]

theorem scope?_addScope_of_lt (t : ScopeTree) (parent : ScopeId) (kind : ScopeKind)
    (name : String) {id : ScopeId} (h : id < t.size) :
    (t.addScope parent kind name).2.scope? id = t.scope? id := by
  simp only [addScope, scope?]
  exact List.getElem?_append_left h

/-- Opens the scope of a class, inside the scope of its superclass if that has one. -/
def addClassScope (t : ScopeTree) (type : TypeId) (name : String) (superclass : Option TypeId) :
    ScopeId × ScopeTree :=
  let parent := (superclass.bind t.classScopes.get?).getD global
  let (id, t) := t.addScope parent (.classScope type) name
  (id, { t with classScopes := t.classScopes.insert type id })

def addMethodScope (t : ScopeTree) (parent : ScopeId) (node : NodeId) (name : String)
    (isStatic : Bool) (result : TypeId) : ScopeId × ScopeTree :=
  let (id, t) := t.addScope parent (.method isStatic result) name
  (id, { t with methodScopes := t.methodScopes.insert node id })

def addBlockScope (t : ScopeTree) (parent : ScopeId) (node : NodeId) : ScopeId × ScopeTree :=
  let (id, t) := t.addScope parent .block ("statement block in " ++ (t.scope parent).name)
  (id, { t with blockScopes := t.blockScopes.insert node id })

/-- Declares a name. Only a second declaration in the same scope is refused; one further out
    is shadowed. -/
def insert (t : ScopeTree) (id : ScopeId) (name : String) (kind : SymbolKind) (type : TypeId)
    (span : Span) : Except DeclarationError ScopeTree :=
  if ((t.scope id).get? name).isSome then .error (.duplicateSymbol name)
  else
    let symbol : Symbol := ⟨name, kind, type, id, span⟩
    .ok { t with scopes := t.scopes.modify id fun s =>
            { s with symbols := s.symbols.insert name symbol } }

/-- The part of a path that names are looked up in: a static method is followed by the global
    scope at once. -/
def outward (t : ScopeTree) : List ScopeId → List ScopeId
  | [] => []
  | id :: rest => if (t.scope id).kind.isStaticMethod then [id, global] else id :: t.outward rest

/-- The innermost symbol `name` in view from scope `id`, where of the locals of the method only
    the first `visible` are in view. -/
def lookupVisible (t : ScopeTree) (id : ScopeId) (name : String) (visible : Nat) : Option Symbol :=
  (t.outward (t.path id)).findSome? fun s =>
    ((t.scope s).get? name).filter (·.isVisible visible)

/-- A bound that no numbering of locals reaches. -/
def allLocals : Nat := 0xffffffff

def lookup (t : ScopeTree) (id : ScopeId) (name : String) : Option Symbol :=
  t.lookupVisible id name allLocals

/-- The field or method `name` of a class scope or of the nearest superclass that has one. -/
def lookupMember (t : ScopeTree) (id : ScopeId) (name : String) : Option Symbol :=
  ((t.path id).takeWhile fun s => (t.scope s).isClass).findSome? fun s => (t.scope s).member? name

/-- The innermost class scope around `id`, itself included. -/
def enclosingClass? (t : ScopeTree) (id : ScopeId) : Option ScopeId :=
  (t.path id).find? fun s => (t.scope s).kind.isClass

/-- The innermost method scope around `id`, itself included. -/
def enclosingMethod? (t : ScopeTree) (id : ScopeId) : Option ScopeId :=
  (t.path id).find? fun s => (t.scope s).kind.isMethod

/-- The class a class scope belongs to. -/
def classOf? (t : ScopeTree) (id : ScopeId) : Option TypeId :=
  match (t.scope id).kind with
  | .classScope type => some type
  | _ => none

end ScopeTree

end IcLir
