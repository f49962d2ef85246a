import IcLir.DirectedGraph
import IcLir.Scope.Text

/-
  Scopes as the nodes of a directed graph, with an edge from each scope to every scope that was
  opened in it. Nothing but the edges says where a scope lies. Lookups and the text of the tables
  follow them, and would not end if the edges led round in a circle: a result `none` of `walk`
  or `writeScope` stands for that.
-/

namespace IcLir

open DirectedGraph

structure ScopeGraph (G : Type → Type) where
  graph : G SymbolTable
  global : ScopeId
  classScopes : OrderedMap TypeId ScopeId
  methodScopes : OrderedMap NodeId ScopeId
  blockScopes : OrderedMap NodeId ScopeId

namespace ScopeGraph

variable {G : Type → Type} [DirectedGraph G]

def initial : ScopeGraph G :=
  let (global, graph) := addNode (empty : G SymbolTable) ⟨.global, "Global", 0, false, .empty⟩
  ⟨graph, global, .empty, .empty, .empty⟩

def size (g : ScopeGraph G) : Nat := (nodes g.graph).length

def scope (g : ScopeGraph G) (id : ScopeId) : SymbolTable := (nodes g.graph)[id]?.getD default

def parent? (g : ScopeGraph G) (id : ScopeId) : Option ScopeId :=
  (neighbours g.graph .incoming id).head?

/-- The scopes inside `id`, one level down, oldest first. -/
def children (g : ScopeGraph G) (id : ScopeId) : List ScopeId :=
  (neighbours g.graph .outgoing id).reverse

/-! Opening scopes and declaring names. -/

def addScope (g : ScopeGraph G) (parent : ScopeId) (kind : ScopeKind) (name : String) :
    ScopeId × ScopeGraph G :=
  let (child, graph) := addNode g.graph ((g.scope parent).inside kind name)
  (child, { g with graph := addEdge graph parent child })

/-- Opens the scope of a class, inside the scope of its superclass if that has one. -/
def addClassScope (g : ScopeGraph G) (type : TypeId) (name : String)
    (superclass : Option TypeId) : ScopeId × ScopeGraph G :=
  let parent := (superclass.bind g.classScopes.get?).getD g.global
  let (id, g) := g.addScope parent (.classScope type) name
  (id, { g with classScopes := g.classScopes.insert type id })

def addMethodScope (g : ScopeGraph G) (parent : ScopeId) (node : NodeId) (name : String)
    (isStatic : Bool) (result : TypeId) : ScopeId × ScopeGraph G :=
  let (id, g) := g.addScope parent (.method isStatic result) name
  (id, { g with methodScopes := g.methodScopes.insert node id })

def addBlockScope (g : ScopeGraph G) (parent : ScopeId) (node : NodeId) : ScopeId × ScopeGraph G :=
  let (id, g) := g.addScope parent .block ("statement block in " ++ (g.scope parent).name)
  (id, { g with blockScopes := g.blockScopes.insert node id })

/-- Declares a name. Only a second declaration in the same scope is refused. -/
def insert (id : ScopeId) (name : String) (kind : SymbolKind) (type : TypeId) (span : Span) :
    EStateM DeclarationError (ScopeGraph G) Unit := do
  if (((← get).scope id).get? name).isSome then
    throw (.duplicateSymbol name)
  modify fun g => { g with graph := DirectedGraph.modify g.graph id fun s =>
    { s with symbols := s.symbols.insert name ⟨name, kind, type, id, span⟩ } }

/-! Lookups. -/

/-- The loop of a lookup: at a scope it gives its answer or goes on to the next one. -/
def walk (g : ScopeGraph G) {α : Type} (next : ScopeId → Option ScopeId)
    (answer : ScopeId → SymbolTable → Option (Option α)) : Option ScopeId → Option (Option α)
  | none => some none
  | some id =>
    match answer id (g.scope id) with
    | some found => some found
    | none => g |>.walk next answer (next id)
partial_fixpoint

/-- The scope that a lookup goes on in: a static method is followed by the global scope. -/
def nextOutward? (g : ScopeGraph G) (id : ScopeId) : Option ScopeId :=
  match (g.scope id).kind with
  | .method true _ => some g.global
  | .global => none
  | .classScope _ | .method false _ | .block => g.parent? id

def lookupVisible (g : ScopeGraph G) (id : ScopeId) (name : String) (visible : Nat) :
    Option (Option Symbol) :=
  g.walk g.nextOutward? (fun _ s => ((s.get? name).filter (·.isVisible visible)).map some)
    (some id)

def lookupMember (g : ScopeGraph G) (id : ScopeId) (name : String) : Option (Option Symbol) :=
  g.walk g.parent? (fun _ s => if s.isClass then (s.member? name).map some else some none)
    (some id)

/-- The innermost scope of a certain kind around `id`, itself included. -/
def enclosing? (g : ScopeGraph G) (p : ScopeKind → Bool) (id : ScopeId) :
    Option (Option ScopeId) :=
  g.walk g.parent? (fun id s => if p s.kind then some (some id) else none) (some id)

/-! The text of the tables. -/

/-- Writes a scope and then, each after an empty line, the scopes inside it. -/
def writeScope (g : ScopeGraph G) (types : TypeTable) (out : String) (id : ScopeId) :
    Option String :=
  let inside := g.children id
  let names := inside.map fun child => (g.scope child).name
  inside.foldlM (fun out child => g |>.writeScope types (out ++ "\n") child)
    (out ++ (g.scope id).paragraph types names)
partial_fixpoint

def render (g : ScopeGraph G) (types : TypeTable) : Option String :=
  g.writeScope types "" g.global

end ScopeGraph

end IcLir
