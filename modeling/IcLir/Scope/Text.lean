import IcLir.Scope.Tree

/-
  The symbol tables as text: one paragraph per scope, every scope before those inside it.
-/

namespace IcLir

/-- The title of a scope's paragraph. -/
def SymbolTable.title (s : SymbolTable) : String :=
  match s.kind with
  | .global => "Global Symbol Table"
  | .classScope _ => s!"Class Symbol Table: {s.name}"
  | .method _ _ => s!"Method Symbol Table: {s.name}"
  | .block => s!"Statement Block Symbol Table ( {s.name} )"

def Symbol.describe (types : TypeTable) (s : Symbol) : String :=
  let type := types.name s.type
  match s.kind with
  | .className => s!"    Class: {s.name}\n"
  | .field => s!"    Field: {type} {s.name}\n"
  | .method .virtual => s!"    Virtual method: {s.name} {type}\n"
  | .method _ => s!"    Static method: {s.name} {type}\n"
  | .parameter => s!"    Parameter: {type} {s.name}\n"
  | .localVar _ => s!"    Local variable: {type} {s.name}\n"

/-- The paragraph of a scope: its title, its symbols and the names of the scopes inside it. -/
def SymbolTable.paragraph (types : TypeTable) (inside : List String) (s : SymbolTable) : String :=
  let symbols := String.join (s.symbols.values.map (Symbol.describe types))
  let tables := match inside with
    | [] => ""
    | names => "Children tables: " ++ ", ".intercalate names ++ "\n"
  s.title ++ "\n" ++ symbols ++ tables

namespace ScopeTree

/-- Every scope with itself and all scopes inside it, each before those inside it. A scope's
    children are younger than the scope, so the list is built from the youngest on. -/
def subtrees (t : ScopeTree) : List (ScopeId × List ScopeId) :=
  (List.range t.size).foldr (fun id younger =>
    let inside := younger.filter fun sub => t.parent? sub.1 = some id
    (id, id :: inside.flatMap Prod.snd) :: younger) []

/-- All scopes, each before those inside it. -/
def preorder (t : ScopeTree) : List ScopeId := ((t.subtrees.head?).map Prod.snd).getD []

def paragraph (t : ScopeTree) (types : TypeTable) (id : ScopeId) : String :=
  (t.scope id).paragraph types ((t.children id).map fun c => (t.scope c).name)

def render (t : ScopeTree) (types : TypeTable) : String :=
  "\n".intercalate (t.preorder.map (t.paragraph types))

end ScopeTree

end IcLir
