import IcLir.Context

/-
  The definition stage. It enters every class into the type table, so that declarations may
  name classes that come later, then builds the scopes of each class in turn: fields, method
  symbols, and for each method its parameters, locals and blocks. At the end exactly one method
  has to be the entry method.
-/

namespace IcLir

/-- What the definition stage works on. -/
structure Definition where
  types : TypeTable
  scopes : ScopeTree
  declarations : OrderedMap TypeId ClassDecl
  /-- The methods that have the shape of an entry method. -/
  entries : List Entry
  /-- The number that the next local of the current method gets. -/
  nextOrdinal : Nat
deriving Inhabited

abbrev Define := Pass Definition

namespace Definition

open Pass (reject require promised)

def resolveType (e : TypeExpr) : Define TypeId := do
  match (← get).types.resolve e with
  | .ok (id, types) => modify ({ · with types := types }); return id
  | .error err => throw (.rejected (err.rejectAt e.span))

def insertSymbol (scope : ScopeId) (name : Ident) (kind : SymbolKind) (type : TypeId) :
    Define Unit := do
  match (← get).scopes.insert scope name.name kind type name.span with
  | .ok scopes => modify ({ · with scopes := scopes })
  | .error err => throw (.rejected (err.rejectAt name.span))

/-- Opens a scope. -/
def openScope (add : ScopeTree → ScopeId × ScopeTree) : Define ScopeId := do
  let (id, scopes) := add (← get).scopes
  modify ({ · with scopes := scopes })
  return id

/-- Where an error about entering a class is reported: an unknown superclass is pointed at. -/
def registrationSpan (types : TypeTable) (c : ClassDecl) : Span :=
  match c.superclass with
  | some base => if (types.class? base.name).isNone then base.span else c.name.span
  | none => c.name.span

def registerClass (c : ClassDecl) : Define Unit := do
  let types := (← get).types
  match types.addClass c.name.name (c.superclass.map (·.name)) with
  | .ok (id, types) =>
    modify fun s => { s with types := types, declarations := s.declarations.insert id c }
    insertSymbol ScopeTree.global c.name .className id
  | .error err => throw (.rejected (err.rejectAt (registrationSpan types c)))

def declareField (scope : ScopeId) (f : VarDecl) : Define Unit := do
  let type ← resolveType f.type
  let known := (← get).scopes.lookupMember scope f.name.name
  require known.isNone .redeclaredMember f.name.name f.name.span
  insertSymbol scope f.name .field type

/-- Whether a method names its parameters like the one of its name declared in class scope
    `base`. Arguments are bound by name, so an override has to. -/
def keepsParamNames (s : Definition) (base : ScopeId) (m : MethodDecl) : Bool :=
  let overridden := ((s.scopes.classOf? base).bind s.declarations.get?).bind
    (·.method? m.name.name)
  overridden.all fun b => b.paramNames = m.paramNames

/-- Checks a method against the member of its name that is already in view. -/
def checkOverride (scope : ScopeId) (m : MethodDecl) (signature : TypeId) (known : Symbol) :
    Define Unit := do
  let s ← get
  require (known.scope ≠ scope) .duplicateSymbol m.name.name m.name.span
  match known.kind.methodKind? with
  | none => reject .redeclaredMember m.name.name m.name.span
  | some kind =>
    require (s.types.signaturesMatch known.type signature) .overloading m.name.name m.name.span
    require (kind.isStatic = m.isStatic) .staticMix m.name.name m.name.span
    require (m.isStatic || s.keepsParamNames known.scope m) .renamedParameter m.name.name
      m.name.span

/-- Records a method of the shape `static void entry(string[] args)`. -/
def noteEntry (entryMethod : String) (owner : TypeId) (m : MethodDecl) (signature : TypeId) :
    Define Unit := do
  if m.kind = .static ∧ m.name.name = entryMethod then
    let s ← get
    let (strings, types) := s.types.arrayOf TypeId.string
    let isEntry := types.signature? signature = some ⟨TypeId.void, [strings]⟩
    set { s with
          types := types
          entries := if isEntry then s.entries ++ [Entry.mk owner m] else s.entries }
  else
    pure ()

def methodSignature (m : MethodDecl) : Define TypeId := do
  let result ← resolveType m.returnType
  let params ← m.params.mapM fun p => resolveType p.type
  let s ← get
  let (id, types) := s.types.signature result params
  set { s with types := types }
  return id

def declareMethod (entryMethod : String) (owner : TypeId) (scope : ScopeId) (m : MethodDecl) :
    Define Unit := do
  let signature ← methodSignature m
  match (← get).scopes.lookupMember scope m.name.name with
  | some known => checkOverride scope m signature known
  | none => pure ()
  insertSymbol scope m.name (.method m.kind) signature
  noteEntry entryMethod owner m signature

/-- The scope of an if or while body: a declaration that stands alone gets one of its own. -/
def branchScope (scope : ScopeId) (body : Stmt) : Define ScopeId :=
  if body.isDeclaration then openScope (·.addBlockScope scope body.id) else pure scope

mutual

def defineStmt (scope : ScopeId) : Stmt → Define Unit
  | .declare _ type name _ => do
    let id ← resolveType type
    insertSymbol scope name (.localVar (← get).nextOrdinal) id
    modify fun s => { s with nextOrdinal := s.nextOrdinal + 1 }
  | .block node stmts => do
    let inner ← openScope (·.addBlockScope scope node.id)
    defineStmts inner stmts
  | .ifThen _ _ body => do
    let inner ← branchScope scope body
    defineStmt inner body
  | .ifElse _ _ thenBranch elseBranch => do
    let inner ← branchScope scope thenBranch
    defineStmt inner thenBranch
    let inner ← branchScope scope elseBranch
    defineStmt inner elseBranch
  | .loop _ _ body => do
    let inner ← branchScope scope body
    defineStmt inner body
  | .assign .. => pure ()
  | .call .. => pure ()
  | .ret .. => pure ()
  | .breakLoop _ => pure ()
  | .continueLoop _ => pure ()

def defineStmts (scope : ScopeId) : List Stmt → Define Unit
  | [] => pure ()
  | s :: ss => do
    defineStmt scope s
    defineStmts scope ss

end

def defineParam (scope : ScopeId) (p : VarDecl) : Define Unit := do
  let type ← resolveType p.type
  insertSymbol scope p.name .parameter type

def defineMethod (classScope : ScopeId) (m : MethodDecl) : Define Unit := do
  let result ← resolveType m.returnType
  let scope ← openScope (·.addMethodScope classScope m.id m.name.name m.isStatic result)
  m.params.forM (defineParam scope)
  modify ({ · with nextOrdinal := 0 })
  defineStmts scope m.body

def defineClass (entryMethod : String) (c : ClassDecl) : Define Unit := do
  let types := (← get).types
  let type ← promised (types.class? c.name.name) (.unregisteredClass c.name.name)
  let scope ← openScope (·.addClassScope type c.name.name (types.superclass? type))
  c.fields.forM (declareField scope)
  c.methods.forM (declareMethod entryMethod type scope)
  c.methods.forM (defineMethod scope)

/-- The one entry method. -/
def findEntry (entryMethod : String) : Define Entry := do
  match (← get).entries with
  | [] => reject .missingEntry entryMethod (Span.ofLine 1)
  | [e] => pure e
  | _ :: e :: _ => reject .repeatedEntry entryMethod e.method.name.span

def defineProgram (entryMethod : String) (p : Program) : Define Entry := do
  p.classes.forM registerClass
  p.classes.forM (defineClass entryMethod)
  findEntry entryMethod

end Definition

namespace Context

/-- The definition stage's view of a context. -/
def definition (c : Context) : Definition := ⟨c.types, c.scopes, c.declarations, [], 0⟩

def withDefinition (c : Context) (d : Definition) : Context :=
  { c with types := d.types, scopes := d.scopes, declarations := d.declarations }

def define (p : Program) : Pass Context Unit := fun c =>
  match Definition.defineProgram c.options.entryMethod p c.definition with
  | .ok entry d => .ok () { c.withDefinition d with entry := some entry }
  | .error e d => .error e (c.withDefinition d)

end Context

end IcLir
