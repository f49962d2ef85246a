import IcLir.Proofs.CompileOutcome
import IcLir.Proofs.Interpreter
import IcLir.Proofs.Lexical
import IcLir.Proofs.ParenRemoval

/-
  The analysis of a program without its parentheses. The definition stage does not look into
  expressions. The typing stage writes the type of a pair of parentheses and never reads one, and
  gives it the type of what it holds. So the two runs of the analysis end with tables that say the
  same (`exists_analyzed_withoutParens`).
-/

namespace IcLir

/-! ## The definition stage -/

namespace Definition

open Pass

/-- What the definition stage has found out in the two runs. -/
structure Renumbered (r : Renumbering) (p : Program) (d d' : Definition) : Prop where
  types : d'.types = d.types
  scopes : d.scopes.Renumbered r p d'.scopes
  declarations : ∀ type,
    d'.declarations.get? type = (d.declarations.get? type).map (·.withoutParens r)
  declared : ∀ type c, d.declarations.get? type = some c → c ∈ p.classes
  entries : d'.entries = d.entries.map (·.withoutParens r)
  entered : ∀ e ∈ d.entries, e.method ∈ p.methods
  nextOrdinal : d'.nextOrdinal = d.nextOrdinal

section

variable {r : Renumbering} {p : Program}

variable {d d' : Definition} {m : MethodDecl}

theorem Renumbered.withTypes (h : Renumbered r p d d') (types : TypeTable) :
    Renumbered r p { d with types := types } { d' with types := types } :=
  ⟨rfl, h.scopes, h.declarations, h.declared, h.entries, h.entered, h.nextOrdinal⟩

theorem Renumbered.withScopes (h : Renumbered r p d d') {t t' : ScopeTree}
    (ht : t.Renumbered r p t') : Renumbered r p { d with scopes := t } { d' with scopes := t' } :=
  ⟨h.types, ht, h.declarations, h.declared, h.entries, h.entered, h.nextOrdinal⟩

theorem Renumbered.withOrdinal (h : Renumbered r p d d') {n n' : Nat} (hn : n' = n) :
    Renumbered r p { d with nextOrdinal := n } { d' with nextOrdinal := n' } :=
  ⟨h.types, h.scopes, h.declarations, h.declared, h.entries, h.entered, hn⟩

theorem tracks_resolveType (e : TypeExpr) :
    Tracks (Renumbered r p) Eq (resolveType e) (resolveType e) := by
  refine tracks_get_bind fun d d' hd => ?_
  rw [hd.types]
  cases d.types.resolve e with
  | error err => exact tracks_throw _ _
  | ok result =>
    exact (tracks_modify fun _ _ h => h.withTypes result.2).bind_eq fun _ => tracks_pure rfl

theorem tracks_insertSymbol (scope : ScopeId) (name : Ident) (kind : SymbolKind) (type : TypeId) :
    Tracks (Renumbered r p) Eq (insertSymbol scope name kind type)
      (insertSymbol scope name kind type) := by
  refine tracks_get_bind fun d d' hd => ?_
  cases hu : d.scopes.insert scope name.name kind type name.span with
  | error err => exact tracks_throw _ _
  | ok u =>
    obtain ⟨u', hu', htrees⟩ := hd.scopes.insert hu
    rw [hu']
    exact tracks_modify fun _ _ h => h.withScopes htrees

theorem tracks_openScope {add add' : ScopeTree → ScopeId × ScopeTree}
    (h : ∀ t t', t.Renumbered r p t' →
      (add' t').1 = (add t).1 ∧ (add t).2.Renumbered r p (add' t').2) :
    Tracks (Renumbered r p) Eq (openScope add) (openScope add') := by
  refine tracks_get_bind fun d d' hd => ?_
  obtain ⟨hid, htrees⟩ := h d.scopes d'.scopes hd.scopes
  refine Tracks.bind_eq (tracks_modify fun _ _ h => h.withScopes htrees) fun _ => ?_
  exact tracks_pure hid.symm

theorem tracks_registerClass {c : ClassDecl} (hc : c ∈ p.classes) :
    Tracks (Renumbered r p) Eq (registerClass c) (registerClass (c.withoutParens r)) := by
  refine tracks_get_bind fun d d' hd => ?_
  rw [hd.types]
  dsimp only [ClassDecl.name_withoutParens, ClassDecl.superclass_withoutParens]
  cases d.types.addClass c.name.name (c.superclass.map (·.name)) with
  | error err => exact tracks_throw _ _
  | ok result =>
    refine Tracks.bind_eq (tracks_modify ?_) fun _ => tracks_insertSymbol _ c.name _ _
    intro e e' he
    refine ⟨rfl, he.scopes, fun type => ?_, fun type k hk => ?_, he.entries, he.entered,
      he.nextOrdinal⟩
    · dsimp only
      rw [OrderedMap.get?_insert, OrderedMap.get?_insert, he.declarations]
      split <;> rfl
    · dsimp only at hk
      rw [OrderedMap.get?_insert] at hk
      split at hk
      · obtain rfl := Option.some.inj hk
        exact hc
      · exact he.declared type k hk

/-! Members. -/

theorem tracks_declareField (scope : ScopeId) (f : VarDecl) :
    Tracks (Renumbered r p) Eq (declareField scope f) (declareField scope f) := by
  refine (tracks_resolveType f.type).bind_eq fun type => tracks_get_bind fun d d' hd => ?_
  rw [hd.scopes.lookupMember_eq]
  exact (tracks_require fun h => h).bind_eq fun _ => tracks_insertSymbol scope f.name .field type

theorem method?_withoutParens (c : ClassDecl) (name : String) :
    (c.withoutParens r).method? name = (c.method? name).map (·.withoutParens r) := by
  unfold ClassDecl.method? ClassDecl.withoutParens
  rw [List.find?_map]
  rfl

theorem Renumbered.keepsParamNames_eq (h : Renumbered r p d d') (base : ScopeId) (m : MethodDecl) :
    d'.keepsParamNames base (m.withoutParens r) = d.keepsParamNames base m := by
  unfold keepsParamNames
  rw [h.scopes.classOf?_eq]
  cases d.scopes.classOf? base with
  | none => rfl
  | some type =>
    rw [Option.bind_some, Option.bind_some, h.declarations]
    cases d.declarations.get? type with
    | none => rfl
    | some c =>
      rw [Option.map_some, Option.bind_some, Option.bind_some]
      rw [show (m.withoutParens r).name.name = m.name.name from rfl, method?_withoutParens]
      cases c.method? m.name.name <;> rfl

theorem tracks_checkOverride (scope : ScopeId) (m : MethodDecl) (signature : TypeId)
    (known : Symbol) :
    Tracks (Renumbered r p) Eq (checkOverride scope m signature known)
      (checkOverride scope (m.withoutParens r) signature known) := by
  refine tracks_get_bind fun d d' hd => (tracks_require fun h => h).bind_eq fun _ => ?_
  cases known.kind.methodKind? with
  | none => exact tracks_throw _ _
  | some kind =>
    dsimp only
    rw [hd.types, hd.keepsParamNames_eq]
    exact (tracks_require fun h => h).bind_eq fun _ => (tracks_require fun h => h).bind_eq fun _ =>
      tracks_require fun h => h

theorem Renumbered.noted (h : Renumbered r p d d') (owner : TypeId) (hm : m ∈ p.methods)
    (types : TypeTable) (isEntry : Prop) [Decidable isEntry] :
    Renumbered r p
      { d with
        types := types
        entries := if isEntry then d.entries ++ [Entry.mk owner m] else d.entries }
      { d' with
        types := types
        entries :=
          if isEntry then d'.entries ++ [Entry.mk owner (m.withoutParens r)] else d'.entries } := by
  refine ⟨rfl, h.scopes, h.declarations, h.declared, ?_, ?_, h.nextOrdinal⟩
  · dsimp only
    rw [h.entries]
    split
    · rw [List.map_append]
      rfl
    · rfl
  · dsimp only
    split
    · intro e he
      rcases List.mem_append.mp he with he | he
      · exact h.entered e he
      · obtain rfl := List.mem_singleton.mp he
        exact hm
    · exact h.entered

theorem tracks_noteEntry (entryMethod : String) (owner : TypeId) (hm : m ∈ p.methods)
    (signature : TypeId) :
    Tracks (Renumbered r p) Eq (noteEntry entryMethod owner m signature)
      (noteEntry entryMethod owner (m.withoutParens r) signature) := by
  unfold noteEntry
  rw [show (m.withoutParens r).kind = m.kind from rfl,
    show (m.withoutParens r).name = m.name from rfl]
  split
  · refine tracks_get_bind fun d d' hd => ?_
    rw [hd.types]
    exact tracks_set (hd.noted owner hm _ _)
  · exact tracks_pure rfl

theorem tracks_declareMethod (entryMethod : String) (owner : TypeId) (scope : ScopeId)
    (hm : m ∈ p.methods) :
    Tracks (Renumbered r p) Eq (declareMethod entryMethod owner scope m)
      (declareMethod entryMethod owner scope (m.withoutParens r)) := by
  have hsignature : Tracks (Renumbered r p) Eq (methodSignature m)
      (methodSignature (m.withoutParens r)) := by
    refine (tracks_resolveType m.returnType).bind_eq fun result => ?_
    refine (tracks_mapM fun q _ => tracks_resolveType q.type).bind_eq fun params =>
      tracks_get_bind fun d d' hd => ?_
    rw [hd.types]
    exact (tracks_set (hd.withTypes _)).bind_eq fun _ => tracks_pure rfl
  refine hsignature.bind_eq fun signature => tracks_get_bind fun d d' hd => ?_
  rw [hd.scopes.lookupMember_eq]
  have hrest : Tracks (Renumbered r p) Eq
      (insertSymbol scope m.name (.method m.kind) signature >>= fun _ =>
        noteEntry entryMethod owner m signature)
      (insertSymbol scope m.name (.method m.kind) signature >>= fun _ =>
        noteEntry entryMethod owner (m.withoutParens r) signature) :=
    (tracks_insertSymbol scope m.name _ signature).bind_eq fun _ =>
      tracks_noteEntry entryMethod owner hm signature
  dsimp only [MethodDecl.withoutParens] at hrest ⊢
  cases d.scopes.lookupMember scope m.name.name with
  | none => exact hrest
  | some known => exact (tracks_checkOverride scope m signature known).bind_eq fun _ => hrest

/-! Bodies. -/

theorem tracks_branchScope (hr : r.Faithful p) (scope : ScopeId) {body : Stmt}
    (hbody : body ∈ p.stmts) :
    Tracks (Renumbered r p) Eq (branchScope scope body)
      (branchScope scope (body.withoutParens r)) := by
  unfold branchScope
  rw [Stmt.isDeclaration_withoutParens, Stmt.id_withoutParens]
  split
  · exact tracks_openScope fun t t' h => h.addBlockScope hr scope ⟨body, hbody, rfl⟩
  · exact tracks_pure rfl

mutual

theorem tracks_defineStmt (hr : r.Faithful p) (scope : ScopeId) (s : Stmt)
    (hs : s.nodes ⊆ p.stmts) :
    Tracks (Renumbered r p) Eq (defineStmt scope s) (defineStmt scope (s.withoutParens r)) := by
  match s with
  | .declare _ type name _ =>
    refine (tracks_resolveType type).bind_eq fun id => tracks_get_bind fun d d' hd => ?_
    rw [hd.nextOrdinal]
    refine (tracks_insertSymbol scope name _ id).bind_eq fun _ => tracks_modify fun e e' he => ?_
    exact he.withOrdinal (by rw [he.nextOrdinal])
  | .block n stmts =>
    refine Tracks.bind_eq (tracks_openScope fun t t' h => ?_) fun inner =>
      tracks_defineStmts hr inner stmts (List.subset_of_cons_subset hs)
    exact h.addBlockScope hr scope ⟨_, hs List.mem_cons_self, rfl⟩
  | .ifThen _ _ body | .loop _ _ body =>
    have hbody := List.subset_of_cons_subset hs
    exact (tracks_branchScope hr scope (hbody body.mem_nodes)).bind_eq fun inner =>
      tracks_defineStmt hr inner body hbody
  | .ifElse _ _ thenBranch elseBranch =>
    obtain ⟨hthen, helse⟩ := List.append_subset.mp (List.subset_of_cons_subset hs)
    refine (tracks_branchScope hr scope (hthen thenBranch.mem_nodes)).bind_eq fun inner =>
      (tracks_defineStmt hr inner thenBranch hthen).bind_eq fun _ => ?_
    exact (tracks_branchScope hr scope (helse elseBranch.mem_nodes)).bind_eq fun inner =>
      tracks_defineStmt hr inner elseBranch helse
  | .assign .. | .call .. | .ret .. | .breakLoop _ | .continueLoop _ => exact tracks_pure rfl

theorem tracks_defineStmts (hr : r.Faithful p) (scope : ScopeId) (ss : List Stmt)
    (hss : Stmt.nodesOfList ss ⊆ p.stmts) :
    Tracks (Renumbered r p) Eq (defineStmts scope ss)
      (defineStmts scope (Stmt.withoutParensOfList r ss)) := by
  match ss with
  | [] => exact tracks_pure rfl
  | s :: ss =>
    obtain ⟨hs, hss⟩ := List.append_subset.mp hss
    exact (tracks_defineStmt hr scope s hs).bind_eq fun _ => tracks_defineStmts hr scope ss hss

end

theorem tracks_defineMethod (hr : r.Faithful p) (classScope : ScopeId) (hm : m ∈ p.methods) :
    Tracks (Renumbered r p) Eq (defineMethod classScope m)
      (defineMethod classScope (m.withoutParens r)) := by
  refine (tracks_resolveType m.returnType).bind_eq fun result => ?_
  refine Tracks.bind_eq (tracks_openScope fun t t' h => ?_) fun scope => ?_
  · exact h.addMethodScope hr classScope ⟨m, hm, rfl⟩ m.name.name m.isStatic result
  · refine Tracks.bind_eq (tracks_forM fun q _ => ?_) fun _ => ?_
    · exact (tracks_resolveType q.type).bind_eq fun type =>
        tracks_insertSymbol scope q.name .parameter type
    · refine Tracks.bind_eq (tracks_modify fun d d' hd => hd.withOrdinal rfl) fun _ => ?_
      refine tracks_defineStmts hr scope m.body fun x hx => ?_
      exact List.mem_flatMap.mpr ⟨m, hm, hx⟩

theorem tracks_defineClass (hr : r.Faithful p) (entryMethod : String) {c : ClassDecl}
    (hc : c ∈ p.classes) :
    Tracks (Renumbered r p) Eq (defineClass entryMethod c)
      (defineClass entryMethod (c.withoutParens r)) := by
  have hmethods : ∀ m ∈ c.methods, m ∈ p.methods := fun m hm =>
    List.mem_flatMap.mpr ⟨c, hc, hm⟩
  refine tracks_get_bind fun d d' hd => ?_
  rw [hd.types]
  refine (tracks_promised_eq rfl).bind_eq fun type => ?_
  refine Tracks.bind_eq (tracks_openScope fun t t' h => ?_) fun scope => ?_
  · exact h.addClassScope type c.name.name _
  · refine (tracks_forM fun f _ => tracks_declareField scope f).bind_eq fun _ => ?_
    refine (tracks_forM_map _ fun m hm =>
      tracks_declareMethod entryMethod type scope (hmethods m hm)).bind_eq fun _ => ?_
    exact tracks_forM_map _ fun m hm => tracks_defineMethod hr scope (hmethods m hm)

/-- The entry that is found has its parentheses taken away too. -/
theorem tracks_findEntry (entryMethod : String) :
    Tracks (Renumbered r p) (fun e e' => e' = e.withoutParens r ∧ e.method ∈ p.methods)
      (findEntry entryMethod) (findEntry entryMethod) := by
  refine tracks_get_bind fun d d' hd => ?_
  rw [hd.entries]
  have hentered := hd.entered
  cases hentries : d.entries with
  | nil => exact tracks_throw _ _
  | cons e es =>
    rw [hentries] at hentered
    cases es with
    | nil => exact tracks_pure ⟨rfl, hentered e List.mem_cons_self⟩
    | cons e' es => exact tracks_throw _ _

theorem tracks_defineProgram (hr : r.Faithful p) (entryMethod : String) :
    Tracks (Renumbered r p) (fun e e' => e' = e.withoutParens r ∧ e.method ∈ p.methods)
      (defineProgram entryMethod p) (defineProgram entryMethod (p.withoutParens r)) := by
  refine (tracks_forM_map _ fun c hc => tracks_registerClass hc).bind_eq fun _ => ?_
  refine (tracks_forM_map _ fun c hc => tracks_defineClass hr entryMethod hc).bind_eq fun _ => ?_
  exact tracks_findEntry entryMethod

end

end Definition

/-! ## The typing stage -/

namespace Typing

open Pass

/-- What the typing stage has found out in the two runs. -/
structure Renumbered (r : Renumbering) (p : Program) (t t' : Typing) : Prop where
  types : t'.types = t.types
  exprTypes : t.exprTypes.Renumbered p.IsKeptId r.exprs t'.exprTypes
  references : t.references.Renumbered p.IsKeptId r.exprs t'.references
  visible : t'.visible = t.visible

section

variable {r : Renumbering} {p : Program}

variable {span span' : Span} {t t' : ScopeTree}

theorem Renumbered.withTypes {t t' : Typing} (h : Renumbered r p t t') (types : TypeTable) :
    Renumbered r p { t with types := types } { t' with types := types } :=
  ⟨rfl, h.exprTypes, h.references, h.visible⟩

theorem Renumbered.withVisible {t t' : Typing} (h : Renumbered r p t t') {n n' : Nat}
    (hn : n' = n) : Renumbered r p { t with visible := n } { t' with visible := n' } :=
  ⟨h.types, h.exprTypes, h.references, hn⟩

theorem tracks_recorded (hr : r.Faithful p) {n : Node} (hn : p.IsKeptId n.id)
    {x y : Check TypeId} (h : Tracks (Renumbered r p) Eq x y) :
    Tracks (Renumbered r p) Eq (recorded n.id x) (recorded (n.renumber r.exprs).id y) := by
  refine h.bind_eq fun type => Tracks.bind_eq (tracks_modify fun t t' ht => ?_) fun _ =>
    tracks_pure rfl
  exact ⟨ht.types, ht.exprTypes.insert hr.exprs hn type, ht.references, ht.visible⟩

/-- The type of a pair of parentheses is written to a place of its own. -/
theorem tracks_recorded_paren {i : NodeId} (hi : ¬ p.IsKeptId i) {x y : Check TypeId}
    (h : Tracks (Renumbered r p) Eq x y) : Tracks (Renumbered r p) Eq (recorded i x) y := by
  intro t t' ht type u hu
  obtain ⟨type', u₁, hx, hu⟩ := bind_eq_ok.mp hu
  obtain ⟨rfl, rfl⟩ := EStateM.Result.ok.inj hu
  obtain ⟨_, u', hy, rfl, hu'⟩ := h t t' ht type' u₁ hx
  exact ⟨_, u', hy, rfl, hu'.types, hu'.exprTypes.insert_left hi type', hu'.references, hu'.visible⟩

theorem tracks_resolveType (e : TypeExpr) :
    Tracks (Renumbered r p) Eq (resolveType e) (resolveType e) := by
  refine tracks_get_bind fun t t' ht => ?_
  rw [ht.types]
  cases t.types.resolve e with
  | error err => exact tracks_throw _ _
  | ok result =>
    exact (tracks_modify fun _ _ h => h.withTypes result.2).bind_eq fun _ => tracks_pure rfl

theorem tracks_arrayOf (element : TypeId) :
    Tracks (Renumbered r p) Eq (arrayOf element) (arrayOf element) := by
  refine tracks_get_bind fun t t' ht => ?_
  rw [ht.types]
  exact Tracks.bind_eq (tracks_modify fun _ _ h => h.withTypes _) fun _ => tracks_pure rfl

theorem tracks_requireSubtype (actual expected : TypeId) (cause : Cause) {token token' : String} :
    Tracks (Renumbered r p) Eq (requireSubtype actual expected cause token span)
      (requireSubtype actual expected cause token' span') := by
  refine tracks_get_bind fun t t' ht => ?_
  rw [ht.types]
  exact tracks_require fun h => h

theorem tracks_requireValue (actual expected : TypeId) {token token' : String} :
    Tracks (Renumbered r p) Eq (requireValue actual expected token span)
      (requireValue actual expected token' span') := by
  refine tracks_get_bind fun t t' ht => ?_
  rw [ht.types]
  dsimp only
  split
  · exact tracks_pure rfl
  · exact tracks_throw _ _

/-! Scopes and names. -/

variable {env : MethodEnv} {scopes : ScopeTree}

theorem tracks_classScope (h : t.Renumbered r p t') (type : TypeId) :
    Tracks (Renumbered r p) Eq (classScope t type) (classScope t' type) := by
  unfold classScope
  rw [h.classScopes]
  cases t.classScopes.get? type with
  | none => exact tracks_get_bind fun _ _ _ => tracks_throw _ _
  | some id => exact tracks_pure rfl

theorem tracks_blockScope (h : t.Renumbered r p t') {node : NodeId} (hnode : p.IsStmtId node) :
    Tracks (Renumbered r p) Eq (blockScope t node) (blockScope t' (r.stmts node)) :=
  tracks_promised_eq (h.blockScopes node hnode)

theorem tracks_branchScope (h : t.Renumbered r p t') (scope : ScopeId) {body : Stmt}
    (hbody : body ∈ p.stmts) :
    Tracks (Renumbered r p) Eq (branchScope t scope body)
      (branchScope t' scope (body.withoutParens r)) := by
  unfold branchScope
  rw [Stmt.isDeclaration_withoutParens, Stmt.id_withoutParens]
  split
  · exact tracks_blockScope h ⟨body, hbody, rfl⟩
  · exact tracks_pure rfl

theorem tracks_checkName (hr : r.Faithful p) (hs : env.scopes.Renumbered r p scopes)
    (scope : ScopeId) {node : Node} (hnode : p.IsKeptId node.id) (name : String) :
    Tracks (Renumbered r p) Eq (checkName env scope node name)
      (checkName { env with scopes := scopes } scope (node.renumber r.exprs) name) := by
  refine tracks_get_bind fun t t' ht => ?_
  have hresolve : resolveName? { env with scopes := scopes } scope name t'.visible =
      resolveName? env scope name t.visible := by
    rw [resolveName?, resolveName?, hs.lookupVisible_eq, ht.visible]
  rw [hresolve]
  cases resolveName? env scope name t.visible with
  | none =>
    dsimp only
    split
    · exact tracks_throw _ _
    · exact tracks_throw _ _
  | some result =>
    refine Tracks.bind_eq (tracks_modify fun u u' hu => ?_) fun _ => tracks_pure rfl
    exact ⟨hu.types, hu.exprTypes, hu.references.insert hr.exprs hnode _, hu.visible⟩

theorem tracks_checkField (hs : env.scopes.Renumbered r p scopes) (owner : TypeId) (name : String) :
    Tracks (Renumbered r p) Eq (checkField env owner name span)
      (checkField { env with scopes := scopes } owner name span') := by
  refine tracks_get_bind fun t t' ht => ?_
  rw [ht.types]
  dsimp only
  split
  · refine (tracks_classScope hs owner).bind_eq fun scope => ?_
    rw [hs.lookupMember_eq]
    cases (env.scopes.lookupMember scope name).filter (·.kind = .field) with
    | none => exact tracks_throw _ _
    | some s => exact tracks_pure rfl
  · exact tracks_throw _ _

theorem tracks_findMethod (hs : env.scopes.Renumbered r p scopes) (scope : ScopeId)
    (name : Ident) :
    Tracks (Renumbered r p) Eq (findMethod env scope name)
      (findMethod { env with scopes := scopes } scope name) := by
  unfold findMethod
  rw [hs.lookupMember_eq]
  cases env.scopes.lookupMember scope name.name with
  | none => exact tracks_throw _ _
  | some s =>
    dsimp only
    cases s.kind.methodKind? with
    | none => exact tracks_throw _ _
    | some kind => exact tracks_pure rfl

theorem tracks_callSignature (method : Ident) (type : TypeId) (count : Nat) :
    Tracks (Renumbered r p) Eq (callSignature method type count span)
      (callSignature method type count span') := by
  refine tracks_get_bind fun t t' ht => ?_
  rw [ht.types]
  exact (tracks_promised_eq rfl).bind_eq fun signature =>
    (tracks_require fun h => h).bind_eq fun _ => tracks_pure rfl

theorem tracks_staticCallee (hs : env.scopes.Renumbered r p scopes) (className method : Ident) :
    Tracks (Renumbered r p) Eq (staticCallee env className method span)
      (staticCallee { env with scopes := scopes } className method span') := by
  refine tracks_get_bind fun t t' ht => ?_
  rw [ht.types]
  cases t.types.class? className.name with
  | none => exact tracks_throw _ _
  | some type =>
    refine (tracks_classScope hs type).bind_eq fun scope =>
      (tracks_findMethod hs scope method).bind_eq fun found => ?_
    exact (tracks_require fun h => h).bind_eq fun _ => tracks_pure rfl

theorem tracks_ownCallee (hs : env.scopes.Renumbered r p scopes) (method : Ident) :
    Tracks (Renumbered r p) Eq (ownCallee env method span)
      (ownCallee { env with scopes := scopes } method span') :=
  (tracks_findMethod hs env.classScope method).bind_eq fun _ =>
    (tracks_require fun h => h).bind_eq fun _ => tracks_pure rfl

theorem tracks_methodCallee (hs : env.scopes.Renumbered r p scopes) {receiver receiver' : Expr}
    (type : TypeId) (method : Ident) :
    Tracks (Renumbered r p) Eq (methodCallee env receiver type method span)
      (methodCallee { env with scopes := scopes } receiver' type method span') := by
  refine tracks_get_bind fun t t' ht => ?_
  rw [ht.types]
  refine (tracks_require fun h => h).bind_eq fun _ => (tracks_classScope hs type).bind_eq
    fun scope => (tracks_findMethod hs scope method).bind_eq fun found => ?_
  exact (tracks_require fun h => h).bind_eq fun _ => tracks_pure rfl

theorem tracks_checkBinary (op : BinaryOp) (left right : TypeId) :
    Tracks (Renumbered r p) Eq (checkBinary op left right span)
      (checkBinary op left right span') := by
  have hthen : ∀ {holds : Bool} {cause : Cause} {token : String} (type : TypeId),
      Tracks (Renumbered r p) Eq (do require holds cause token span; return type)
        (do require holds cause token span'; return type) := fun type =>
    (tracks_require fun h => h).bind_eq fun _ => tracks_pure rfl
  cases op with
  | arith a =>
    refine (tracks_require fun h => h).bind_eq fun _ => ?_
    split
    · exact hthen left
    · exact hthen TypeId.int
  | logic l => exact hthen TypeId.boolean
  | compare c =>
    unfold checkBinary
    dsimp only
    split
    · refine (tracks_require fun h => h).bind_eq fun _ => tracks_get_bind fun t t' ht => ?_
      rw [ht.types]
      exact hthen TypeId.boolean
    · exact hthen TypeId.boolean

theorem tracks_checkUnary (op : UnaryOp) (operand : TypeId) :
    Tracks (Renumbered r p) Eq (checkUnary op operand span)
      (checkUnary op operand span') := by
  cases op with
  | neg | not => exact (tracks_require fun h => h).bind_eq fun _ => tracks_pure rfl

/-! Expressions. -/

/-- The part of a call after the method is found. -/
theorem tracks_callArgs {method : Ident} {type : TypeId} {args : List Expr} {env' : MethodEnv}
    {scope : ScopeId} (h : ∀ params, Tracks (Renumbered r p) Eq (checkArgs env scope args params)
      (checkArgs env' scope (Expr.withoutParensOfList r args) params)) :
    Tracks (Renumbered r p) Eq
      (callSignature method type args.length span >>= fun signature =>
        checkArgs env scope args signature.params >>= fun _ => pure signature.result)
      (callSignature method type (Expr.withoutParensOfList r args).length span' >>= fun signature =>
        checkArgs env' scope (Expr.withoutParensOfList r args) signature.params >>= fun _ =>
          pure signature.result) := by
  rw [Expr.length_withoutParensOfList]
  exact (tracks_callSignature method type args.length).bind_eq fun signature =>
    (h signature.params).bind_eq fun _ => tracks_pure rfl

mutual

theorem tracks_checkExpr (hr : r.Faithful p) (hs : env.scopes.Renumbered r p scopes)
    (scope : ScopeId) (e : Expr) (he : e.nodes ⊆ p.exprs) :
    Tracks (Renumbered r p) Eq (checkExpr env scope e)
      (checkExpr { env with scopes := scopes } scope (e.withoutParens r)) := by
  have hmem : e ∈ p.exprs := he e.mem_nodes
  match e with
  | .literal .. => exact tracks_recorded hr ⟨_, hmem, rfl, rfl⟩ (tracks_pure rfl)
  | .var _ name =>
    have hkept : p.IsKeptId _ := ⟨_, hmem, rfl, rfl⟩
    exact tracks_recorded hr hkept (tracks_checkName hr hs scope hkept name.name)
  | .field _ object name =>
    have hobject := tracks_checkExpr hr hs scope object (List.subset_of_cons_subset he)
    exact tracks_recorded hr ⟨_, hmem, rfl, rfl⟩ (hobject.bind_eq fun owner =>
      tracks_checkField hs owner name.name)
  | .index _ array i =>
    obtain ⟨harray, hi⟩ := List.append_subset.mp (List.subset_of_cons_subset he)
    refine tracks_recorded hr ⟨_, hmem, rfl, rfl⟩ ((tracks_checkExpr hr hs scope array
      harray).bind_eq fun type => tracks_get_bind fun t t' ht => ?_)
    rw [ht.types]
    dsimp only
    cases t.types.element? type with
    | none => exact tracks_throw _ _
    | some element =>
      exact (tracks_checkExpr hr hs scope i hi).bind_eq fun _ =>
        (tracks_require fun h => h).bind_eq fun _ => tracks_pure rfl
  | .staticCall _ className method args =>
    refine tracks_recorded hr ⟨_, hmem, rfl, rfl⟩ ((tracks_staticCallee hs className method).bind_eq
      fun type => tracks_callArgs fun params => ?_)
    exact tracks_checkArgs hr hs scope args params (List.subset_of_cons_subset he)
  | .ownCall _ method args =>
    refine tracks_recorded hr ⟨_, hmem, rfl, rfl⟩ ((tracks_ownCallee hs method).bind_eq
      fun type => tracks_callArgs fun params => ?_)
    exact tracks_checkArgs hr hs scope args params (List.subset_of_cons_subset he)
  | .methodCall _ receiver method args =>
    obtain ⟨hreceiver, hargs⟩ := List.append_subset.mp (List.subset_of_cons_subset he)
    exact tracks_recorded hr ⟨_, hmem, rfl, rfl⟩ ((tracks_checkExpr hr hs scope receiver
      hreceiver).bind_eq fun object => (tracks_methodCallee hs object method).bind_eq fun type =>
        tracks_callArgs fun params => tracks_checkArgs hr hs scope args params hargs)
  | .this _ =>
    exact tracks_recorded hr ⟨_, hmem, rfl, rfl⟩
      ((tracks_require fun h => h).bind_eq fun _ => tracks_pure rfl)
  | .newObject _ className =>
    refine tracks_recorded hr ⟨_, hmem, rfl, rfl⟩ (tracks_get_bind fun t t' ht => ?_)
    rw [ht.types]
    cases t.types.class? className.name with
    | none => exact tracks_throw _ _
    | some type => exact tracks_pure rfl
  | .newArray _ element size =>
    have hsize := tracks_checkExpr hr hs scope size (List.subset_of_cons_subset he)
    refine tracks_recorded hr ⟨_, hmem, rfl, rfl⟩ ((tracks_resolveType element).bind_eq
      fun type => (tracks_require fun h => h).bind_eq fun _ => hsize.bind_eq fun _ => ?_)
    exact (tracks_require fun h => h).bind_eq fun _ => tracks_arrayOf type
  | .length _ array =>
    have harray := tracks_checkExpr hr hs scope array (List.subset_of_cons_subset he)
    refine tracks_recorded hr ⟨_, hmem, rfl, rfl⟩ (harray.bind_eq fun type =>
      tracks_get_bind fun t t' ht => ?_)
    rw [ht.types]
    exact (tracks_require fun h => h).bind_eq fun _ => tracks_pure rfl
  | .binary _ op left right =>
    obtain ⟨hleft, hright⟩ := List.append_subset.mp (List.subset_of_cons_subset he)
    exact tracks_recorded hr ⟨_, hmem, rfl, rfl⟩ ((tracks_checkExpr hr hs scope left
      hleft).bind_eq fun l => (tracks_checkExpr hr hs scope right hright).bind_eq fun r =>
        tracks_checkBinary op l r)
  | .unary _ op operand =>
    have hoperand := tracks_checkExpr hr hs scope operand (List.subset_of_cons_subset he)
    exact tracks_recorded hr ⟨_, hmem, rfl, rfl⟩ (hoperand.bind_eq fun type =>
      tracks_checkUnary op type)
  | .paren _ inner =>
    have hinner := tracks_checkExpr hr hs scope inner (List.subset_of_cons_subset he)
    exact tracks_recorded_paren (hr.parens _ hmem rfl) hinner

theorem tracks_checkArgs (hr : r.Faithful p) (hs : env.scopes.Renumbered r p scopes)
    (scope : ScopeId) (args : List Expr) (params : List TypeId)
    (hargs : Expr.nodesOfList args ⊆ p.exprs) :
    Tracks (Renumbered r p) Eq (checkArgs env scope args params)
      (checkArgs { env with scopes := scopes } scope (Expr.withoutParensOfList r args) params) := by
  match args, params with
  | [], _ => exact tracks_pure rfl
  | _ :: _, [] => exact tracks_pure rfl
  | arg :: args, param :: params =>
    obtain ⟨harg, hargs⟩ := List.append_subset.mp hargs
    refine (tracks_checkExpr hr hs scope arg harg).bind_eq fun actual =>
      (tracks_requireSubtype actual param .argumentType).bind_eq fun _ => ?_
    exact tracks_checkArgs hr hs scope args params hargs

end

/-! Statements. -/

theorem tracks_enterLocal (hs : env.scopes.Renumbered r p scopes) (scope : ScopeId)
    (name : String) :
    Tracks (Renumbered r p) Eq (enterLocal env scope name)
      (enterLocal { env with scopes := scopes } scope name) := by
  unfold enterLocal
  rw [hs.scope_eq]
  cases (env.scopes.scope scope).get? name with
  | none => exact tracks_throw _ _
  | some s =>
    dsimp only
    cases s.kind with
    | localVar ordinal =>
      refine Tracks.bind_eq (tracks_modify fun t t' ht => ?_) fun _ => tracks_pure rfl
      exact ht.withVisible (by rw [ht.visible])
    | _ => exact tracks_throw _ _

theorem tracks_checkCondition (hr : r.Faithful p) (hs : env.scopes.Renumbered r p scopes)
    (scope : ScopeId) {condition : Expr} (hc : condition.nodes ⊆ p.exprs) (cause : Cause) :
    Tracks (Renumbered r p) Eq (checkCondition env scope condition cause)
      (checkCondition { env with scopes := scopes } scope (condition.withoutParens r) cause) :=
  (tracks_checkExpr hr hs scope condition hc).bind_eq fun type =>
    tracks_requireSubtype type TypeId.boolean cause

mutual

theorem tracks_checkStmt (hr : r.Faithful p) (hs : env.scopes.Renumbered r p scopes)
    (inLoop : Bool) (scope : ScopeId) (s : Stmt) (hnodes : s.nodes ⊆ p.stmts)
    (hexprs : s.exprs ⊆ p.exprs) :
    Tracks (Renumbered r p) Eq (checkStmt env inLoop scope s)
      (checkStmt { env with scopes := scopes } inLoop scope (s.withoutParens r)) := by
  match s with
  | .assign _ target value =>
    obtain ⟨htarget, hvalue⟩ := List.append_subset.mp hexprs
    -- what is assigned to stands in no parentheses, or there would be no first run
    refine (tracks_require (Expr.isLocation_withoutParens r)).bind_eq fun _ => ?_
    exact (tracks_checkExpr hr hs scope target htarget).bind_eq fun expected =>
      (tracks_checkExpr hr hs scope value hvalue).bind_eq fun actual =>
        tracks_requireValue actual expected
  | .call _ e =>
    refine (tracks_require (Expr.isCall_withoutParens r)).bind_eq fun _ => ?_
    exact (tracks_checkExpr hr hs scope e hexprs).bind_eq fun _ => tracks_pure rfl
  | .ret _ none =>
    exact (tracks_pure rfl).bind_eq fun actual => tracks_requireValue actual env.returnType
  | .ret _ (some e) =>
    exact (tracks_checkExpr hr hs scope e hexprs).bind_eq fun actual =>
      tracks_requireValue actual env.returnType
  | .ifThen _ condition body =>
    have hbody := List.subset_of_cons_subset hnodes
    obtain ⟨hcondition, hexprs⟩ := List.append_subset.mp hexprs
    exact (tracks_checkCondition hr hs scope hcondition .ifCondition).bind_eq fun _ =>
      (tracks_branchScope hs scope (hbody body.mem_nodes)).bind_eq fun inner =>
        tracks_checkStmt hr hs inLoop inner body hbody hexprs
  | .ifElse _ condition thenBranch elseBranch =>
    obtain ⟨hthen, helse⟩ := List.append_subset.mp (List.subset_of_cons_subset hnodes)
    obtain ⟨hfirst, hsecond⟩ := List.append_subset.mp hexprs
    obtain ⟨hcondition, hfirst⟩ := List.append_subset.mp hfirst
    refine (tracks_checkCondition hr hs scope hcondition .ifCondition).bind_eq fun _ =>
      (tracks_branchScope hs scope (hthen thenBranch.mem_nodes)).bind_eq fun inner => ?_
    refine (tracks_checkStmt hr hs inLoop inner thenBranch hthen hfirst).bind_eq fun _ => ?_
    refine (tracks_branchScope hs scope (helse elseBranch.mem_nodes)).bind_eq fun inner => ?_
    exact tracks_checkStmt hr hs inLoop inner elseBranch helse hsecond
  | .loop _ condition body =>
    have hbody := List.subset_of_cons_subset hnodes
    obtain ⟨hcondition, hexprs⟩ := List.append_subset.mp hexprs
    exact (tracks_checkCondition hr hs scope hcondition .whileCondition).bind_eq fun _ =>
      (tracks_branchScope hs scope (hbody body.mem_nodes)).bind_eq fun inner =>
        tracks_checkStmt hr hs true inner body hbody hexprs
  | .breakLoop _ | .continueLoop _ => exact tracks_require fun h => h
  | .block _ stmts =>
    refine (tracks_blockScope hs ⟨_, hnodes List.mem_cons_self, rfl⟩).bind_eq fun inner => ?_
    exact tracks_checkStmts hr hs inLoop inner stmts (List.subset_of_cons_subset hnodes) hexprs
  | .declare _ _ name none =>
    exact (tracks_enterLocal hs scope name.name).bind_eq fun _ => tracks_pure rfl
  | .declare _ _ name (some e) =>
    refine (tracks_enterLocal hs scope name.name).bind_eq fun expected => ?_
    exact (tracks_checkExpr hr hs scope e hexprs).bind_eq fun actual =>
      tracks_requireValue actual expected

theorem tracks_checkStmts (hr : r.Faithful p) (hs : env.scopes.Renumbered r p scopes)
    (inLoop : Bool) (scope : ScopeId) (ss : List Stmt) (hnodes : Stmt.nodesOfList ss ⊆ p.stmts)
    (hexprs : Stmt.exprsOfList ss ⊆ p.exprs) :
    Tracks (Renumbered r p) Eq (checkStmts env inLoop scope ss)
      (checkStmts { env with scopes := scopes } inLoop scope (Stmt.withoutParensOfList r ss)) := by
  match ss with
  | [] => exact tracks_pure rfl
  | s :: ss =>
    obtain ⟨hnode, hnodes⟩ := List.append_subset.mp hnodes
    obtain ⟨hfirst, hrest⟩ := List.append_subset.mp hexprs
    refine (tracks_checkStmt hr hs inLoop scope s hnode hfirst).bind_eq fun _ => ?_
    exact tracks_checkStmts hr hs inLoop scope ss hnodes hrest

end

theorem tracks_checkMethod (hr : r.Faithful p) (hs : t.Renumbered r p t') (c : ClassDecl)
    {m : MethodDecl} (hm : m ∈ p.methods) :
    Tracks (Renumbered r p) Eq (checkMethod t c m)
      (checkMethod t' (c.withoutParens r) (m.withoutParens r)) := by
  refine tracks_get_bind fun u u' hu => ?_
  rw [hu.types]
  refine (tracks_promised_eq rfl).bind_eq fun type => (tracks_classScope hs type).bind_eq
    fun owner => ?_
  refine (tracks_promised_eq (hs.methodScopes m.id ⟨m, hm, rfl⟩)).bind_eq fun scope => ?_
  refine (tracks_resolveType m.returnType).bind_eq fun returnType => ?_
  refine Tracks.bind_eq (tracks_modify fun _ _ h => h.withVisible rfl) fun _ => ?_
  exact tracks_checkStmts hr hs false scope m.body
    (fun x hx => List.mem_flatMap.mpr ⟨m, hm, hx⟩) fun x hx => List.mem_flatMap.mpr ⟨m, hm, hx⟩

end

theorem tracks_checkClasses {r : Renumbering} {p : Program} (hr : r.Faithful p)
    {t t' : ScopeTree} (hs : t.Renumbered r p t') :
    Tracks (Renumbered r p) Eq (p.classes.forM (checkClass t))
      ((p.withoutParens r).classes.forM (checkClass t')) := by
  refine tracks_forM_map _ fun c hc => ?_
  unfold checkClass
  rw [ClassDecl.bodies_withoutParens]
  refine tracks_forM_map _ fun m hm => tracks_checkMethod hr hs c ?_
  exact List.mem_flatMap.mpr ⟨c, hc, (List.mem_filter.mp hm).1⟩

end Typing

/-! ## Analysed programs -/

namespace Context

open Pass

/-- What the analysis has found out in the two runs. -/
structure Renumbered (r : Renumbering) (p : Program) (c c' : Context) : Prop where
  types : c'.types = c.types
  scopes : c.scopes.Renumbered r p c'.scopes
  declarations : ∀ type,
    c'.declarations.get? type = (c.declarations.get? type).map (·.withoutParens r)
  declared : ∀ type k, c.declarations.get? type = some k → k ∈ p.classes
  isEntry : ∀ m ∈ p.methods, c'.isEntry (m.withoutParens r) = c.isEntry m
  references : c.references.Renumbered p.IsKeptId r.exprs c'.references
  /-- Parentheses have the type of what they hold. -/
  exprTypes : ∀ e ∈ Lexical.bodyExprs p.methods,
    c'.exprTypes.get? (e.withoutParens r).id = c.exprTypes.get? e.id
  layouts : c'.layouts = c.layouts

end Context

section

open Pass Definition Typing

variable {r : Renumbering} {p : Program} {options : Options}

theorem renumbered_initial (r : Renumbering) (p : Program) (options : Options) :
    Definition.Renumbered r p (Context.initial options).definition
      (Context.initial options).definition where
  types := rfl
  scopes := ⟨rfl, rfl, fun _ _ => rfl, fun _ _ => rfl⟩
  declarations _ := rfl
  declared type k hk := by cases hk
  entries := rfl
  entered := by simp [Context.definition]
  nextOrdinal := rfl

theorem ScopeTree.Renumbered.build_eq {t t' : ScopeTree} (h : t.Renumbered r p t')
    (types : TypeTable) : LayoutTable.build types t' = LayoutTable.build types t := by
  have hadd : LayoutTable.addClass types t' = LayoutTable.addClass types t := by
    funext table k
    rw [LayoutTable.addClass, LayoutTable.addClass, h.classScopes, h.scope_eq]
  rw [LayoutTable.build, LayoutTable.build, hadd]

theorem Context.Accepts.exists_hasType {c : Context} (h : c.Accepts p) {e : Expr}
    (he : e ∈ Lexical.bodyExprs p.methods) : ∃ env type, HasType c.typing env e type := by
  obtain ⟨m, hm, he⟩ := List.mem_flatMap.mp he
  obtain ⟨hm, hkind⟩ := List.mem_filter.mp hm
  obtain ⟨k, hk, hm⟩ := List.mem_flatMap.mp hm
  obtain ⟨i, hi⟩ := List.getElem?_of_mem hk
  obtain ⟨_, _, _, _, _, _, hbody⟩ := h.typed i k hi m hm (by simpa using hkind)
  obtain ⟨type, htype⟩ := hbody.exists_hasType he
  exact ⟨_, type, htype⟩

theorem isKeptId_of_mem {e : Expr} (he : e ∈ Lexical.bodyExprs p.methods)
    (hkept : e.isParen = false) : p.IsKeptId e.id := by
  obtain ⟨m, hm, he⟩ := List.mem_flatMap.mp he
  exact ⟨e, List.mem_flatMap.mpr ⟨m, (List.mem_filter.mp hm).1, he⟩, hkept, rfl⟩

theorem nodes_subset_bodyExprs {ms : List MethodDecl} {e : Expr} (he : e ∈ Lexical.bodyExprs ms) :
    e.nodes ⊆ Lexical.bodyExprs ms := by
  obtain ⟨m, hm, he⟩ := List.mem_flatMap.mp he
  intro x hx
  exact List.mem_flatMap.mpr ⟨m, hm, Stmt.nodes_subset_of_mem_exprsOfList he hx⟩

/-- What is left of an expression has its type. -/
theorem get?_withoutParens {c c' : Context} (h : c.Accepts p)
    (htypes : c.exprTypes.Renumbered p.IsKeptId r.exprs c'.exprTypes) (e : Expr)
    (he : e ∈ Lexical.bodyExprs p.methods) :
    c'.exprTypes.get? (e.withoutParens r).id = c.exprTypes.get? e.id := by
  match e with
  | .paren n inner =>
    obtain ⟨env, type, htype⟩ := h.exists_hasType he
    cases htype with
    | paren hinner hrecords =>
      have hmem := nodes_subset_bodyExprs he (List.mem_cons_of_mem _ inner.mem_nodes)
      have hself : c.exprTypes.get? (Expr.paren n inner).id = some type := hrecords
      rw [hself, ← hinner.recorded]
      exact get?_withoutParens h htypes inner hmem
  | .literal .. | .var .. | .field .. | .index .. | .staticCall .. | .ownCall .. | .methodCall ..
  | .this _ | .newObject .. | .newArray .. | .length .. | .binary .. | .unary .. =>
    exact htypes _ (isKeptId_of_mem he rfl)

/-- What the definition stage leaves. -/
def Context.defined (options : Options) (entry : Entry) (d : Definition) : Context :=
  { (Context.initial options).withDefinition d with entry := some entry }

/-- The stages of the analysis, each with what it is given and what it finds. -/
structure Stages (options : Options) (p : Program) (entry : Entry) (d : Definition) (t : Typing)
    (layouts : LayoutTable) : Prop where
  define : defineProgram options.entryMethod p (Context.initial options).definition = .ok entry d
  check : checkProgram p (Context.defined options entry d).typing = .ok () t
  layOut : LayoutTable.build t.types d.scopes = .ok layouts

/-- What the stages find, taken together. -/
def Context.found (options : Options) (entry : Entry) (d : Definition) (t : Typing)
    (layouts : LayoutTable) : Context :=
  ⟨options, t.types, d.scopes, d.declarations, some entry, t.exprTypes, t.references, layouts⟩

theorem exists_stages {c : Context} (h : analyzed options p = .ok c) :
    ∃ entry d t layouts, Stages options p entry d t layouts ∧
      c = .found options entry d t layouts := by
  obtain ⟨c₁, c₂, hdefine, hcheck, hlayOut⟩ := exists_stages_of_analyzed h
  obtain ⟨entry, d, hd, rfl⟩ := define_eq_ok_iff.mp hdefine
  obtain ⟨t, ht, rfl⟩ := check_eq_ok_iff.mp hcheck
  obtain ⟨layouts, hbuild, rfl⟩ := layOut_eq_ok_iff.mp hlayOut
  exact ⟨entry, d, t, layouts, ⟨hd, ht, hbuild⟩, rfl⟩

theorem analyzed_of_stages {entry : Entry} {d : Definition} {t : Typing} {layouts : LayoutTable}
    (h : Stages options p entry d t layouts) :
    analyzed options p = .ok (.found options entry d t layouts) := by
  have hdefine : Context.define p (.initial options) = .ok () (.defined options entry d) :=
    define_eq_ok_iff.mpr ⟨entry, d, h.define, rfl⟩
  have hcheck : Context.check p (.defined options entry d) =
      .ok () (.found options entry d t .empty) :=
    check_eq_ok_iff.mpr ⟨t, h.check, rfl⟩
  have hlayOut : Context.layOut (.found options entry d t .empty) =
      .ok () (.found options entry d t layouts) :=
    layOut_eq_ok_iff.mpr ⟨layouts, h.layOut, rfl⟩
  have hanalyze : Context.analyze p (.initial options) =
      .ok () (.found options entry d t layouts) :=
    bind_eq_ok.mpr ⟨(), _, hdefine, bind_eq_ok.mpr ⟨(), _, hcheck, hlayOut⟩⟩
  rw [analyzed, hanalyze]

/-- The analysis of the program without parentheses ends with the like. -/
theorem exists_analyzed_withoutParens (hp : p.DistinctNodes)
    (hq : (p.withoutParens r).DistinctNodes) {c : Context} (h : analyzed options p = .ok c) :
    ∃ c', analyzed options (p.withoutParens r) = .ok c' ∧ c.Renumbered r p c' := by
  have hr := Renumbering.faithful hp hq
  have haccepts := accepts_of_analyzed hp h
  obtain ⟨entry, d, t, layouts, hstages, rfl⟩ := exists_stages h
  obtain ⟨_, d', hd', ⟨rfl, hentry⟩, hdefined⟩ := tracks_defineProgram hr options.entryMethod _ _
    (renumbered_initial r p options) entry d hstages.define
  have hstart (entry') : Typing.Renumbered r p (Context.defined options entry d).typing
      (Context.defined options entry' d').typing :=
    ⟨hdefined.types, fun _ _ => rfl, fun _ _ => rfl, rfl⟩
  obtain ⟨_, t', ht', rfl, htyped⟩ := tracks_checkClasses hr hdefined.scopes _ _ (hstart _) () t
    hstages.check
  have hlayOut : LayoutTable.build t'.types d'.scopes = .ok layouts := by
    rw [htyped.types, hdefined.scopes.build_eq]
    exact hstages.layOut
  refine ⟨_, analyzed_of_stages ⟨hd', ht', hlayOut⟩, htyped.types, hdefined.scopes,
    hdefined.declarations, hdefined.declared, fun m hm => ?_, htyped.references,
    fun e he => ?_, rfl⟩
  · -- methods that have different numbers keep them different
    refine decide_eq_decide.mpr ⟨fun heq => ?_, fun heq => congrArg r.methods heq⟩
    exact hr.methods _ _ ⟨entry.method, hentry, rfl⟩ ⟨m, hm, rfl⟩ heq
  · exact get?_withoutParens haccepts htyped.exprTypes e he

end

end IcLir
