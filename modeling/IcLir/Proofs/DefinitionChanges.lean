import IcLir.Definition
import IcLir.Proofs.ScopeNesting
import IcLir.Tree.Traversal

/-
  What the definition stage changes, and where its errors point. Whether it ends or stops, the
  scopes that it leaves are those that it found after some edits. If it ends, it has resolved the
  types that are written in the declarations (`ClassDecl.readTypes`), and has entered no array of
  void beside them. If it stops, the token of the error is written in the part of the program that
  the stage was looking at (`PointsInto`), the entering of classes apart.
-/

namespace IcLir

def Stmt.declaredType? : Stmt → Option TypeExpr
  | .declare _ type _ _ => some type
  | _ => none

/-- The types in the head of a method. -/
def MethodDecl.headTypes (m : MethodDecl) : List TypeExpr := m.returnType :: m.params.map (·.type)

/-- A name or a type as it is written in a program. -/
inductive Writing where
  | ident (name : Ident)
  | type (e : TypeExpr)
deriving DecidableEq

namespace Writing

def text : Writing → String
  | .ident name => name.name
  | .type e => e.text

def span : Writing → Span
  | .ident name => name.span
  | .type e => e.span

end Writing

/-- What is written in the node itself, not in its parts. -/
def Expr.writings : Expr → List Writing
  | .var _ name | .field _ _ name => [.ident name]
  | .staticCall _ className method _ => [.ident className, .ident method]
  | .ownCall _ method _ | .methodCall _ _ method _ => [.ident method]
  | .newObject _ className => [.ident className]
  | .newArray _ element _ => [.type element]
  | .literal .. | .index .. | .this _ | .length .. | .binary .. | .unary .. | .paren .. => []

def Stmt.writings : Stmt → List Writing
  | .declare _ type name _ => [.type type, .ident name]
  | _ => []

def VarDecl.writings (v : VarDecl) : List Writing := [.type v.type, .ident v.name]

def MethodDecl.writings (m : MethodDecl) : List Writing :=
  .type m.returnType :: .ident m.name :: m.params.flatMap VarDecl.writings ++
    (Stmt.nodesOfList m.body).flatMap Stmt.writings ++
    (Stmt.exprsOfList m.body).flatMap Expr.writings

def ClassDecl.writings (c : ClassDecl) : List Writing :=
  .ident c.name :: c.superclass.toList.map .ident ++ c.fields.flatMap VarDecl.writings ++
    c.methods.flatMap MethodDecl.writings

/-- All names and types that are written in a program. -/
def Program.writings (p : Program) : List Writing := p.classes.flatMap ClassDecl.writings

/-- The token of the rejection is written where it points. -/
def Rejection.PointsInto (ws : List Writing) (r : Rejection) : Prop :=
  ∃ w ∈ ws, w.text = r.token ∧ w.span = r.span

instance (ws : List Writing) (r : Rejection) : Decidable (r.PointsInto ws) :=
  inferInstanceAs (Decidable (∃ w ∈ ws, _))

def CompileError.PointsInto (ws : List Writing) (e : CompileError) : Prop :=
  ∃ r, e = .rejected r ∧ r.PointsInto ws

namespace TypeTable

/-- `t'` is `t` after the types `written` were resolved in this order, with classes and other
    types but `void[]` entered in between. -/
inductive Reads : TypeTable → List TypeExpr → TypeTable → Prop where
  | nil {t : TypeTable} : Reads t [] t
  | resolve {t u t' : TypeTable} {e : TypeExpr} {id : TypeId} {written : List TypeExpr} :
    t.resolve e = .ok (id, u) → Reads u written t' → Reads t (e :: written) t'
  | intern {t t' : TypeTable} {k : TypeKind} {written : List TypeExpr} :
    k ≠ .array TypeId.void → Reads (t.intern k).2 written t' → Reads t written t'
  | addClass {t u t' : TypeTable} {name : String} {superclass : Option String} {id : TypeId}
      {written : List TypeExpr} :
    t.addClass name superclass = .ok (id, u) → Reads u written t' → Reads t written t'

theorem Reads.append {t u t' : TypeTable} {written more : List TypeExpr} (h : t.Reads written u)
    (h' : u.Reads more t') : t.Reads (written ++ more) t' := by
  induction h with
  | nil => exact h'
  | resolve hr _ ih => exact .resolve hr (ih h')
  | intern hk _ ih => exact .intern hk (ih h')
  | addClass ha _ ih => exact .addClass ha (ih h')

end TypeTable

namespace Definition

open CompileError (PointsInto)
open Pass (require reject promised bind_eq_ok bind_eq_error)

/-- However `x` ends, the scopes are those of `d` after some edits; if it returns a result, the
    types `written` have been read and `post` holds; if it fails, the error is `allowed`. -/
def Changes {α : Type} (allowed : CompileError → Prop) (written : List TypeExpr) (x : Define α)
    (d : Definition) (post : α → Definition → Prop) : Prop :=
  match x d with
  | .ok a d' => d.scopes.Builds d'.scopes ∧ d.types.Reads written d'.types ∧ post a d'
  | .error e d' => d.scopes.Builds d'.scopes ∧ allowed e

section

variable {α β : Type} {d : Definition} {post : α → Definition → Prop} {written more : List TypeExpr}
  {allowed allowed' : CompileError → Prop} {ws : List Writing}

theorem changes_pure {a : α} (h : post a d) : Changes allowed [] (pure a) d post :=
  ⟨.refl, .nil, h⟩

theorem changes_throw {e : CompileError} (h : allowed e) :
    Changes allowed written (throw e : Define α) d post := ⟨.refl, h⟩

namespace Changes

variable {x : Define α} {d' : Definition} {f : α → Define β} {post' : β → Definition → Prop}

theorem of_ok (h : Changes allowed written x d post) {a : α} (hx : x d = .ok a d') :
    d.scopes.Builds d'.scopes ∧ d.types.Reads written d'.types ∧ post a d' := by
  unfold Changes at h
  rw [hx] at h
  exact h

theorem of_error (h : Changes allowed written x d post) {e : CompileError}
    (hx : x d = .error e d') : d.scopes.Builds d'.scopes ∧ allowed e := by
  unfold Changes at h
  rw [hx] at h
  exact h

theorem allow (h : Changes allowed written x d post) (hall : ∀ e, allowed e → allowed' e) :
    Changes allowed' written x d post := by
  unfold Changes at h ⊢
  split at h
  · exact h
  · exact ⟨h.1, hall _ h.2⟩

theorem bind (hx : Changes allowed written x d post)
    (hf : ∀ a d', d.scopes.Builds d'.scopes → post a d' → Changes allowed more (f a) d' post') :
    Changes allowed (written ++ more) (x >>= f) d post' := by
  unfold Changes
  cases hr : (x >>= f) d with
  | ok b d'' =>
    obtain ⟨a, d', ha, hb⟩ := bind_eq_ok.mp hr
    obtain ⟨hd', hreads, hpost⟩ := hx.of_ok ha
    obtain ⟨hd'', hreads', hpost'⟩ := (hf a d' hd' hpost).of_ok hb
    exact ⟨hd'.trans hd'', hreads.append hreads', hpost'⟩
  | error e d'' =>
    rcases bind_eq_error.mp hr with herror | ⟨a, d', ha, herror⟩
    · exact hx.of_error herror
    · obtain ⟨hd', _, hpost⟩ := hx.of_ok ha
      obtain ⟨hd'', hallowed⟩ := (hf a d' hd' hpost).of_error herror
      exact ⟨hd'.trans hd'', hallowed⟩

/-- Nothing is read after `x`. -/
theorem bind_last (hx : Changes allowed written x d post)
    (hf : ∀ a d', d.scopes.Builds d'.scopes → post a d' → Changes allowed [] (f a) d' post') :
    Changes allowed written (x >>= f) d post' := by
  have h := hx.bind hf
  rwa [List.append_nil] at h

end Changes

theorem changes_get {f : Definition → Define α} (h : Changes allowed written (f d) d post) :
    Changes allowed written (get >>= f) d post := h

theorem changes_modify {f : Definition → Definition} (h : d.scopes.Builds (f d).scopes)
    (h' : d.types.Reads written (f d).types) :
    Changes allowed written (modify f) d fun _ _ => True := ⟨h, h', trivial⟩

theorem changes_reject {name : Ident} (h : .ident name ∈ ws) (cause : Cause) :
    Changes (PointsInto ws) written (reject cause name.name name.span : Define α) d post :=
  changes_throw ⟨_, rfl, _, h, rfl, rfl⟩

theorem changes_require {holds : Bool} {cause : Cause} {name : Ident} (h : .ident name ∈ ws) :
    Changes (PointsInto ws) [] (require holds cause name.name name.span) d fun _ _ => True := by
  cases holds with
  | false => exact changes_reject h cause
  | true => exact changes_pure trivial

theorem changes_forM {f : α → Define PUnit} {w : α → List TypeExpr} (l : List α)
    (h : ∀ a ∈ l, ∀ d', d.scopes.Builds d'.scopes →
      Changes allowed (w a) (f a) d' fun _ _ => True) :
    Changes allowed (l.flatMap w) (l.forM f) d fun _ _ => True := by
  induction l generalizing d with
  | nil => exact changes_pure trivial
  | cons a l ih =>
    refine (h a List.mem_cons_self d .refl).bind fun _ d' hd' _ => ih fun b hb d'' hd'' => ?_
    exact h b (List.mem_cons_of_mem a hb) d'' (hd'.trans hd'')

theorem changes_mapM {f : α → Define β} {w : α → List TypeExpr} (l : List α)
    (h : ∀ a ∈ l, ∀ d', Changes allowed (w a) (f a) d' fun _ _ => True) :
    Changes allowed (l.flatMap w) (l.mapM f) d fun _ _ => True := by
  induction l generalizing d with
  | nil => exact changes_pure trivial
  | cons a l ih =>
    rw [List.mapM_cons]
    refine (h a List.mem_cons_self d).bind fun b d₁ _ _ => ?_
    exact (ih fun b hb => h b (List.mem_cons_of_mem a hb)).bind_last fun bs d₂ _ _ =>
      changes_pure trivial

end

/-! ### Single steps -/

section

variable {d : Definition} {scope : ScopeId} {ws : List Writing} {allowed : CompileError → Prop}

/-- The error names the whole type. -/
theorem changes_resolveType {e : TypeExpr} (h : .type e ∈ ws) :
    Changes (PointsInto ws) [e] (resolveType e) d fun _ _ => True := by
  refine changes_get ?_
  cases hr : d.types.resolve e with
  | ok result =>
    have hmodify : Changes (PointsInto ws) [e] (modify ({ · with types := result.2 })) d
        fun _ _ => True := changes_modify .refl (.resolve hr .nil)
    exact hmodify.bind fun _ _ _ _ => changes_pure trivial
  | error err =>
    have htoken : err.token = e.text := by
      unfold TypeTable.resolve at hr
      cases hbase : d.types.base? e.base with
      | some id => rw [hbase] at hr; cases hr
      | none => rw [hbase] at hr; cases hr; rfl
    exact changes_throw ⟨_, rfl, _, h, htoken.symm, rfl⟩

theorem changes_insertSymbol (hscope : scope < d.scopes.size) {name : Ident} (h : .ident name ∈ ws)
    (kind : SymbolKind) (type : TypeId) :
    Changes (PointsInto ws) [] (insertSymbol scope name kind type) d fun _ _ => True := by
  refine changes_get ?_
  cases hinsert : d.scopes.insert scope name.name kind type name.span with
  | ok scopes => exact changes_modify (.single (.declare hscope hinsert)) .nil
  | error err =>
    have htoken : err.token = name.name := by
      unfold ScopeTree.insert at hinsert
      split at hinsert
      · cases hinsert; rfl
      · cases hinsert
    exact changes_throw ⟨_, rfl, _, h, htoken.symm, rfl⟩

theorem changes_openScope {add : ScopeTree → ScopeId × ScopeTree}
    (hedit : ScopeTree.Edit d.scopes (add d.scopes).2)
    (hid : (add d.scopes).1 < (add d.scopes).2.size) :
    Changes allowed [] (openScope add) d fun id d' => id < d'.scopes.size :=
  ⟨.single hedit, .nil, hid⟩

/-- Whatever is done to the types only. -/
theorem changes_set {d' : Definition} {written : List TypeExpr} (h : d'.scopes = d.scopes)
    (h' : d.types.Reads written d'.types) : Changes allowed written (set d') d fun _ _ => True := by
  refine ⟨?_, h', trivial⟩
  rw [h]
  exact .refl

theorem changes_openBlock (hscope : scope < d.scopes.size) (node : NodeId) :
    Changes allowed [] (openScope (·.addBlockScope scope node)) d
      fun id d' => id < d'.scopes.size :=
  changes_openScope (.openBlock node hscope)
    (Nat.lt_of_lt_of_eq (Nat.lt_succ_self _) (ScopeTree.size_addScope ..).symm)

theorem changes_branchScope (hscope : scope < d.scopes.size) (body : Stmt) :
    Changes allowed [] (branchScope scope body) d fun id d' => id < d'.scopes.size := by
  unfold branchScope
  split
  · exact changes_openBlock hscope body.id
  · exact changes_pure hscope

/-! ### Methods -/

mutual

theorem changes_defineStmt (scope : ScopeId) (s : Stmt) (d : Definition)
    (hscope : scope < d.scopes.size) (hws : s.nodes.flatMap Stmt.writings ⊆ ws) :
    Changes (PointsInto ws) (s.nodes.filterMap Stmt.declaredType?) (defineStmt scope s) d
      fun _ _ => True := by
  match s with
  | .declare _ type name _ =>
    rw [defineStmt]
    refine (changes_resolveType (hws (.head _))).bind fun id d₁ hd₁ _ => changes_get ?_
    exact (changes_insertSymbol (Nat.lt_of_lt_of_le hscope hd₁.size_le) (hws (.tail _ (.head _)))
      _ id).bind fun _ d₂ _ _ => changes_modify .refl .nil
  | .block node stmts =>
    rw [defineStmt]
    exact (changes_openBlock hscope node.id).bind fun inner d₁ _ hinner =>
      changes_defineStmts inner stmts d₁ hinner hws
  | .ifThen _ _ body | .loop _ _ body =>
    rw [defineStmt]
    exact (changes_branchScope hscope body).bind fun inner d₁ _ hinner =>
      changes_defineStmt inner body d₁ hinner hws
  | .ifElse _ _ thenBranch elseBranch =>
    rw [Stmt.nodes, List.flatMap_cons, List.flatMap_append] at hws
    obtain ⟨hthen, helse⟩ := List.append_subset.mp (List.append_subset.mp hws).2
    rw [defineStmt, Stmt.nodes, List.filterMap_cons_none rfl, List.filterMap_append]
    refine (changes_branchScope hscope thenBranch).bind fun inner d₁ hd₁ hinner => ?_
    refine (changes_defineStmt inner thenBranch d₁ hinner hthen).bind fun _ d₂ hd₂ _ => ?_
    have hscope₂ := Nat.lt_of_lt_of_le hscope (hd₁.trans hd₂).size_le
    exact (changes_branchScope hscope₂ elseBranch).bind fun inner' d₃ _ hinner' =>
      changes_defineStmt inner' elseBranch d₃ hinner' helse
  | .assign .. | .call .. | .ret .. | .breakLoop _ | .continueLoop _ =>
    rw [defineStmt]
    exact changes_pure trivial

theorem changes_defineStmts (scope : ScopeId) (ss : List Stmt) (d : Definition)
    (hscope : scope < d.scopes.size) (hws : (Stmt.nodesOfList ss).flatMap Stmt.writings ⊆ ws) :
    Changes (PointsInto ws) ((Stmt.nodesOfList ss).filterMap Stmt.declaredType?)
      (defineStmts scope ss) d fun _ _ => True := by
  match ss with
  | [] =>
    rw [defineStmts]
    exact changes_pure trivial
  | s :: ss =>
    rw [Stmt.nodesOfList, List.flatMap_append] at hws
    obtain ⟨hs, hss⟩ := List.append_subset.mp hws
    rw [defineStmts, Stmt.nodesOfList, List.filterMap_append]
    exact (changes_defineStmt scope s d hscope hs).bind fun _ d₁ hd₁ _ =>
      changes_defineStmts scope ss d₁ (Nat.lt_of_lt_of_le hscope hd₁.size_le) hss

end

theorem changes_defineParam (hscope : scope < d.scopes.size) {p : VarDecl} (hws : p.writings ⊆ ws) :
    Changes (PointsInto ws) [p.type] (defineParam scope p) d fun _ _ => True :=
  (changes_resolveType (hws (.head _))).bind fun type _ hd₁ _ =>
    changes_insertSymbol (Nat.lt_of_lt_of_le hscope hd₁.size_le) (hws (.tail _ (.head _)))
      .parameter type

variable {m : MethodDecl}

theorem writings_subset_of_mem_params (hws : m.writings ⊆ ws) {p : VarDecl} (hp : p ∈ m.params) :
    p.writings ⊆ ws := by
  refine fun w hw => hws ?_
  simp only [MethodDecl.writings, List.mem_append, List.mem_cons, List.mem_flatMap]
  exact .inl (.inl (.inr (.inr ⟨p, hp, hw⟩)))

theorem changes_defineMethod (hscope : scope < d.scopes.size) (hws : m.writings ⊆ ws) :
    Changes (PointsInto ws)
      (m.headTypes ++ (Stmt.nodesOfList m.body).filterMap Stmt.declaredType?)
      (defineMethod scope m) d fun _ _ => True := by
  unfold defineMethod
  rw [MethodDecl.headTypes, List.cons_append, List.map_eq_flatMap]
  refine (changes_resolveType (hws (.head _))).bind fun result d₁ hd₁ _ => ?_
  have hopen : Changes (PointsInto ws) []
      (openScope (·.addMethodScope scope m.id m.name.name m.isStatic result)) d₁
      fun id d' => id < d'.scopes.size :=
    changes_openScope (.openMethod m.id _ m.isStatic result
      (Nat.lt_of_lt_of_le hscope hd₁.size_le))
      (Nat.lt_of_lt_of_eq (Nat.lt_succ_self _) (ScopeTree.size_addScope ..).symm)
  refine hopen.bind fun inner d₂ _ hinner => ?_
  refine (changes_forM m.params fun p hp d₃ hd₃ => changes_defineParam
    (Nat.lt_of_lt_of_le hinner hd₃.size_le) (writings_subset_of_mem_params hws hp)).bind
    fun _ d₃ hd₃ _ => ?_
  have hmodify : Changes (PointsInto ws) [] (modify ({ · with nextOrdinal := 0 })) d₃
      fun _ _ => True := changes_modify .refl .nil
  refine hmodify.bind fun _ d₄ hd₄ _ => changes_defineStmts inner m.body d₄
    (Nat.lt_of_lt_of_le hinner (hd₃.trans hd₄).size_le) fun w hw => hws ?_
  exact List.mem_append_left _ (List.mem_append_right _ hw)

/-! ### Classes -/

/-- The place of an error is not looked at here. -/
theorem changes_registerClass (hglobal : 0 < d.scopes.size) (c : ClassDecl) :
    Changes (fun _ => True) [] (registerClass c) d fun _ _ => True := by
  refine changes_get ?_
  dsimp only
  split
  · next id types hadd =>
    have hmodify : Changes (fun _ => True) [] (modify fun s : Definition =>
        { s with types := types, declarations := s.declarations.insert id c }) d
        fun _ _ => True := changes_modify .refl (.addClass hadd .nil)
    exact hmodify.bind fun _ d₁ hd₁ _ => (changes_insertSymbol
      (Nat.lt_of_lt_of_le hglobal hd₁.size_le) (List.mem_singleton_self _) .className id).allow
      fun _ _ => trivial
  · exact changes_throw trivial

theorem changes_declareField (hscope : scope < d.scopes.size) {f : VarDecl}
    (hws : f.writings ⊆ ws) :
    Changes (PointsInto ws) [f.type] (declareField scope f) d fun _ _ => True := by
  have hname : .ident f.name ∈ ws := hws (.tail _ (.head _))
  refine (changes_resolveType (hws (.head _))).bind fun type d₁ hd₁ _ => changes_get ?_
  exact (changes_require hname).bind fun _ d₂ hd₂ _ => changes_insertSymbol
    (Nat.lt_of_lt_of_le hscope (hd₁.trans hd₂).size_le) hname .field type

theorem changes_checkOverride (h : .ident m.name ∈ ws) (signature : TypeId) (known : Symbol) :
    Changes (PointsInto ws) [] (checkOverride scope m signature known) d fun _ _ => True := by
  refine changes_get ((changes_require h).bind fun _ d₁ _ _ => ?_)
  split
  · exact changes_reject h _
  · exact (changes_require h).bind fun _ d₂ _ _ => (changes_require h).bind fun _ d₃ _ _ =>
      changes_require h

theorem changes_methodSignature (hws : m.writings ⊆ ws) :
    Changes (PointsInto ws) m.headTypes (methodSignature m) d fun _ _ => True := by
  rw [MethodDecl.headTypes, List.map_eq_flatMap]
  refine (changes_resolveType (hws (.head _))).bind fun result d₁ _ _ => ?_
  refine (changes_mapM m.params fun p hp _ => changes_resolveType
    (writings_subset_of_mem_params hws hp (.head _))).bind_last fun params d₂ _ _ => changes_get ?_
  refine Changes.bind_last (changes_set ?_ (.intern ?_ .nil)) fun _ d₃ _ _ =>
    changes_pure trivial
  · rfl
  · simp

/-- The argument of the entry method is an array of strings. -/
theorem changes_noteEntry (entryMethod : String) (owner : TypeId) (m : MethodDecl)
    (signature : TypeId) :
    Changes allowed [] (noteEntry entryMethod owner m signature) d fun _ _ => True := by
  unfold noteEntry
  split
  · exact changes_get (changes_set rfl (.intern (by decide) .nil))
  · exact changes_pure trivial

theorem changes_declareMethod (entryMethod : String) (owner : TypeId)
    (hscope : scope < d.scopes.size) (hws : m.writings ⊆ ws) :
    Changes (PointsInto ws) m.headTypes (declareMethod entryMethod owner scope m) d
      fun _ _ => True := by
  have hname : .ident m.name ∈ ws := hws (.tail _ (.head _))
  unfold declareMethod
  refine (changes_methodSignature hws).bind_last fun signature d₁ hd₁ _ => changes_get ?_
  have hinsert (d₂ : Definition) (hd₂ : d₁.scopes.Builds d₂.scopes) :
      Changes (PointsInto ws) [] (do
        insertSymbol scope m.name (.method m.kind) signature
        noteEntry entryMethod owner m signature) d₂ fun _ _ => True :=
    (changes_insertSymbol (Nat.lt_of_lt_of_le hscope (hd₁.trans hd₂).size_le) hname _
      signature).bind fun _ d₃ _ _ => changes_noteEntry entryMethod owner m signature
  cases d₁.scopes.lookupMember scope m.name.name with
  | none => exact hinsert d₁ .refl
  | some known =>
    exact (changes_checkOverride hname signature known).bind fun _ d₂ hd₂ _ => hinsert d₂ hd₂

end

end Definition

/-- The types that the definition of a class reads. The head of a method is read twice, when the
    method is declared and when its scopes are built. -/
def ClassDecl.readTypes (c : ClassDecl) : List TypeExpr :=
  c.fields.map (·.type) ++ (c.methods.flatMap MethodDecl.headTypes ++
    c.methods.flatMap fun m =>
      m.headTypes ++ (Stmt.nodesOfList m.body).filterMap Stmt.declaredType?)

namespace Definition

open CompileError (PointsInto)
open Pass (promised)

variable {d : Definition}

/-- Errors point into the class, if it has been entered. -/
theorem changes_defineClass (entryMethod : String) (c : ClassDecl) :
    Changes (fun e => e.PointsInto c.writings ∨ d.types.class? c.name.name = none) c.readTypes
      (defineClass entryMethod c) d fun _ _ => True := by
  unfold defineClass
  rw [ClassDecl.readTypes, List.map_eq_flatMap]
  refine changes_get ?_
  have hpromised : Changes
      (fun e => e.PointsInto c.writings ∨ d.types.class? c.name.name = none) []
      (promised (d.types.class? c.name.name) (.unregisteredClass c.name.name)) d
      fun _ _ => True := by
    cases hclass : d.types.class? c.name.name with
    | none => exact changes_throw (Or.inr rfl)
    | some type => exact changes_pure trivial
  refine hpromised.bind fun type d₁ _ _ => ?_
  have hopen : Changes (PointsInto c.writings) []
      (openScope (·.addClassScope type c.name.name (d.types.superclass? type))) d₁
      fun id d' => id < d'.scopes.size :=
    changes_openScope (.openClass type _ _)
      (Nat.lt_of_lt_of_eq (Nat.lt_succ_self _) (ScopeTree.size_addScope ..).symm)
  refine (hopen.bind fun scope d₂ _ hscope => ?_).allow fun e he => Or.inl he
  refine (changes_forM c.fields fun f hf d₃ hd₃ => changes_declareField
    (Nat.lt_of_lt_of_le hscope hd₃.size_le) fun w hw => ?_).bind fun _ d₃ hd₃ _ => ?_
  · exact List.mem_append_left _ (List.mem_append_right _ (List.mem_flatMap.mpr ⟨f, hf, hw⟩))
  have hmethod : ∀ m ∈ c.methods, m.writings ⊆ c.writings := fun m hm w hw =>
    List.mem_append_right _ (List.mem_flatMap.mpr ⟨m, hm, hw⟩)
  have hscope₃ := Nat.lt_of_lt_of_le hscope hd₃.size_le
  refine (changes_forM c.methods fun m hm d₄ hd₄ => changes_declareMethod entryMethod type
    (Nat.lt_of_lt_of_le hscope₃ hd₄.size_le) (hmethod m hm)).bind fun _ d₄ hd₄ _ => ?_
  have hscope₄ := Nat.lt_of_lt_of_le hscope₃ hd₄.size_le
  exact changes_forM c.methods fun m hm d₅ hd₅ =>
    changes_defineMethod (Nat.lt_of_lt_of_le hscope₄ hd₅.size_le) (hmethod m hm)

theorem changes_defineProgram (hglobal : 0 < d.scopes.size) (entryMethod : String) (p : Program) :
    Changes (fun _ => True) (p.classes.flatMap ClassDecl.readTypes) (defineProgram entryMethod p) d
      fun _ _ => True := by
  unfold defineProgram
  have hregister : Changes (fun _ => True) [] (p.classes.forM registerClass) d
      fun _ _ => True := by
    have h := changes_forM p.classes fun c _ d₁ (hd₁ : d.scopes.Builds d₁.scopes) =>
      changes_registerClass (Nat.lt_of_lt_of_le hglobal hd₁.size_le) c
    rwa [List.flatMap_eq_nil_iff.mpr fun _ _ => rfl] at h
  refine hregister.bind fun _ d₁ _ _ => ?_
  refine (changes_forM p.classes fun c _ _ _ => (changes_defineClass entryMethod c).allow
    fun _ _ => trivial).bind_last fun _ d₂ _ _ => changes_get ?_
  split
  · exact changes_throw trivial
  · exact changes_pure trivial
  · exact changes_throw trivial

end Definition

/-! ## Every tree of the stage -/

namespace Context

/-- What the definition stage leaves of a context, whether it ends or stops at an error. -/
def afterDefine (c : Context) (p : Program) : Context :=
  match c.define p with
  | .ok _ c' => c'
  | .error _ c' => c'

theorem builds_afterDefine {c : Context} (hglobal : 0 < c.scopes.size) (p : Program) :
    c.scopes.Builds (c.afterDefine p).scopes := by
  have hchanges := Definition.changes_defineProgram (d := c.definition) hglobal
    c.options.entryMethod p
  unfold afterDefine define
  cases hrun : Definition.defineProgram c.options.entryMethod p c.definition with
  | ok entry d => exact (hchanges.of_ok hrun).1
  | error e d => exact (hchanges.of_error hrun).1

/-- Each program is defined on top of what those before it left. -/
theorem nested_foldl_afterDefine (options : Options) (ps : List Program) :
    (ps.foldl afterDefine (initial options)).scopes.Nested := by
  suffices ∀ c : Context, c.scopes.Nested → (ps.foldl afterDefine c).scopes.Nested from
    this _ .initial
  induction ps with
  | nil => exact fun c hc => hc
  | cons p ps ih => exact fun c hc => ih _ (hc.builds (builds_afterDefine hc.nonempty p))

end Context

end IcLir
