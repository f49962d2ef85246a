import IcLir.Proofs.Decides
import IcLir.Proofs.MethodScopes
import IcLir.Proofs.WrittenTypes

/-
  When the scopes of a method can be built. A type is required to be known, a name to be new in
  its scope; `decides_defineStmt` carries these two through the statements of a body, where a
  scope is known by the list of its names. The other scopes are left alone, so what is inside a
  block or a branch never counts for the statements around it.
-/

namespace IcLir

namespace Definition

open Pass TypeTable

/-- The names declared in a scope, in order. -/
def names (d : Definition) (scope : ScopeId) : List String := (d.scopes.scope scope).symbols.keys

theorem nodup_names (d : Definition) (scope : ScopeId) : (d.names scope).Nodup :=
  (d.scopes.scope scope).symbols.nodup_keys

theorem get?_eq_none_iff {d : Definition} {scope : ScopeId} {name : String} :
    (d.scopes.scope scope).get? name = none ↔ name ∉ d.names scope :=
  OrderedMap.get?_eq_none_iff ..

/-- What all work on one class keeps. -/
structure Kept (k : ScopeId) (d d' : Definition) : Prop extends Step k d d' where
  sound : Sound d'
  entries : d'.entries = d.entries

namespace Kept

variable {k k' : ScopeId} {d d' d'' : Definition}

theorem refl (k : ScopeId) (hsound : Sound d) : Kept k d d := ⟨.refl k d, hsound, rfl⟩

theorem trans (h : Kept k d d') (h' : Kept k d' d'') : Kept k d d'' :=
  ⟨h.toStep.trans h'.toStep, h'.sound, h'.entries.trans h.entries⟩

theorem mono (h : Kept k d d') (hk : k' ≤ k) : Kept k' d d' :=
  ⟨h.toStep.mono hk, h.sound, h.entries⟩

theorem names_eq (h : Kept k d d') {scope : ScopeId} (hscope : scope < k) :
    d'.names scope = d.names scope := by
  unfold names
  rw [h.below scope hscope]

end Kept

/-! ## Single steps -/

section Steps

variable {classes : List ClassDecl} {d : Definition}

theorem decides_resolveType (h : ClassTable classes d.types) (e : TypeExpr) :
    Decides (e.base.IsKnown (classes.map (·.name.name))) (resolveType e) d fun id d' =>
      ∃ types, d.types.Extends types ∧ types.denoted? e = some id ∧
        d' = { d with types := types } := by
  rw [← h.isSome_base?_iff]
  unfold resolveType
  rw [decides_get]
  cases hb : d.types.base? e.base with
  | none =>
    have hr : d.types.resolve e = .error (.undefinedType e.text) := by rw [resolve, hb]
    rw [hr]
    exact ⟨Bool.false_ne_true, _, rfl⟩
  | some base =>
    have hr : d.types.resolve e = .ok (d.types.nest base e.dims) := by rw [resolve, hb]
    rw [hr]
    exact ⟨rfl, _, extends_resolve hr, denoted?_of_resolve hr, rfl⟩

theorem decides_insertSymbol (d : Definition) (scope : ScopeId) (name : Ident) (kind : SymbolKind)
    (type : TypeId) :
    Decides (name.name ∉ d.names scope) (insertSymbol scope name kind type) d fun _ d' =>
      ∃ scopes, d.scopes.insert scope name.name kind type name.span = .ok scopes ∧
        d' = { d with scopes := scopes } := by
  rw [← get?_eq_none_iff]
  unfold insertSymbol
  rw [decides_get]
  unfold ScopeTree.insert
  cases hs : (d.scopes.scope scope).get? name.name with
  | some s => exact ⟨Option.some_ne_none s, _, rfl⟩
  | none => exact ⟨rfl, _, rfl, rfl⟩

theorem names_insert {scope : ScopeId} {name : String} {kind : SymbolKind} {type : TypeId}
    {span : Span} {scopes : ScopeTree}
    (hi : d.scopes.insert scope name kind type span = .ok scopes) (hscope : scope < d.scopes.size) :
    ({ d with scopes := scopes } : Definition).names scope = d.names scope ++ [name] := by
  have hnew : name ∉ d.names scope := get?_eq_none_iff.mp (ScopeTree.get?_eq_none_of_insert hi)
  change (scopes.scope scope).symbols.keys = _
  rw [ScopeTree.scope_insert_self hi hscope]
  exact (OrderedMap.keys_insert ..).trans (if_neg hnew)

/-- Declaring a variable after its type is resolved: its name has to be new. -/
theorem decides_insertVariable (hsound : Sound d) {types : TypeTable}
    (hext : d.types.Extends types) {scope : ScopeId} (hscope : scope < d.scopes.size) (name : Ident)
    {kind : SymbolKind} (hkind : (d.scopes.scope scope).kind.Admits kind)
    (hvar : kind.isVariable = true) (type : TypeId) {k : ScopeId} (hk : k ≤ scope) :
    Decides (name.name ∉ d.names scope) (insertSymbol scope name kind type)
      { d with types := types } fun _ d' =>
        Kept k d d' ∧ d'.names scope = d.names scope ++ [name.name] := by
  refine (decides_insertSymbol { d with types := types } scope name kind type).mono ?_
  intro _ d' _ hd'
  obtain ⟨scopes, hi, rfl⟩ := hd'
  have hstep := (step_withTypes hext k).trans (step_insert hi hscope hk)
  have hnot : ∀ m, kind ≠ .method m := by
    intro m hm
    rw [hm] at hvar
    simp [SymbolKind.isVariable] at hvar
  refine ⟨⟨hstep, ?_, rfl⟩, names_insert hi hscope⟩
  exact (hsound.withTypes _).insert hi hscope hkind

end Steps

/-! ## Statements -/

section Body

variable (classes : List ClassDecl)

variable {d : Definition} {scope k : ScopeId}

/-- The rules for the nodes of a statement. -/
def Proper (nodes : List Stmt) : Prop := ∀ s ∈ nodes, s.IsProper (classes.map (·.name.name))

/-- The rules for a statement in a scope that has the names `used` already. -/
def StmtFits (used : List String) (s : Stmt) : Prop :=
  Proper classes s.nodes ∧ ∀ name, s.declaredName? = some name → name ∉ used

def StmtsFit (used : List String) (ss : List Stmt) : Prop :=
  Proper classes (Stmt.nodesOfList ss) ∧ (used ++ Stmt.localNames ss).Nodup

variable {classes}

theorem proper_append {l l' : List Stmt} :
    Proper classes (l ++ l') ↔ Proper classes l ∧ Proper classes l' := by
  unfold Proper
  constructor
  · intro h
    exact ⟨fun s hs => h s (List.mem_append_left _ hs),
      fun s hs => h s (List.mem_append_right _ hs)⟩
  · intro h s hs
    rcases List.mem_append.mp hs with hs | hs
    · exact h.1 s hs
    · exact h.2 s hs

theorem proper_cons {s : Stmt} {l : List Stmt} :
    Proper classes (s :: l) ↔ s.IsProper (classes.map (·.name.name)) ∧ Proper classes l := by
  simp [Proper]

theorem localNames_cons (s : Stmt) (ss : List Stmt) :
    Stmt.localNames (s :: ss) = s.declaredName?.toList ++ Stmt.localNames ss := by
  unfold Stmt.localNames
  rw [List.filterMap_cons]
  cases s.declaredName? <;> rfl

theorem stmtsFit_cons {used : List String} (s : Stmt) (ss : List Stmt) :
    StmtsFit classes used (s :: ss) ↔
      StmtFits classes used s ∧ StmtsFit classes (used ++ s.declaredName?.toList) ss := by
  have hnodes : Stmt.nodesOfList (s :: ss) = s.nodes ++ Stmt.nodesOfList ss := by
    rw [Stmt.nodesOfList]
  unfold StmtsFit StmtFits
  rw [hnodes, proper_append, localNames_cons, ← List.append_assoc]
  constructor
  · intro h
    refine ⟨⟨h.1.1, ?_⟩, h.1.2, h.2⟩
    intro name hname hused
    have hnodup := (List.nodup_append.mp h.2).1
    rw [hname] at hnodup
    exact (List.nodup_append.mp hnodup).2.2 name hused name (by simp) rfl
  · intro h
    exact ⟨⟨h.1.1, h.2.1⟩, h.2.2⟩

/-- The state after some statements of `scope` that declare the names `declared`. -/
def Passed (k scope : ScopeId) (declared : List String) (d d' : Definition) : Prop :=
  Kept k d d' ∧ d'.names scope = d.names scope ++ declared

theorem Passed.trans {declared more : List String} {d' d'' : Definition}
    (h : Passed k scope declared d d') (h' : Passed k scope more d' d'') :
    Passed k scope (declared ++ more) d d'' :=
  ⟨h.1.trans h'.1, by rw [h'.2, h.2, List.append_assoc]⟩

theorem passed_refl (k scope : ScopeId) (hsound : Sound d) :
    Passed k scope [] d d := ⟨.refl k hsound, (List.append_nil _).symm⟩

/-- Opening the scope of a block, which has no names yet. -/
theorem decides_openBlock (hsound : Sound d) (hscope : scope < d.scopes.size) (node : NodeId) :
    Decides True (openScope (·.addBlockScope scope node)) d fun inner d' =>
      inner = d.scopes.size ∧ Kept d.scopes.size d d' ∧ HoldsLocals d' inner ∧
        d'.names inner = [] := by
  obtain ⟨hstep, hsound', _, hholds⟩ :=
    openBlock_spec hsound (Nat.le_refl _) hscope node rfl
  refine ⟨trivial, rfl, ⟨hstep.toStep, hsound', hstep.entries⟩, hholds, ?_⟩
  have hself := ScopeTree.scope_addScope_self d.scopes scope .block
    ("statement block in " ++ (d.scopes.scope scope).name)
  exact congrArg (fun s : Scope => s.symbols.keys) hself

/-- A branch that is a declaration has a scope to itself. -/
theorem decides_branch (htable : ClassTable classes d.types) (hsound : Sound d) (hk : k ≤ scope)
    (hscope : HoldsLocals d scope) {body : Stmt}
    (ih : ∀ (k scope : ScopeId) (d : Definition), ClassTable classes d.types → Sound d →
      k ≤ scope → HoldsLocals d scope →
      Decides (StmtFits classes (d.names scope) body) (defineStmt scope body) d fun _ d' =>
        Passed k scope body.declaredName?.toList d d') :
    Decides (Proper classes body.nodes)
      (branchScope scope body >>= fun inner => defineStmt inner body) d fun _ d' =>
        Passed k scope [] d d' := by
  unfold branchScope
  by_cases hd : body.isDeclaration = true
  · rw [if_pos hd]
    refine (decides_openBlock hsound hscope.1 body.id).bind_of_true fun inner d₁ hd₁ => ?_
    obtain ⟨rfl, hkept, hholds, hempty⟩ := hd₁
    have hinner := ih d.scopes.size d.scopes.size d₁ (htable.extend hkept.types) hkept.sound
      (Nat.le_refl _) hholds
    refine (hinner.congr ?_).mono ?_
    · rw [hempty]
      exact ⟨fun h => h.1, fun h => ⟨h, by simp⟩⟩
    · intro _ d₂ _ hd₂
      have hboth := hkept.trans hd₂.1
      exact ⟨hboth.mono (Nat.le_trans hk (Nat.le_of_lt hscope.1)),
        by rw [hboth.names_eq hscope.1, List.append_nil]⟩
  · have hnone : body.declaredName? = none := by
      cases body <;> first | rfl | exact absurd rfl hd
    rw [if_neg hd]
    refine (ih k scope d htable hsound hk hscope).congr ?_ |>.mono ?_
    · rw [StmtFits, hnone]
      exact ⟨fun h => h.1, fun h => ⟨h, by simp⟩⟩
    · intro _ d' _ hd'
      rw [hnone] at hd'
      exact hd'

/-- The statements of a block are walked over in its scope. -/
theorem decides_block (htable : ClassTable classes d.types) (hsound : Sound d) (hk : k ≤ scope)
    (hscope : HoldsLocals d scope) (node : NodeId) {stmts : List Stmt}
    (ih : ∀ (k scope : ScopeId) (d : Definition), ClassTable classes d.types → Sound d →
      k ≤ scope → HoldsLocals d scope →
      Decides (StmtsFit classes (d.names scope) stmts) (defineStmts scope stmts) d fun _ d' =>
        Passed k scope (Stmt.localNames stmts) d d') :
    Decides (StmtsFit classes [] stmts)
      (openScope (·.addBlockScope scope node) >>= fun inner => defineStmts inner stmts) d
      fun _ d' => Passed k scope [] d d' := by
  refine (decides_openBlock hsound hscope.1 node).bind_of_true fun inner d₁ hd₁ => ?_
  obtain ⟨rfl, hkept, hholds, hempty⟩ := hd₁
  have hinner := ih d.scopes.size d.scopes.size d₁ (htable.extend hkept.types) hkept.sound
    (Nat.le_refl _) hholds
  rw [hempty] at hinner
  refine hinner.mono ?_
  intro _ d₂ _ hd₂
  have hboth := hkept.trans hd₂.1
  exact ⟨hboth.mono (Nat.le_trans hk (Nat.le_of_lt hscope.1)),
    by rw [hboth.names_eq hscope.1, List.append_nil]⟩

/-- A statement that declares nothing itself is judged by its parts. -/
theorem stmtFits_of_none {s : Stmt} {parts : List Stmt} (hnodes : s.nodes = s :: parts)
    (hnone : s.declaredName? = none) (hproper : s.IsProper (classes.map (·.name.name)))
    (used : List String) : Proper classes parts ↔ StmtFits classes used s := by
  rw [StmtFits, hnodes, hnone, proper_cons]
  exact ⟨fun h => ⟨⟨hproper, h⟩, by simp⟩, fun h => h.1.2⟩

mutual

theorem decides_defineStmt :
    ∀ (s : Stmt) (k scope : ScopeId) (d : Definition), ClassTable classes d.types → Sound d →
      k ≤ scope → HoldsLocals d scope →
      Decides (StmtFits classes (d.names scope) s) (defineStmt scope s) d fun _ d' =>
        Passed k scope s.declaredName?.toList d d'
  | .declare node type name init, k, scope, d, htable, hsound, hk, hscope => by
    rw [defineStmt]
    have hcond : StmtFits classes (d.names scope) (.declare node type name init) ↔
        type.base.IsKnown (classes.map (·.name.name)) ∧ name.name ∉ d.names scope := by
      simp [StmtFits, Proper, Stmt.nodes, Stmt.IsProper, Stmt.declaredName?]
    rw [hcond]
    refine (decides_resolveType htable type).bind fun id d₁ _ hd₁ => ?_
    obtain ⟨types, hext, _, rfl⟩ := hd₁
    rw [decides_get]
    have hinsert := decides_insertVariable hsound hext hscope.1 name (hscope.2 d.nextOrdinal) rfl
      id hk
    refine (hinsert.bind fun _ d₂ _ hd₂ => ?_).congr (and_iff_left trivial)
    obtain ⟨hkept, hnames⟩ := hd₂
    exact ⟨trivial, ⟨⟨⟨hkept.types, hkept.scopes, hkept.below, hkept.declarations⟩,
      hkept.classScopes⟩, ⟨hkept.sound.ordered, hkept.sound.symbols⟩, hkept.entries⟩, hnames⟩
  | .block node stmts, k, scope, d, htable, hsound, hk, hscope => by
    rw [defineStmt]
    refine (decides_block htable hsound hk hscope node.id (decides_defineStmts stmts)).congr ?_
    have hnodes : (Stmt.block node stmts).nodes = .block node stmts :: Stmt.nodesOfList stmts := by
      rw [Stmt.nodes]
    rw [StmtFits, hnodes, proper_cons, StmtsFit, List.nil_append]
    exact ⟨fun h => ⟨⟨h.2, h.1⟩, by simp [Stmt.declaredName?]⟩, fun h => ⟨h.1.2, h.1.1⟩⟩
  | .ifThen node condition body, k, scope, d, htable, hsound, hk, hscope => by
    rw [defineStmt]
    refine (decides_branch htable hsound hk hscope (decides_defineStmt body)).congr ?_
    exact stmtFits_of_none (s := .ifThen node condition body) (by rw [Stmt.nodes]) rfl trivial _
  | .ifElse node condition thenBranch elseBranch, k, scope, d, htable, hsound, hk, hscope => by
    rw [defineStmt, ← bind_assoc]
    have hthen := decides_branch htable hsound hk hscope (decides_defineStmt thenBranch)
    have helse : ∀ d₁, Passed k scope [] d d₁ → Decides (Proper classes elseBranch.nodes)
        (branchScope scope elseBranch >>= fun inner => defineStmt inner elseBranch) d₁
        fun _ d₂ => Passed k scope [] d d₂ := by
      intro d₁ hd₁
      refine (decides_branch (htable.extend hd₁.1.types) hd₁.1.sound hk
        (hscope.step hd₁.1.toGrows) (decides_defineStmt elseBranch)).mono ?_
      intro _ d₂ _ hd₂
      exact hd₁.trans hd₂
    refine (hthen.bind fun _ d₁ _ hd₁ => helse d₁ hd₁).congr ?_
    rw [← proper_append]
    exact stmtFits_of_none (s := .ifElse node condition thenBranch elseBranch)
      (by rw [Stmt.nodes]) rfl trivial _
  | .loop node condition body, k, scope, d, htable, hsound, hk, hscope => by
    rw [defineStmt]
    refine (decides_branch htable hsound hk hscope (decides_defineStmt body)).congr ?_
    exact stmtFits_of_none (s := .loop node condition body) (by rw [Stmt.nodes]) rfl trivial _
  | .assign .., k, scope, d, _, hsound, _, _ | .call .., k, scope, d, _, hsound, _, _
  | .ret .., k, scope, d, _, hsound, _, _ | .breakLoop _, k, scope, d, _, hsound, _, _
  | .continueLoop _, k, scope, d, _, hsound, _, _ => by
    rw [defineStmt]
    refine (decides_pure (passed_refl k scope hsound)).congr ?_
    simp [StmtFits, Proper, Stmt.nodes, Stmt.IsProper, Stmt.declaredName?]

theorem decides_defineStmts :
    ∀ (ss : List Stmt) (k scope : ScopeId) (d : Definition), ClassTable classes d.types → Sound d →
      k ≤ scope → HoldsLocals d scope →
      Decides (StmtsFit classes (d.names scope) ss) (defineStmts scope ss) d fun _ d' =>
        Passed k scope (Stmt.localNames ss) d d'
  | [], k, scope, d, _, hsound, _, _ => by
    rw [defineStmts]
    refine (decides_pure (passed_refl k scope hsound)).congr ?_
    simp [StmtsFit, Proper, Stmt.nodesOfList, Stmt.localNames, nodup_names]
  | s :: ss, k, scope, d, htable, hsound, hk, hscope => by
    rw [defineStmts, stmtsFit_cons]
    refine (decides_defineStmt s k scope d htable hsound hk hscope).bind fun _ d₁ _ hd₁ => ?_
    obtain ⟨hkept, hnames⟩ := hd₁
    have hrest := decides_defineStmts ss k scope d₁ (htable.extend hkept.types) hkept.sound hk
      (hscope.step hkept.toGrows)
    rw [hnames] at hrest
    refine hrest.mono ?_
    intro _ d₂ _ hd₂
    refine ⟨hkept.trans hd₂.1, ?_⟩
    rw [hd₂.2, hnames, localNames_cons, List.append_assoc]

end

end Body

/-! ## Methods -/

section Method

variable {classes : List ClassDecl} {d : Definition}

variable {k scope owner : ScopeId}

theorem names_eq_nil (h : ∀ name, (d.scopes.scope scope).get? name = none) : d.names scope = [] :=
  List.eq_nil_iff_forall_not_mem.mpr fun name => get?_eq_none_iff.mp (h name)

theorem decides_openScope (add : ScopeTree → ScopeId × ScopeTree) :
    Decides True (openScope add) d fun _ _ => True := ⟨trivial, trivial⟩

theorem decides_defineParams (htable : ClassTable classes d.types) (hsound : Sound d)
    (hscope : scope < d.scopes.size) (hkind : (d.scopes.scope scope).kind.Admits .parameter)
    (hempty : d.names scope = []) (hk : k ≤ scope) (params : List VarDecl) :
    Decides ((∀ q ∈ params, q.type.base.IsKnown (classes.map (·.name.name))) ∧
        (params.map (·.name.name)).Nodup)
      (params.forM (defineParam scope)) d fun _ d' =>
        Kept k d d' ∧ d'.names scope = params.map (·.name.name) := by
  refine Decides.congr (decides_forM
    (fun done d' => Kept k d d' ∧ d'.names scope = done.map (·.name.name))
    (fun done q => q.type.base.IsKnown (classes.map (·.name.name)) ∧
      q.name.name ∉ done.map (·.name.name)) params ?_ ⟨.refl k hsound, hempty⟩)
    (by rw [eachAfter_and, eachAfter_iff_forall, eachAfter_not_mem])
  · intro done q rest _ d₁ h₁
    obtain ⟨hkept, hnames⟩ := h₁
    have hscope₁ : scope < d₁.scopes.size := Nat.lt_of_lt_of_le hscope hkept.scopes.size_le
    have hkind₁ : (d₁.scopes.scope scope).kind.Admits .parameter := by
      rw [hkept.scopes.kind scope hscope]
      exact hkind
    unfold defineParam
    refine (decides_resolveType (htable.extend hkept.types) q.type).bind fun id d₂ _ hd₂ => ?_
    obtain ⟨types, hext, _, rfl⟩ := hd₂
    rw [← hnames]
    refine (decides_insertVariable hkept.sound hext hscope₁ q.name hkind₁ rfl id hk).mono ?_
    intro _ d₃ _ hd₃
    exact ⟨hkept.trans hd₃.1, by rw [hd₃.2, hnames, List.map_append]; rfl⟩

theorem wellScoped_iff {m : MethodDecl} :
    m.WellScoped (classes.map (·.name.name)) ↔
      m.returnType.base.IsKnown (classes.map (·.name.name)) ∧
        ((∀ q ∈ m.params, q.type.base.IsKnown (classes.map (·.name.name))) ∧
          m.paramNames.Nodup) ∧
        StmtsFit classes m.paramNames m.body := by
  constructor
  · intro h
    exact ⟨h.result, ⟨h.params, (List.nodup_append.mp h.names).1⟩, h.body, h.names⟩
  · intro h
    exact ⟨h.1, h.2.1.1, h.2.2.2, h.2.2.1⟩

theorem decides_defineMethod (htable : ClassTable classes d.types) (hsound : Sound d)
    (howner : owner < d.scopes.size) (hk : k ≤ d.scopes.size) (m : MethodDecl) :
    Decides (m.WellScoped (classes.map (·.name.name))) (defineMethod owner m) d
      fun _ d' => Kept k d d' := by
  rw [wellScoped_iff]
  unfold defineMethod
  refine (decides_resolveType htable m.returnType).bind fun result d₁ _ hd₁ => ?_
  obtain ⟨types, hext, _, rfl⟩ := hd₁
  have hopen : Meets CompileError.IsRejection
      (openScope (·.addMethodScope owner m.id m.name.name m.isStatic result))
      { d with types := types } fun scope d₂ => scope = d.scopes.size ∧
        MethodOpened owner m result { d with types := types } d₂ :=
    meets_openMethod (hsound.withTypes types) howner m result fun d₂ hd₂ => ⟨rfl, hd₂⟩
  refine ((decides_openScope _).and_meets hopen).bind_of_true fun scope d₂ hd₂ => ?_
  obtain ⟨_, rfl, hopened⟩ := hd₂
  have hkept₂ : Kept k d d₂ :=
    ⟨(step_withTypes hext k).trans (hopened.toStep.mono hk), hopened.sound, hopened.entries⟩
  refine (decides_defineParams (htable.extend hkept₂.types) hopened.sound hopened.lt
    (by rw [hopened.kind]; rfl) (names_eq_nil (hopened.empty _ (Nat.le_refl _))) hk m.params).bind
    fun _ d₃ _ hd₃ => ?_
  obtain ⟨hkept₃, hnames⟩ := hd₃
  rw [decides_modify]
  have hkept : Kept k d { d₃ with nextOrdinal := 0 } := by
    obtain ⟨⟨⟨ht, hs, hb, hd⟩, hc⟩, hsound', he⟩ := hkept₂.trans hkept₃
    exact ⟨⟨⟨ht, hs, hb, hd⟩, hc⟩, ⟨hsound'.ordered, hsound'.symbols⟩, he⟩
  have hholds : HoldsLocals { d₃ with nextOrdinal := 0 } d.scopes.size := by
    refine ⟨Nat.lt_of_lt_of_le hopened.lt hkept₃.scopes.size_le, fun n => ?_⟩
    have hkind := hkept₃.scopes.kind d.scopes.size hopened.lt
    change ((d₃.scopes.scope d.scopes.size).kind).Admits _
    rw [hkind, hopened.kind]
    rfl
  have hbody := decides_defineStmts m.body k d.scopes.size _ (htable.extend hkept.types)
    hkept.sound hk hholds
  have hnames' : ({ d₃ with nextOrdinal := 0 } : Definition).names d.scopes.size =
      m.paramNames := hnames
  rw [hnames'] at hbody
  refine hbody.mono ?_
  intro _ d₄ _ hd₄
  exact hkept.trans hd₄.1

/-- All methods of a class. -/
theorem decides_defineMethods (htable : ClassTable classes d.types) (hsound : Sound d)
    (howner : owner < d.scopes.size) (hk : k ≤ d.scopes.size) (ms : List MethodDecl) :
    Decides (∀ m ∈ ms, m.WellScoped (classes.map (·.name.name))) (ms.forM (defineMethod owner)) d
      fun _ d' => Kept k d d' := by
  refine Decides.congr (decides_forM (fun _ d' => Kept k d d')
    (fun _ m => m.WellScoped (classes.map (·.name.name))) ms ?_ (.refl k hsound))
    eachAfter_iff_forall
  · intro _ m _ _ d₁ hkept
    have hsize := hkept.scopes.size_le
    refine (decides_defineMethod (htable.extend hkept.types) hkept.sound
      (Nat.lt_of_lt_of_le howner hsize) (Nat.le_trans hk hsize) m).mono ?_
    intro _ d₂ _ hkept₂
    exact hkept.trans hkept₂

end Method

end Definition

end IcLir
