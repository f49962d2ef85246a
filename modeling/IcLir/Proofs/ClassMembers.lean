import IcLir.Proofs.DefinitionStep

/-
  The members of a class. `MembersDeclared` says what the scope of a class holds once some
  fields and methods are declared: exactly these, where a field is new in the class hierarchy,
  and a method is new or overrides the nearest method of its name, with which it shares
  signature, being static, and (unless static) the names of the parameters.
-/

namespace IcLir

namespace Definition

open Pass

/-- Method `m` with the signature `type` may stand for the inherited member `known`. -/
structure Overrides (d : Definition) (m : MethodDecl) (type : TypeId) (known : Symbol) : Prop where
  kind : ∃ kind, known.kind = .method kind ∧ kind.isStatic = m.isStatic
  signature : d.types.signaturesMatch known.type type = true
  params : m.isStatic = true ∨ d.keepsParamNames known.scope m = true

/-- The scope of a class, inside `parent`, holds the given fields and methods and no more. -/
structure MembersDeclared (d : Definition) (scope parent : ScopeId) (fields : List VarDecl)
    (methods : List MethodDecl) : Prop where
  field : ∀ f ∈ fields, ∃ s, (d.scopes.scope scope).get? f.name.name = some s ∧ s.kind = .field
  method : ∀ m ∈ methods, ∃ s, (d.scopes.scope scope).get? m.name.name = some s ∧
    s.kind = .method m.kind
  member : ∀ name s, (d.scopes.scope scope).get? name = some s →
    (s.kind = .field ∧ d.scopes.lookupMember parent name = none) ∨
      ∃ m ∈ methods, m.name.name = name ∧ s.kind = .method m.kind ∧
        ∀ known, d.scopes.lookupMember parent name = some known → Overrides d m s.type known
  nodup : (methods.map (·.name.name)).Nodup

section Growth

variable {d d' : Definition} {k scope parent : ScopeId}

theorem Overrides.step {m : MethodDecl} {type : TypeId} {known : Symbol}
    (h : Overrides d m type known) (hs : Grows k d d') (hscope : known.scope < d.scopes.size) :
    Overrides d' m type known := by
  refine ⟨h.kind, hs.types.signaturesMatch_of_true h.signature, ?_⟩
  rcases h.params with hp | hp
  · exact .inl hp
  · refine .inr ?_
    unfold keepsParamNames ScopeTree.classOf? at hp ⊢
    rw [hs.scopes.kind _ hscope, hs.declarations]
    exact hp

/-- Members stay as they are while only younger scopes change. -/
theorem MembersDeclared.step {fields : List VarDecl} {methods : List MethodDecl}
    (h : MembersDeclared d scope parent fields methods) (hsound : Sound d) (hs : Grows k d d')
    (hscope : scope < k) (hparent : parent < scope) (hlt : scope < d.scopes.size) :
    MembersDeclared d' scope parent fields methods := by
  have hsame : d'.scopes.scope scope = d.scopes.scope scope := hs.below scope hscope
  have hlookup : ∀ name, d'.scopes.lookupMember parent name = d.scopes.lookupMember parent name :=
    fun name => hs.below.lookupMember_eq hsound.ordered (Nat.lt_trans hparent hscope) name
  refine ⟨?_, ?_, ?_, h.nodup⟩
  · rw [hsame]
    exact h.field
  · rw [hsame]
    exact h.method
  · intro name s hget
    rw [hsame] at hget
    rw [hlookup]
    rcases h.member name s hget with hf | ⟨m, hm, hname, hkind, hover⟩
    · exact .inl hf
    · refine .inr ⟨m, hm, hname, hkind, fun known hknown => ?_⟩
      have hle := hsound.symbols.scope_le_of_lookupMember hsound.ordered hknown
      exact (hover known hknown).step hs
        (Nat.lt_of_le_of_lt hle (Nat.lt_trans hparent hlt))

end Growth

/-! ## Declaring one member -/

/-- The class scope that is being filled. -/
structure ClassOpen (d : Definition) (scope parent : ScopeId) : Prop where
  lt : scope < d.scopes.size
  isClass : (d.scopes.scope scope).isClass = true
  enclosing : (d.scopes.scope scope).enclosing = d.scopes.path parent
  parent_lt : parent < scope

namespace ClassOpen

variable {d d' : Definition} {k scope parent : ScopeId}

theorem step (h : ClassOpen d scope parent) (hs : Grows k d d') : ClassOpen d' scope parent := by
  have hparent := Nat.lt_trans h.parent_lt h.lt
  refine ⟨Nat.lt_of_lt_of_le h.lt hs.scopes.size_le, ?_, ?_, h.parent_lt⟩
  · rw [SymbolTable.isClass, hs.scopes.kind scope h.lt]
    exact h.isClass
  · rw [hs.scopes.enclosing scope h.lt, hs.scopes.path_eq hparent]
    exact h.enclosing

theorem admits (h : ClassOpen d scope parent) {kind : SymbolKind} (hkind : kind.isMember = true) :
    (d.scopes.scope scope).kind.Admits kind := by
  have hc := h.isClass
  unfold SymbolTable.isClass at hc
  cases hk : (d.scopes.scope scope).kind <;> simp_all [ScopeKind.isClass, ScopeKind.Admits]

theorem lookupMember_eq (h : ClassOpen d scope parent) (hsound : Sound d) (name : String) :
    d.scopes.lookupMember scope name =
      ((d.scopes.scope scope).get? name).or (d.scopes.lookupMember parent name) := by
  rw [ScopeTree.lookupMember_eq_or h.isClass h.enclosing, hsound.symbols.member?_eq h.isClass]

end ClassOpen

/-- A step that declares members: it leaves all tables of scopes alone. -/
structure MemberStep (scope : ScopeId) (d d' : Definition) : Prop extends Step scope d d' where
  methodScopes : d'.scopes.methodScopes = d.scopes.methodScopes
  blockScopes : d'.scopes.blockScopes = d.scopes.blockScopes

namespace MemberStep

variable {scope : ScopeId} {d d' d'' : Definition}

theorem refl (scope : ScopeId) (d : Definition) : MemberStep scope d d :=
  ⟨.refl scope d, rfl, rfl⟩

theorem trans (h : MemberStep scope d d') (h' : MemberStep scope d' d'') :
    MemberStep scope d d'' :=
  ⟨h.toStep.trans h'.toStep, h'.methodScopes.trans h.methodScopes,
    h'.blockScopes.trans h.blockScopes⟩

end MemberStep

theorem memberStep_withTypes {d : Definition} {types : TypeTable} (he : d.types.Extends types)
    (scope : ScopeId) : MemberStep scope d { d with types := types } :=
  ⟨step_withTypes he scope, rfl, rfl⟩

theorem memberStep_insert {d : Definition} {scope : ScopeId} {name : String} {kind : SymbolKind}
    {type : TypeId} {span : Span} {scopes : ScopeTree}
    (hi : d.scopes.insert scope name kind type span = .ok scopes)
    (hscope : scope < d.scopes.size) : MemberStep scope d { d with scopes := scopes } :=
  ⟨step_insert hi hscope (Nat.le_refl _), ScopeTree.methodScopes_insert hi,
    ScopeTree.blockScopes_insert hi⟩

section Insert

variable {d : Definition} {scope parent : ScopeId} {fields : List VarDecl}
  {methods : List MethodDecl} {name : String} {kind : SymbolKind} {type : TypeId} {span : Span}
  {scopes : ScopeTree}

/-- The members there were, after one more name is declared. -/
theorem MembersDeclared.member_of_insert (h : MembersDeclared d scope parent fields methods)
    (hsound : Sound d) (hopen : ClassOpen d scope parent)
    (hi : d.scopes.insert scope name kind type span = .ok scopes) {other : String} {s : Symbol}
    (hs : (d.scopes.scope scope).get? other = some s) :
    (s.kind = .field ∧ scopes.lookupMember parent other = none) ∨
      ∃ m ∈ methods, m.name.name = other ∧ s.kind = .method m.kind ∧
        ∀ known, scopes.lookupMember parent other = some known →
          Overrides { d with scopes := scopes } m s.type known := by
  have hstep := step_insert hi hopen.lt (Nat.le_refl scope)
  have hlookup : scopes.lookupMember parent other = d.scopes.lookupMember parent other :=
    hstep.below.lookupMember_eq hsound.ordered hopen.parent_lt other
  rw [hlookup]
  rcases h.member other s hs with hf | ⟨m, hm, hname, hkind, hover⟩
  · exact .inl hf
  · refine .inr ⟨m, hm, hname, hkind, fun known hknown => ?_⟩
    have hle := hsound.symbols.scope_le_of_lookupMember hsound.ordered hknown
    exact (hover known hknown).step hstep.toGrows
      (Nat.lt_of_le_of_lt hle (Nat.lt_trans hopen.parent_lt hopen.lt))

theorem MembersDeclared.insertField (h : MembersDeclared d scope parent fields methods)
    (hsound : Sound d) (hopen : ClassOpen d scope parent) {f : VarDecl}
    (hi : d.scopes.insert scope f.name.name .field type span = .ok scopes)
    (hnew : d.scopes.lookupMember parent f.name.name = none) :
    MembersDeclared { d with scopes := scopes } scope parent (fields ++ [f]) methods := by
  have hstep := step_insert hi hopen.lt (Nat.le_refl scope)
  have hget := ScopeTree.get?_insert hi hopen.lt
  refine ⟨?_, ?_, ?_, h.nodup⟩
  · intro g hg
    rcases List.mem_append.mp hg with hg | hg
    · obtain ⟨s, hs, hk⟩ := h.field g hg
      exact ⟨s, hstep.scopes.symbol scope hopen.lt _ s hs, hk⟩
    · rw [List.mem_singleton.mp hg]
      exact ⟨_, by rw [hget, if_pos rfl], rfl⟩
  · intro m hm
    obtain ⟨s, hs, hk⟩ := h.method m hm
    exact ⟨s, hstep.scopes.symbol scope hopen.lt _ s hs, hk⟩
  · intro other s hs
    rw [hget] at hs
    by_cases hn : other = f.name.name
    · rw [if_pos hn] at hs
      obtain rfl := Option.some.inj hs
      refine .inl ⟨rfl, ?_⟩
      rw [hstep.below.lookupMember_eq hsound.ordered hopen.parent_lt, hn]
      exact hnew
    · rw [if_neg hn] at hs
      exact h.member_of_insert hsound hopen hi hs

theorem MembersDeclared.insertMethod (h : MembersDeclared d scope parent fields methods)
    (hsound : Sound d) (hopen : ClassOpen d scope parent) {m : MethodDecl}
    (hi : d.scopes.insert scope m.name.name (.method m.kind) type span = .ok scopes)
    (hover : ∀ known, d.scopes.lookupMember parent m.name.name = some known →
      Overrides d m type known) :
    MembersDeclared { d with scopes := scopes } scope parent fields (methods ++ [m]) := by
  have hstep := step_insert hi hopen.lt (Nat.le_refl scope)
  have hget := ScopeTree.get?_insert hi hopen.lt
  refine ⟨?_, ?_, ?_, ?_⟩
  · intro f hf
    obtain ⟨s, hs, hk⟩ := h.field f hf
    exact ⟨s, hstep.scopes.symbol scope hopen.lt _ s hs, hk⟩
  · intro m' hm'
    rcases List.mem_append.mp hm' with hm' | hm'
    · obtain ⟨s, hs, hk⟩ := h.method m' hm'
      exact ⟨s, hstep.scopes.symbol scope hopen.lt _ s hs, hk⟩
    · rw [List.mem_singleton.mp hm']
      exact ⟨_, by rw [hget, if_pos rfl], rfl⟩
  · intro other s hs
    rw [hget] at hs
    by_cases hn : other = m.name.name
    · rw [if_pos hn] at hs
      obtain rfl := Option.some.inj hs
      refine .inr ⟨m, by simp, hn.symm, rfl, fun known hknown => ?_⟩
      rw [hn, hstep.below.lookupMember_eq hsound.ordered hopen.parent_lt] at hknown
      have hle := hsound.symbols.scope_le_of_lookupMember hsound.ordered hknown
      exact (hover known hknown).step hstep.toGrows
        (Nat.lt_of_le_of_lt hle (Nat.lt_trans hopen.parent_lt hopen.lt))
    · rw [if_neg hn] at hs
      rcases h.member_of_insert hsound hopen hi hs with hf | ⟨m', hm', hrest⟩
      · exact .inl hf
      · exact .inr ⟨m', List.mem_append_left _ hm', hrest⟩
  · rw [List.map_append, List.nodup_append]
    refine ⟨h.nodup, by simp, ?_⟩
    intro a ha b hb hab
    obtain ⟨m', hm', rfl⟩ := List.mem_map.mp ha
    obtain ⟨s, hs, _⟩ := h.method m' hm'
    rw [List.mem_singleton.mp hb] at hab
    rw [hab, ScopeTree.get?_eq_none_of_insert hi] at hs
    simp at hs

end Insert

/-! ## The loops over fields and methods -/

/-- The state while the members of a class are declared, from `d` on. -/
structure Declaring (scope parent : ScopeId) (fields : List VarDecl) (methods : List MethodDecl)
    (d d' : Definition) : Prop where
  step : MemberStep scope d d'
  sound : Sound d'
  isOpen : ClassOpen d' scope parent
  members : MembersDeclared d' scope parent fields methods

variable {d₀ d : Definition} {scope parent : ScopeId} {fields : List VarDecl}
  {methods : List MethodDecl}

theorem Declaring.withTypes (h : Declaring scope parent fields methods d₀ d) {types : TypeTable}
    (he : d.types.Extends types) :
    Declaring scope parent fields methods d₀ { d with types := types } where
  step := h.step.trans (memberStep_withTypes he scope)
  sound := h.sound.withTypes types
  isOpen := h.isOpen.step (step_withTypes he scope).toGrows
  members := h.members.step h.sound (step_withTypes he (scope + 1)).toGrows
    (Nat.lt_succ_self _) h.isOpen.parent_lt h.isOpen.lt

/-- The entries noted so far play no part in declaring members. -/
theorem Declaring.withEntries (h : Declaring scope parent fields methods d₀ d)
    (entries : List Entry) :
    Declaring scope parent fields methods d₀ { d with entries := entries } := by
  obtain ⟨⟨⟨⟨htypes, hscopes, hbelow, hdecls⟩, hclass⟩, hmethod, hblock⟩, hsound, hopen, hmem⟩ := h
  refine ⟨⟨⟨⟨htypes, hscopes, hbelow, hdecls⟩, hclass⟩, hmethod, hblock⟩,
    ⟨hsound.ordered, hsound.symbols⟩,
    ⟨hopen.lt, hopen.isClass, hopen.enclosing, hopen.parent_lt⟩,
    ⟨hmem.field, hmem.method, ?_, hmem.nodup⟩⟩
  intro name s hs
  rcases hmem.member name s hs with hf | ⟨m, hm, hname, hkind, hover⟩
  · exact .inl hf
  · refine .inr ⟨m, hm, hname, hkind, fun known hknown => ?_⟩
    obtain ⟨hk, hsig, hp⟩ := hover known hknown
    exact ⟨hk, hsig, hp⟩

theorem meets_declareField (h : Declaring scope parent fields methods d₀ d) (f : VarDecl) :
    Meets CompileError.IsRejection (declareField scope f) d fun _ d' =>
      Declaring scope parent (fields ++ [f]) methods d₀ d' ∧ d'.entries = d.entries := by
  unfold declareField
  rw [meets_bind]
  refine meets_resolveType fun type types hr => ?_
  have h₁ := h.withTypes (TypeTable.extends_resolve hr)
  rw [meets_bind, meets_get, meets_bind]
  refine meets_require fun hnone => ?_
  rw [Option.isNone_iff_eq_none, h₁.isOpen.lookupMember_eq h₁.sound, Option.or_eq_none_iff] at hnone
  refine meets_insertSymbol fun scopes hi => ?_
  have hins := memberStep_insert hi h₁.isOpen.lt
  exact ⟨⟨h₁.step.trans hins, h₁.sound.insert hi h₁.isOpen.lt (h₁.isOpen.admits rfl),
    h₁.isOpen.step hins.toGrows, h₁.members.insertField h₁.sound h₁.isOpen hi hnone.2⟩, rfl⟩

theorem meets_methodSignature (d : Definition) (m : MethodDecl) :
    Meets CompileError.IsRejection (methodSignature m) d fun id d' =>
      ∃ types, d.types.Extends types ∧ d' = { d with types := types } ∧
        ∃ sig, types.signature? id = some sig := by
  unfold methodSignature
  rw [meets_bind]
  refine meets_resolveType fun result types hr => ?_
  refine (meets_mapM (fun _ _ d' => ∃ types, d.types.Extends types ∧ d' = { d with types := types })
    m.params ?_ ⟨types, TypeTable.extends_resolve hr, rfl⟩).bind ?_
  · rintro _ p _ _ _ _ ⟨types₁, hext₁, rfl⟩
    refine meets_resolveType fun _ types₂ hr₂ => ?_
    exact ⟨types₂, hext₁.trans (TypeTable.extends_resolve hr₂), rfl⟩
  · rintro params _ ⟨types₁, hext₁, rfl⟩
    rw [meets_bind, meets_get]
    exact ⟨_, hext₁.trans (TypeTable.extends_signature types₁ result params), rfl, _,
      TypeTable.signature?_signature types₁ result params⟩

theorem meets_checkOverride (d : Definition) (m : MethodDecl) (signature : TypeId)
    (known : Symbol) :
    Meets CompileError.IsRejection (checkOverride scope m signature known) d fun _ d' =>
      d' = d ∧ known.scope ≠ scope ∧ Overrides d m signature known := by
  unfold checkOverride
  rw [meets_bind, meets_get, meets_bind]
  refine meets_require fun hscope => ?_
  cases hk : known.kind.methodKind? with
  | none => exact meets_reject
  | some kind =>
    have hkind : known.kind = .method kind := by
      cases hknown : known.kind <;> simp_all [SymbolKind.methodKind?]
    simp only [meets_bind]
    refine meets_require fun hsig => meets_require fun hstatic => meets_require fun hparams => ?_
    refine ⟨rfl, by simpa using hscope, ⟨⟨kind, hkind, by simpa using hstatic⟩, hsig, ?_⟩⟩
    simpa using hparams

/-- Noting a possible entry method changes the types and the entries only. -/
theorem meets_noteEntry (d : Definition) (entryMethod : String) (owner : TypeId) (m : MethodDecl)
    (signature : TypeId) :
    Meets CompileError.IsRejection (noteEntry entryMethod owner m signature) d fun _ d' =>
      ∃ types entries, d.types.Extends types ∧
        d' = { d with types := types, entries := entries } ∧
        (entries = d.entries ∨ entries = d.entries ++ [⟨owner, m⟩] ∧ m.kind = .static) := by
  unfold noteEntry
  by_cases hm : m.kind = .static ∧ m.name.name = entryMethod
  · rw [if_pos hm, meets_bind, meets_get]
    refine ⟨_, _, TypeTable.extends_arrayOf d.types TypeId.string, rfl, ?_⟩
    by_cases hs : (d.types.arrayOf TypeId.string).2.signature? signature =
        some ⟨TypeId.void, [(d.types.arrayOf TypeId.string).1]⟩
    · exact .inr ⟨if_pos hs, hm.1⟩
    · exact .inl (if_neg hs)
  · rw [if_neg hm]
    exact ⟨d.types, d.entries, .refl _, rfl, .inl rfl⟩

/-- The methods noted as possible entry methods are static methods out of `methods`. -/
def EntriesFrom (methods : List MethodDecl) (entries entries' : List Entry) : Prop :=
  ∀ e ∈ entries', e ∈ entries ∨ e.method ∈ methods ∧ e.method.kind = .static

theorem meets_declareMethod (h : Declaring scope parent fields methods d₀ d)
    (entryMethod : String) (owner : TypeId) (m : MethodDecl) :
    Meets CompileError.IsRejection (declareMethod entryMethod owner scope m) d fun _ d' =>
      Declaring scope parent fields (methods ++ [m]) d₀ d' ∧
        EntriesFrom [m] d.entries d'.entries := by
  unfold declareMethod
  refine (meets_methodSignature d m).bind ?_
  rintro signature _ ⟨types, hext, rfl, sig, hsig⟩
  have h₁ := h.withTypes hext
  -- both ways on: with what is known about an inherited member, declare the method
  have hjoin : (∀ known, ({ d with types := types } : Definition).scopes.lookupMember parent
        m.name.name = some known → Overrides { d with types := types } m signature known) →
      Meets CompileError.IsRejection
        (insertSymbol scope m.name (.method m.kind) signature >>= fun _ =>
          noteEntry entryMethod owner m signature) { d with types := types } fun _ d' =>
        Declaring scope parent fields (methods ++ [m]) d₀ d' ∧
          EntriesFrom [m] d.entries d'.entries := by
    intro hover
    rw [meets_bind]
    refine meets_insertSymbol fun scopes hi => ?_
    have hins := memberStep_insert hi h₁.isOpen.lt
    have h₂ : Declaring scope parent fields (methods ++ [m]) d₀
        { d with types := types, scopes := scopes } :=
      ⟨h₁.step.trans hins, h₁.sound.insert hi h₁.isOpen.lt (h₁.isOpen.admits rfl),
        h₁.isOpen.step hins.toGrows,
        h₁.members.insertMethod h₁.sound h₁.isOpen hi hover⟩
    refine (meets_noteEntry _ entryMethod owner m signature).mono ?_
    rintro _ _ ⟨types', entries, hext', rfl, hentries⟩
    refine ⟨(h₂.withTypes hext').withEntries entries, ?_⟩
    intro e he
    rcases hentries with rfl | ⟨rfl, hstatic⟩
    · exact .inl he
    · rcases List.mem_append.mp he with he | he
      · exact .inl he
      · rw [List.mem_singleton.mp he]
        exact .inr ⟨by simp, hstatic⟩
  rw [meets_bind, meets_get]
  cases hl : ({ d with types := types } : Definition).scopes.lookupMember scope m.name.name with
  | none =>
    refine hjoin fun known hknown => ?_
    rw [h₁.isOpen.lookupMember_eq h₁.sound, Option.or_eq_none_iff] at hl
    rw [hl.2] at hknown
    simp at hknown
  | some known =>
    dsimp only
    refine (meets_checkOverride _ m signature known).bind ?_
    rintro _ _ ⟨rfl, hne, hover⟩
    refine hjoin fun known' hknown' => ?_
    -- the member in view is not one of this class, so it is the inherited one
    rw [h₁.isOpen.lookupMember_eq h₁.sound] at hl
    cases hown : (({ d with types := types } : Definition).scopes.scope scope).get? m.name.name with
    | none =>
      rw [hown, hknown'] at hl
      rw [Option.some.inj hl]
      exact hover
    | some s =>
      rw [hown] at hl
      have hs := (h₁.sound.symbols scope _ s hown).scope_eq
      rw [Option.some.inj hl] at hs
      exact absurd hs hne

end Definition

end IcLir
