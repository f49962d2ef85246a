import IcLir.Proofs.BodyRules
import IcLir.Proofs.ClassScopes

/-
  When the members of a class can be declared. The scope of a class holds exactly its fields and
  methods, in order, with the types written for them (`HoldsMembers`). Then what a look-up of a
  member finds outside the class can be read off the superclasses (`Above`): nothing, a field,
  or the nearest method of that name (`Above.lookupMember_cases`). So the checks made while
  members are declared come down to the rules for members (`decides_declareFields`,
  `decides_declareMethods`).
-/

namespace IcLir

namespace Definition

open Pass TypeTable

variable {classes : List ClassDecl} {type signature : TypeId} {parent k : ScopeId} {m : MethodDecl}
    {d' : Definition}

/-- The symbol `name` of a scope stands for the field `f`. -/
structure FieldSymbol (d : Definition) (scope : ScopeId) (f : VarDecl) (s : Symbol) : Prop where
  get? : (d.scopes.scope scope).get? f.name.name = some s
  kind : s.kind = .field
  type : d.types.denoted? f.type = some s.type

structure MethodSymbol (d : Definition) (scope : ScopeId) (m : MethodDecl) (s : Symbol) : Prop where
  get? : (d.scopes.scope scope).get? m.name.name = some s
  kind : s.kind = .method m.kind
  type : d.types.SignatureOf m s.type

/-- The scope holds the given fields and methods in this order and no more. -/
structure HoldsMembers (d : Definition) (scope : ScopeId) (fields : List VarDecl)
    (methods : List MethodDecl) : Prop where
  names : d.names scope = fields.map (·.name.name) ++ methods.map (·.name.name)
  field : ∀ f ∈ fields, ∃ s, FieldSymbol d scope f s
  method : ∀ m ∈ methods, ∃ s, MethodSymbol d scope m s

namespace HoldsMembers

variable {d d' : Definition} {scope : ScopeId} {fields : List VarDecl} {methods : List MethodDecl}

/-- Every symbol of the scope is that of a field or of a method. -/
theorem cases (h : HoldsMembers d scope fields methods) {name : String} {s : Symbol}
    (hs : (d.scopes.scope scope).get? name = some s) :
    (∃ f ∈ fields, f.name.name = name ∧ FieldSymbol d scope f s) ∨
      ∃ m ∈ methods, m.name.name = name ∧ MethodSymbol d scope m s := by
  have hmem : name ∈ d.names scope := by
    apply Classical.byContradiction
    intro hnot
    rw [get?_eq_none_iff.mpr hnot] at hs
    simp at hs
  rw [h.names, List.mem_append] at hmem
  rcases hmem with hmem | hmem
  · obtain ⟨f, hf, rfl⟩ := List.mem_map.mp hmem
    obtain ⟨s', hs'⟩ := h.field f hf
    obtain rfl : s' = s := Option.some.inj (hs'.get?.symm.trans hs)
    exact .inl ⟨f, hf, rfl, hs'⟩
  · obtain ⟨m, hm, rfl⟩ := List.mem_map.mp hmem
    obtain ⟨s', hs'⟩ := h.method m hm
    obtain rfl : s' = s := Option.some.inj (hs'.get?.symm.trans hs)
    exact .inr ⟨m, hm, rfl, hs'⟩

theorem get?_eq_none_iff (h : HoldsMembers d scope fields methods) {name : String} :
    (d.scopes.scope scope).get? name = none ↔
      name ∉ fields.map (·.name.name) ∧ name ∉ methods.map (·.name.name) := by
  rw [Definition.get?_eq_none_iff, h.names, List.mem_append, not_or]

/-- The symbols are kept where the types only grow and the scope keeps its symbols. -/
theorem keep (h : HoldsMembers d scope fields methods) (ht : d.types.Extends d'.types)
    (hs : d'.scopes.scope scope = d.scopes.scope scope) :
    HoldsMembers d' scope fields methods where
  names := by
    unfold Definition.names
    rw [hs]
    exact h.names
  field f hf := by
    obtain ⟨s, hget, hk, hdenoted⟩ := h.field f hf
    exact ⟨s, hs ▸ hget, hk, ht.denoted?_of_some hdenoted⟩
  method m hm := by
    obtain ⟨s, hget, hk, hsig⟩ := h.method m hm
    exact ⟨s, hs ▸ hget, hk, hsig.extend ht⟩

section Insert

variable {name : String} {kind : SymbolKind} {type : TypeId} {span : Span} {scopes : ScopeTree}

/-- The members there were, after one more name is declared. -/
theorem insert (h : HoldsMembers d scope fields methods) (hlt : scope < d.scopes.size)
    (hi : d.scopes.insert scope name kind type span = .ok scopes) :
    (∀ f ∈ fields, ∃ s, FieldSymbol { d with scopes := scopes } scope f s) ∧
      ∀ m ∈ methods, ∃ s, MethodSymbol { d with scopes := scopes } scope m s := by
  have hkeeps := (ScopeTree.extends_insert hi hlt).symbol scope hlt
  constructor
  · intro f hf
    obtain ⟨s, hget, hk, hdenoted⟩ := h.field f hf
    exact ⟨s, hkeeps _ s hget, hk, hdenoted⟩
  · intro m hm
    obtain ⟨s, hget, hk, hsig⟩ := h.method m hm
    exact ⟨s, hkeeps _ s hget, hk, hsig⟩

theorem insertField (h : HoldsMembers d scope fields []) (hlt : scope < d.scopes.size) {f : VarDecl}
    (hi : d.scopes.insert scope f.name.name .field type span = .ok scopes)
    (hdenoted : d.types.denoted? f.type = some type) :
    HoldsMembers { d with scopes := scopes } scope (fields ++ [f]) [] := by
  refine ⟨?_, ?_, by simp⟩
  · rw [names_insert hi hlt, h.names]
    simp
  · intro g hg
    rcases List.mem_append.mp hg with hg | hg
    · exact (h.insert hlt hi).1 g hg
    · rw [List.mem_singleton.mp hg]
      exact ⟨_, by rw [ScopeTree.get?_insert hi hlt, if_pos rfl], rfl, hdenoted⟩

theorem insertMethod (h : HoldsMembers d scope fields methods) (hlt : scope < d.scopes.size)
    {m : MethodDecl}
    (hi : d.scopes.insert scope m.name.name (.method m.kind) type span = .ok scopes)
    (hsig : d.types.SignatureOf m type) :
    HoldsMembers { d with scopes := scopes } scope fields (methods ++ [m]) := by
  refine ⟨?_, (h.insert hlt hi).1, ?_⟩
  · rw [names_insert hi hlt, h.names]
    simp
  · intro m' hm'
    rcases List.mem_append.mp hm' with hm' | hm'
    · exact (h.insert hlt hi).2 m' hm'
    · rw [List.mem_singleton.mp hm']
      exact ⟨_, by rw [ScopeTree.get?_insert hi hlt, if_pos rfl], rfl, hsig⟩

end Insert

end HoldsMembers

/-! ## The superclasses -/

/-- A class with all that its scope says about its members. -/
structure ClassFilled (d : Definition) (c : ClassDecl) (type : TypeId) (scope parent : ScopeId) :
    Prop extends ClassDefined d c type scope parent where
  named : d.types.class? c.name.name = some type
  declaration : d.declarations.get? type = some c
  holds : HoldsMembers d scope c.fields c.methods

/-- `scope` is the scope of the first of the classes `above`, which lies in that of the next,
    and so on. Each of them meets the rules for members. -/
def Above (d : Definition) : List ClassDecl → ScopeId → Prop
  | [], scope => (d.scopes.scope scope).isClass = false
  | c :: above, scope => ∃ type parent, ClassFilled d c type scope parent ∧ c.MembersFit above ∧
      Above d above parent

/-- No class has a member `name`. -/
def NoMember (above : List ClassDecl) (name : String) : Prop :=
  ∀ b ∈ above, name ∉ b.fieldNames ∧ name ∉ b.methodNames

theorem findSome?_method?_eq_none {above : List ClassDecl} {name : String}
    (h : NoMember above name) : above.findSome? (·.method? name) = none := by
  rw [List.findSome?_eq_none_iff]
  intro b hb
  exact ClassDecl.method?_eq_none (h b hb).2

variable {d : Definition} {above : List ClassDecl} {scope : ScopeId}

/-- A look-up finds nothing, or the member of the first class that has one. -/
theorem Above.lookupMember_cases (hsound : Sound d) (h : Above d above scope) (name : String) :
    d.scopes.lookupMember scope name = none ∧ NoMember above name ∨
      ∃ before b after type scope' parent s, above = before ++ b :: after ∧
        NoMember before name ∧ b.MembersFit after ∧ ClassFilled d b type scope' parent ∧
        (d.scopes.scope scope').get? name = some s ∧
        d.scopes.lookupMember scope name = some s := by
  induction above generalizing scope with
  | nil => exact .inl ⟨ScopeTree.lookupMember_of_not_isClass h name, by simp [NoMember]⟩
  | cons c above ih =>
    obtain ⟨type, parent, hc, hfit, hrest⟩ := h
    rw [hc.lookupMember_eq hsound]
    cases hs : (d.scopes.scope scope).get? name with
    | some s =>
      exact .inr ⟨[], c, above, type, scope, parent, s, rfl, by simp [NoMember], hfit, hc, hs, rfl⟩
    | none =>
      have hnone := hc.holds.get?_eq_none_iff.mp hs
      have hcons : ∀ l, NoMember l name → NoMember (c :: l) name := by
        intro l hl b hb
        rcases List.mem_cons.mp hb with rfl | hb
        · exact hnone
        · exact hl b hb
      rcases ih hrest with ⟨hlook, hno⟩ | ⟨before, b, after, t, sc, par, s, heq, hno, hrest'⟩
      · exact .inl ⟨by rw [hlook]; rfl, hcons above hno⟩
      · exact .inr ⟨c :: before, b, after, t, sc, par, s, by rw [heq]; rfl, hcons before hno,
          hrest'⟩

theorem Above.lookupMember_eq_none_iff (hsound : Sound d) (h : Above d above scope)
    (name : String) : d.scopes.lookupMember scope name = none ↔ NoMember above name := by
  rcases h.lookupMember_cases hsound name with
    ⟨hlook, hno⟩ | ⟨before, b, after, type, scope', parent, s, heq, _, _, hb, hs, hlook⟩
  · exact ⟨fun _ => hno, fun _ => hlook⟩
  · constructor
    · intro hnone
      rw [hlook] at hnone
      simp at hnone
    · intro hno
      have hnone := hb.holds.get?_eq_none_iff.mpr (hno b (by simp [heq]))
      rw [hs] at hnone
      simp at hnone

/-- The method that may be replaced is compared by what is written. -/
theorem overrides_iff (htable : ClassTable classes d.types) (hsound : Sound d) {b : ClassDecl}
    (hb : ClassFilled d b type scope parent) {base : MethodDecl} (hbase : base ∈ b.methods)
    (hname : base.name.name = m.name.name) {s : Symbol} (hs : MethodSymbol d scope base s)
    (hsig : d.types.SignatureOf m signature) : Overrides d m signature s ↔ m.MayReplace base := by
  have hscope : s.scope = scope := (hsound.symbols scope _ s hs.get?).scope_eq
  have hclass : (d.scopes.classOf? s.scope).bind d.declarations.get? = some b := by
    rw [hscope, ScopeTree.classOf?, hb.kind]
    exact hb.declaration
  have hkeeps : d.keepsParamNames s.scope m = true ↔ base.paramNames = m.paramNames := by
    have hmethod : b.method? m.name.name = some base :=
      hname ▸ ClassDecl.method?_of_mem hb.members.nodup hbase
    unfold keepsParamNames
    dsimp only
    rw [hclass, Option.bind_some, hmethod]
    simp
  constructor
  · intro h
    obtain ⟨kind, hkind, hstatic⟩ := h.kind
    obtain rfl : base.kind = kind := SymbolKind.method.inj (hs.kind.symm.trans hkind)
    refine ⟨(htable.signaturesMatch_iff hs.type hsig).mp h.signature, hstatic, ?_⟩
    intro hvirtual
    rcases h.params with hp | hp
    · rw [hvirtual] at hp
      simp at hp
    · exact hkeeps.mp hp
  · intro h
    refine ⟨⟨base.kind, hs.kind, h.isStatic⟩,
      (htable.signaturesMatch_iff hs.type hsig).mpr h.signature, ?_⟩
    cases hstatic : m.isStatic with
    | true => exact .inl rfl
    | false => exact .inr (hkeeps.mpr (h.params hstatic))

/-- What is required of a method with respect to the superclasses. -/
def FitsAbove (above : List ClassDecl) (m : MethodDecl) : Prop :=
  (∀ b ∈ above, m.name.name ∉ b.fieldNames) ∧
    ∀ base, above.findSome? (·.method? m.name.name) = some base → m.MayReplace base

theorem Above.overrides_iff (htable : ClassTable classes d.types) (hsound : Sound d)
    (h : Above d above scope) (hsig : d.types.SignatureOf m signature) :
    (∀ known, d.scopes.lookupMember scope m.name.name = some known →
      Overrides d m signature known) ↔ FitsAbove above m := by
  rcases h.lookupMember_cases hsound m.name.name with
    ⟨hlook, hno⟩ | ⟨before, b, after, type, scope', parent, s, heq, hno, hfit, hb, hs, hlook⟩
  · rw [hlook]
    refine ⟨fun _ => ⟨fun b hb => (hno b hb).1, ?_⟩, by simp⟩
    rw [findSome?_method?_eq_none hno]
    simp
  · rw [hlook]
    rcases hb.holds.cases hs with ⟨f, hf, hname, hfield⟩ | ⟨base, hbase, hname, hmethod⟩
    · -- a field cannot be replaced
      constructor
      · intro hall
        obtain ⟨kind, hkind, _⟩ := (hall s rfl).kind
        rw [hfield.kind] at hkind
        simp at hkind
      · intro hall
        exact absurd (List.mem_map.mpr ⟨f, hf, hname⟩) (hall.1 b (by simp [heq]))
    · have hfind : above.findSome? (·.method? m.name.name) = some base := by
        rw [heq, List.findSome?_append, findSome?_method?_eq_none hno, List.findSome?_cons, ← hname,
          ClassDecl.method?_of_mem hfit.methods_nodup hbase]
        rfl
      have hfields : ∀ b' ∈ above, m.name.name ∉ b'.fieldNames := by
        intro b' hb'
        rw [heq, List.mem_append, List.mem_cons] at hb'
        rcases hb' with hb' | rfl | hb'
        · exact (hno b' hb').1
        · exact hname ▸ hfit.method_new base hbase
        · exact hname ▸ hfit.method_above base hbase b' hb'
      have hiff := Definition.overrides_iff htable hsound hb hbase hname hmethod hsig
      constructor
      · intro hall
        refine ⟨hfields, fun base' hbase' => ?_⟩
        obtain rfl : base = base' := Option.some.inj (hfind.symm.trans hbase')
        exact hiff.mp (hall s rfl)
      · intro hall known hknown
        obtain rfl : s = known := Option.some.inj hknown
        exact hiff.mpr (hall.2 base hfind)

/-! ## Declaring one member -/

theorem ClassFilled.step {c : ClassDecl} (h : ClassFilled d c type scope parent) (hsound : Sound d)
    (hs : Grows k d d') (hscope : scope < k)
    (htype : d'.scopes.classScopes.get? type = d.scopes.classScopes.get? type)
    (hbase : ∀ base, d.types.superclass? type = some base →
      d'.scopes.classScopes.get? base = d.scopes.classScopes.get? base) :
    ClassFilled d' c type scope parent where
  toClassDefined := h.toClassDefined.step hsound hs hscope htype hbase
  named := (hs.types.class?_eq _).trans h.named
  declaration := by rw [hs.declarations]; exact h.declaration
  holds := h.holds.keep hs.types (hs.below scope hscope)

/-- The superclasses stay as they are while younger scopes are worked on. -/
theorem Above.step (h : Above d above scope) (hsound : Sound d) (hs : Step k d d')
    (hscope : scope < k) : Above d' above scope := by
  induction above generalizing scope with
  | nil =>
    have hsame := hs.below scope hscope
    rw [Above, hsame]
    exact h
  | cons c above ih =>
    obtain ⟨type, parent, hc, hfit, hrest⟩ := h
    have hclass : ∀ n, d'.scopes.classScopes.get? n = d.scopes.classScopes.get? n := by
      intro n
      rw [hs.classScopes]
    refine ⟨type, parent, ?_, hfit, ih hrest (Nat.lt_trans hc.parent_lt hscope)⟩
    exact hc.step hsound hs.toGrows hscope (hclass type) fun base _ => hclass base

/-- The state while the members of a class are declared. -/
structure Filling (classes above : List ClassDecl) (scope parent : ScopeId)
    (fields : List VarDecl) (methods : List MethodDecl) (d₀ d : Definition) : Prop
    extends Declaring scope parent fields methods d₀ d where
  table : ClassTable classes d.types
  holds : HoldsMembers d scope fields methods
  superclasses : Above d above parent

section Declare

variable {classes : List ClassDecl} {parent : ScopeId} {fields : List VarDecl}
  {methods : List MethodDecl} {d₀ : Definition}

/-- The types and superclasses along a step that declares members. -/
theorem Filling.of_declaring {fields' : List VarDecl} {methods' : List MethodDecl}
    {d' : Definition} (h : Filling classes above scope parent fields methods d₀ d)
    (hd : Declaring scope parent fields' methods' d d')
    (hholds : HoldsMembers d' scope fields' methods') :
    Filling classes above scope parent fields' methods' d₀ d' where
  step := h.step.trans hd.step
  sound := hd.sound
  isOpen := hd.isOpen
  members := hd.members
  table := h.table.extend hd.step.types
  holds := hholds
  superclasses := h.superclasses.step h.sound hd.step.toStep h.isOpen.parent_lt

/-- What is declared is counted from the state before. -/
theorem Filling.here (h : Filling classes above scope parent fields methods d₀ d) :
    Declaring scope parent fields methods d d :=
  ⟨.refl scope d, h.sound, h.isOpen, h.members⟩

theorem decides_declareField (h : Filling classes above scope parent fields [] d₀ d)
    (f : VarDecl) :
    Decides (f.type.base.IsKnown (classes.map (·.name.name)) ∧
        f.name.name ∉ fields.map (·.name.name) ∧ NoMember above f.name.name)
      (declareField scope f) d fun _ d' =>
        Filling classes above scope parent (fields ++ [f]) [] d₀ d' ∧ d'.entries = d.entries := by
  have hlook : (d.scopes.lookupMember scope f.name.name).isNone = true ↔
      f.name.name ∉ fields.map (·.name.name) ∧ NoMember above f.name.name := by
    rw [Option.isNone_iff_eq_none, h.isOpen.lookupMember_eq h.sound, Option.or_eq_none_iff,
      h.holds.get?_eq_none_iff, h.superclasses.lookupMember_eq_none_iff h.sound]
    simp
  have hdecide : Decides (f.type.base.IsKnown (classes.map (·.name.name)) ∧
        (d.scopes.lookupMember scope f.name.name).isNone = true ∧ f.name.name ∉ d.names scope)
      (declareField scope f) d fun _ d' =>
        HoldsMembers d' scope (fields ++ [f]) [] ∧ d'.entries = d.entries := by
    unfold declareField
    refine (decides_resolveType h.table f.type).bind fun id d₁ _ hd₁ => ?_
    obtain ⟨types, hext, hdenoted, rfl⟩ := hd₁
    rw [decides_get]
    refine decides_require_bind fun _ => ?_
    refine (decides_insertSymbol { d with types := types } scope f.name .field id).mono ?_
    intro _ d₃ _ hd₃
    obtain ⟨scopes, hi, rfl⟩ := hd₃
    have hholds : HoldsMembers { d with types := types } scope fields [] := h.holds.keep hext rfl
    exact ⟨hholds.insertField h.isOpen.lt hi hdenoted, rfl⟩
  refine ((hdecide.and_meets (meets_declareField h.here f)).congr ?_).mono ?_
  · rw [hlook, h.holds.names, List.map_nil, List.append_nil]
    exact ⟨fun hc => ⟨hc.1, hc.2.1⟩, fun hc => ⟨hc.1, hc.2, hc.2.1⟩⟩
  · intro _ d' _ hd'
    obtain ⟨⟨hholds, hentries⟩, hdeclaring, _⟩ := hd'
    exact ⟨h.of_declaring hdeclaring hholds, hentries⟩

/-- The types written in the head of a method are known. -/
def KnownHead (classes : List ClassDecl) (m : MethodDecl) : Prop :=
  m.returnType.base.IsKnown (classes.map (·.name.name)) ∧
    ∀ q ∈ m.params, q.type.base.IsKnown (classes.map (·.name.name))

theorem decides_methodSignature (htable : ClassTable classes d.types) (m : MethodDecl) :
    Decides (KnownHead classes m) (methodSignature m) d fun id d' =>
      ∃ types, d.types.Extends types ∧ d' = { d with types := types } ∧
        types.SignatureOf m id := by
  unfold methodSignature
  refine (decides_resolveType htable m.returnType).bind fun result d₁ _ hd₁ => ?_
  obtain ⟨types, hext, hresult, rfl⟩ := hd₁
  have hparams := decides_mapM (s := { d with types := types }) (f := fun q => resolveType q.type)
    (fun done ids d' => ∃ types', types.Extends types' ∧ d' = { d with types := types' } ∧
      done.map (fun q => types'.denoted? q.type) = ids.map some)
    (fun q => q.type.base.IsKnown (classes.map (·.name.name))) m.params ?_
    ⟨types, .refl _, rfl, rfl⟩
  · refine (hparams.bind fun params d₂ _ hd₂ => ?_).congr (and_iff_left trivial)
    obtain ⟨types', hext', rfl, hdenoted⟩ := hd₂
    rw [decides_get]
    have hsig := extends_signature types' result params
    have hall := hext'.trans hsig
    exact ⟨trivial, _, hext.trans hall, rfl, _, signature?_signature types' result params,
      hall.denoted?_of_some hresult, hsig.denoted?_params hdenoted⟩
  · intro done q rest _ ids d' hd'
    obtain ⟨types', hext', rfl, hdenoted⟩ := hd'
    refine (decides_resolveType (htable.extend (hext.trans hext')) q.type).mono ?_
    intro id d'' _ hd''
    obtain ⟨types'', hext'', hid, rfl⟩ := hd''
    refine ⟨types'', hext'.trans hext'', rfl, ?_⟩
    rw [List.map_append, List.map_append, hext''.denoted?_params hdenoted]
    exact congrArg _ (congrArg (fun x => [x]) hid)

theorem decides_checkOverride (d : Definition) (m : MethodDecl) (signature : TypeId)
    (known : Symbol) :
    Decides (known.scope ≠ scope ∧ Overrides d m signature known)
      (checkOverride scope m signature known) d fun _ d' => d' = d := by
  unfold checkOverride
  rw [decides_get]
  refine Decides.congr (decides_require_bind fun _ => ?_)
    (and_congr_left fun _ => decide_eq_true_iff)
  cases hk : known.kind.methodKind? with
  | none =>
    refine decides_reject.congr ⟨False.elim, fun h => ?_⟩
    obtain ⟨kind, hkind, _⟩ := h.kind
    rw [hkind] at hk
    simp [SymbolKind.methodKind?] at hk
  | some kind =>
    have hkind : known.kind = .method kind := by
      cases hknown : known.kind <;> simp_all [SymbolKind.methodKind?]
    have hcond : Overrides d m signature known ↔
        d.types.signaturesMatch known.type signature = true ∧
          decide (kind.isStatic = m.isStatic) = true ∧
          (m.isStatic || d.keepsParamNames known.scope m) = true := by
      rw [decide_eq_true_iff, Bool.or_eq_true]
      constructor
      · intro h
        obtain ⟨kind', hkind', hstatic⟩ := h.kind
        obtain rfl : kind = kind' := SymbolKind.method.inj (hkind.symm.trans hkind')
        exact ⟨h.signature, hstatic, h.params⟩
      · intro h
        exact ⟨⟨kind, hkind, h.2.1⟩, h.1, h.2.2⟩
    rw [hcond]
    refine decides_require_bind fun _ => decides_require_bind fun _ => ?_
    exact decides_require _ _ _ _

/-- Noting an entry method never fails; it looks at what is written in the head. -/
theorem decides_noteEntry (htable : ClassTable classes d.types) (entryMethod : String)
    (owner : TypeId) {m : MethodDecl} {signature : TypeId}
    (hsig : d.types.SignatureOf m signature) :
    Decides True (noteEntry entryMethod owner m signature) d fun _ d' =>
      ∃ types, d.types.Extends types ∧ d' = { d with
        types := types
        entries := if m.isEntry entryMethod then d.entries ++ [⟨owner, m⟩] else d.entries } := by
  unfold noteEntry
  by_cases hm : m.kind = .static ∧ m.name.name = entryMethod
  · rw [if_pos hm, decides_get]
    have hext := extends_arrayOf d.types TypeId.string
    have hstrings : (d.types.arrayOf TypeId.string).2.kinds.idxOf? (.array TypeId.string) =
        some (d.types.arrayOf TypeId.string).1 := idxOf?_intern d.types _
    have hiff := (htable.extend hext).signature?_eq_entry_iff (hsig.extend hext) hstrings
    have hentry : (d.types.arrayOf TypeId.string).2.signature? signature =
        some ⟨TypeId.void, [(d.types.arrayOf TypeId.string).1]⟩ ↔ m.isEntry entryMethod = true := by
      rw [hiff]
      simp [MethodDecl.isEntry, hm.1, hm.2]
    have hentries : (if (d.types.arrayOf TypeId.string).2.signature? signature =
          some ⟨TypeId.void, [(d.types.arrayOf TypeId.string).1]⟩ then d.entries ++ [⟨owner, m⟩]
        else d.entries) = if m.isEntry entryMethod then d.entries ++ [⟨owner, m⟩] else d.entries :=
      ite_congr (propext hentry) (fun _ => rfl) fun _ => rfl
    refine ⟨trivial, _, hext, ?_⟩
    exact congrArg (fun entries => { d with
      types := (d.types.arrayOf TypeId.string).2, entries := entries }) hentries
  · have he : ¬ m.isEntry entryMethod = true := by
      intro he
      rw [MethodDecl.isEntry, decide_eq_true_iff] at he
      exact hm ⟨he.1, he.2.1⟩
    rw [if_neg hm]
    exact ⟨trivial, d.types, .refl _, by rw [if_neg he]⟩

/-- The entries after a method was met. -/
def entriesWith (entryMethod : String) (owner : TypeId) (entries : List Entry) (m : MethodDecl) :
    List Entry :=
  if m.isEntry entryMethod then entries ++ [⟨owner, m⟩] else entries

/-- What is required of a method after the given members of its class. -/
def MethodFits (above : List ClassDecl) (fields : List VarDecl) (methods : List MethodDecl)
    (m : MethodDecl) : Prop :=
  m.name.name ∉ fields.map (·.name.name) ∧ m.name.name ∉ methods.map (·.name.name) ∧
    FitsAbove above m

/-- With the check of an inherited member behind it, a method is declared if its name is new. -/
theorem decides_insertMethod (h : Filling classes above scope parent fields methods d₀ d)
    {types : TypeTable} (hext : d.types.Extends types) (entryMethod : String) (owner : TypeId)
    {m : MethodDecl} {signature : TypeId} (hsig : types.SignatureOf m signature) :
    Decides (m.name.name ∉ d.names scope)
      (insertSymbol scope m.name (.method m.kind) signature >>= fun _ =>
        noteEntry entryMethod owner m signature) { d with types := types } fun _ d' =>
      HoldsMembers d' scope fields (methods ++ [m]) ∧
        d'.entries = entriesWith entryMethod owner d.entries m := by
  refine ((decides_insertSymbol { d with types := types } scope m.name (.method m.kind)
    signature).bind fun _ d₁ _ hd₁ => ?_).congr (and_iff_left trivial)
  obtain ⟨scopes, hi, rfl⟩ := hd₁
  have hholds : HoldsMembers { d with types := types } scope fields methods :=
    h.holds.keep hext rfl
  have hholds₁ := hholds.insertMethod h.isOpen.lt hi hsig
  have hnote := decides_noteEntry (d := { d with types := types, scopes := scopes })
    (h.table.extend hext) entryMethod owner hsig
  refine hnote.mono ?_
  intro _ d₂ _ hd₂
  obtain ⟨types', hext', rfl⟩ := hd₂
  exact ⟨hholds₁.keep hext' rfl, rfl⟩

theorem decides_declareMethod (h : Filling classes above scope parent fields methods d₀ d)
    (entryMethod : String) (owner : TypeId) (m : MethodDecl) :
    Decides (KnownHead classes m ∧ MethodFits above fields methods m)
      (declareMethod entryMethod owner scope m) d fun _ d' =>
        Filling classes above scope parent fields (methods ++ [m]) d₀ d' ∧
          d'.entries = entriesWith entryMethod owner d.entries m := by
  have hdecide : Decides (KnownHead classes m ∧ MethodFits above fields methods m)
      (declareMethod entryMethod owner scope m) d fun _ d' =>
        HoldsMembers d' scope fields (methods ++ [m]) ∧
          d'.entries = entriesWith entryMethod owner d.entries m := by
    unfold declareMethod
    refine (decides_methodSignature h.table m).bind fun signature d₁ _ hd₁ => ?_
    obtain ⟨types, hext, rfl, hsig⟩ := hd₁
    have hinsert := decides_insertMethod h hext entryMethod owner hsig
    -- what the superclasses ask for, in the state after the signature is entered
    have habove : (∀ known, d.scopes.lookupMember parent m.name.name = some known →
        Overrides { d with types := types } m signature known) ↔ FitsAbove above m :=
      (h.superclasses.step h.sound (step_withTypes hext scope) h.isOpen.parent_lt).overrides_iff
        (h.table.extend hext) (h.sound.withTypes _) hsig
    have hown : (d.scopes.scope scope).get? m.name.name = none ↔
        m.name.name ∉ fields.map (·.name.name) ∧ m.name.name ∉ methods.map (·.name.name) :=
      h.holds.get?_eq_none_iff
    have hfits : MethodFits above fields methods m ↔
        (d.scopes.scope scope).get? m.name.name = none ∧
          ∀ known, d.scopes.lookupMember parent m.name.name = some known →
            Overrides { d with types := types } m signature known := by
      rw [hown, habove, MethodFits, and_assoc]
    have hlookup := h.isOpen.lookupMember_eq h.sound m.name.name
    rw [hfits, decides_get]
    cases hl : d.scopes.lookupMember scope m.name.name with
    | none =>
      rw [hl, eq_comm, Option.or_eq_none_iff] at hlookup
      refine Decides.congr hinsert ?_
      rw [← get?_eq_none_iff, hlookup.2]
      simp
    | some known =>
      dsimp only
      refine ((decides_checkOverride _ m signature known).bind fun _ d₂ _ hd₂ =>
        hd₂ ▸ hinsert).congr ?_
      rw [← get?_eq_none_iff]
      rw [hl] at hlookup
      cases hget : (d.scopes.scope scope).get? m.name.name with
      | some s => simp
      | none =>
        rw [hget, Option.none_or] at hlookup
        rw [← hlookup]
        have hle := h.sound.symbols.scope_le_of_lookupMember h.sound.ordered hlookup.symm
        have hne : known.scope ≠ scope := Nat.ne_of_lt (Nat.lt_of_le_of_lt hle h.isOpen.parent_lt)
        constructor
        · intro hc
          refine ⟨rfl, fun known' hknown' => ?_⟩
          rw [← Option.some.inj hknown']
          exact hc.1.2
        · intro hc
          exact ⟨⟨hne, hc.2 known rfl⟩, rfl⟩
  refine (hdecide.and_meets (meets_declareMethod h.here entryMethod owner m)).mono ?_
  intro _ d' _ hd'
  obtain ⟨⟨hholds, hentries⟩, hdeclaring, _⟩ := hd'
  exact ⟨h.of_declaring hdeclaring hholds, hentries⟩

/-! ## All members of a class -/

theorem decides_declareFields (h : Filling classes above scope parent [] [] d₀ d)
    (fields : List VarDecl) :
    Decides (EachAfter (fun done f => f.type.base.IsKnown (classes.map (·.name.name)) ∧
        f.name.name ∉ done.map (·.name.name) ∧ NoMember above f.name.name) fields)
      (fields.forM (declareField scope)) d fun _ d' =>
        Filling classes above scope parent fields [] d₀ d' ∧ d'.entries = d.entries := by
  refine decides_forM (fun done d' => Filling classes above scope parent done [] d₀ d' ∧
    d'.entries = d.entries) _ fields ?_ ⟨h, rfl⟩
  intro done f rest _ d₁ h₁
  refine (decides_declareField h₁.1 f).mono ?_
  intro _ d₂ _ h₂
  exact ⟨h₂.1, h₂.2.trans h₁.2⟩

theorem decides_declareMethods (h : Filling classes above scope parent fields [] d₀ d)
    (entryMethod : String) (owner : TypeId) (methods : List MethodDecl) :
    Decides (EachAfter (fun done m => KnownHead classes m ∧ MethodFits above fields done m) methods)
      (methods.forM (declareMethod entryMethod owner scope)) d fun _ d' =>
        Filling classes above scope parent fields methods d₀ d' ∧
          d'.entries = methods.foldl (entriesWith entryMethod owner) d.entries := by
  refine decides_forM (fun done d' => Filling classes above scope parent fields done d₀ d' ∧
    d'.entries = done.foldl (entriesWith entryMethod owner) d.entries) _ methods ?_ ⟨h, rfl⟩
  intro done m rest _ d₁ h₁
  refine (decides_declareMethod h₁.1 entryMethod owner m).mono ?_
  intro _ d₂ _ h₂
  exact ⟨h₂.1, by rw [h₂.2, h₁.2, List.foldl_append]; rfl⟩

/-- The rules for members are those met one by one. -/
theorem membersFit_iff {c : ClassDecl} :
    c.MembersFit above ↔
      EachAfter (fun done f => f.name.name ∉ done.map (·.name.name) ∧ NoMember above f.name.name)
          c.fields ∧
        EachAfter (fun done m => MethodFits above c.fields done m) c.methods := by
  unfold MethodFits FitsAbove
  rw [eachAfter_and, eachAfter_and, eachAfter_and, eachAfter_and, eachAfter_iff_forall,
    eachAfter_iff_forall, eachAfter_iff_forall, eachAfter_iff_forall, eachAfter_not_mem,
    eachAfter_not_mem]
  constructor
  · intro h
    exact ⟨⟨h.fields_nodup, h.field_new⟩, h.method_new, h.methods_nodup, h.method_above, h.override⟩
  · intro h
    exact ⟨h.1.1, h.1.2, h.2.2.1, h.2.1, h.2.2.2.1, h.2.2.2.2⟩

end Declare

end Definition

end IcLir
