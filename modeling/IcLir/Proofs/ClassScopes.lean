import IcLir.Proofs.ClassMembers
import IcLir.Proofs.ClassTable
import IcLir.Proofs.MethodScopes

/-
  The definition of one class. It opens a scope for the class, inside the scope of its
  superclass or else in the global one, that holds its members and the scopes of its methods
  (`ClassOf`). Working on another class leaves all of that as it is (`ClassOf.step`).
-/

namespace IcLir

namespace Definition

open Pass TypeTable

variable {d d' : Definition} {parent scope : ScopeId} {type : TypeId} {c : ClassDecl}

/-- `parent` is the scope that the scope of class `type` lies in. -/
def LiesIn (d : Definition) (type : TypeId) (parent : ScopeId) : Prop :=
  match d.types.superclass? type with
  | none => parent = ScopeTree.global
  | some base => d.scopes.classScopes.get? base = some parent

theorem LiesIn.extend (h : LiesIn d type parent) (ht : d.types.Extends d'.types)
    (hbase : ∀ base, d.types.superclass? type = some base →
      d'.scopes.classScopes.get? base = d.scopes.classScopes.get? base) :
    LiesIn d' type parent := by
  unfold LiesIn at h ⊢
  rw [ht.superclass?_eq]
  cases hb : d.types.superclass? type with
  | none => rw [hb] at h; exact h
  | some base => rw [hb] at h; exact (hbase base hb).trans h

/-- The parent is where the scope of a class is opened. -/
theorem LiesIn.parent_eq (h : LiesIn d type parent) :
    ((d.types.superclass? type).bind d.scopes.classScopes.get?).getD ScopeTree.global = parent := by
  unfold LiesIn at h
  cases hb : d.types.superclass? type with
  | none => rw [hb] at h; exact h.symm
  | some base =>
    rw [hb] at h
    exact congrArg (Option.getD · ScopeTree.global) h

/-- `scope` is the scope of class `c`, whose type is `type`, inside the scope `parent`. -/
structure ClassDefined (d : Definition) (c : ClassDecl) (type : TypeId) (scope parent : ScopeId) :
    Prop extends ClassOpen d scope parent where
  get? : d.scopes.classScopes.get? type = some scope
  kind : (d.scopes.scope scope).kind = .classScope type
  depth : (d.scopes.scope scope).depth = 1
  liesIn : LiesIn d type parent
  members : MembersDeclared d scope parent c.fields c.methods

/-- The scope of a class stays as it is while younger scopes are worked on. -/
theorem ClassDefined.step {k : ScopeId} (h : ClassDefined d c type scope parent) (hsound : Sound d)
    (hs : Grows k d d') (hscope : scope < k)
    (htype : d'.scopes.classScopes.get? type = d.scopes.classScopes.get? type)
    (hbase : ∀ base, d.types.superclass? type = some base →
      d'.scopes.classScopes.get? base = d.scopes.classScopes.get? base) :
    ClassDefined d' c type scope parent where
  toClassOpen := h.toClassOpen.step hs
  get? := htype.trans h.get?
  kind := (hs.scopes.kind scope h.lt).trans h.kind
  depth := (hs.scopes.depth scope h.lt).trans h.depth
  liesIn := h.liesIn.extend hs.types hbase
  members := h.members.step hsound hs hscope h.parent_lt h.lt

/-- A class with its scope and the scopes of its methods. -/
structure ClassOf (d : Definition) (c : ClassDecl) (type : TypeId) (scope parent : ScopeId) :
    Prop extends ClassDefined d c type scope parent where
  methods : ∀ m ∈ c.methods, ∃ s, d.scopes.MethodOf scope m s ∧ HasVars d m s

/-- The state after one whole class. -/
structure ClassStep (c : ClassDecl) (type : TypeId) (d d' : Definition) : Prop
    extends Grows d.scopes.size d d' where
  classScopes : ∀ n, n ≠ type → d'.scopes.classScopes.get? n = d.scopes.classScopes.get? n
  methodScopes : ∀ n, n ∉ c.methods.map (·.id) →
    d'.scopes.methodScopes.get? n = d.scopes.methodScopes.get? n
  blockScopes : ∀ n, n ∉ bodyIds c.methods →
    d'.scopes.blockScopes.get? n = d.scopes.blockScopes.get? n
  entries : EntriesFrom c.methods d.entries d'.entries

/-- A finished class stays as it is while another class is worked on. -/
theorem ClassOf.step {c' : ClassDecl} {type' : TypeId} (h : ClassOf d c type scope parent)
    (hsound : Sound d) (hs : ClassStep c' type' d d') (htype : type ≠ type')
    (hbase : ∀ base, d.types.superclass? type = some base → base ≠ type')
    (hmethods : ∀ m ∈ c.methods, m.id ∉ c'.methods.map (·.id))
    (hblocks : ∀ n ∈ bodyIds c.methods, n ∉ bodyIds c'.methods) :
    ClassOf d' c type scope parent where
  toClassDefined := h.toClassDefined.step hsound hs.toGrows h.lt (hs.classScopes type htype)
    fun base hb => hs.classScopes base (hbase base hb)
  methods m hm := by
    obtain ⟨s, hm', hvars⟩ := h.methods m hm
    have hsame : ∀ n ∈ Stmt.idsOfList m.body,
        d'.scopes.blockScopes.get? n = d.scopes.blockScopes.get? n :=
      fun n hn => hs.blockScopes n (hblocks n (List.mem_flatMap.mpr ⟨m, hm, hn⟩))
    have hvars' := hvars.step hsound hs.toGrows hsame
    exact ⟨s, hm'.extend hs.scopes h.lt (hs.methodScopes _ (hmethods m hm)) hvars'.scoped, hvars'⟩

/-! ## One class -/

/-- The state after the scope of a class is opened, still empty. -/
structure ClassOpened (type : TypeId) (parent : ScopeId) (d d' : Definition) : Prop
    extends Grows d.scopes.size d d', ClassOpen d' d.scopes.size parent where
  sound : Sound d'
  classScopes : d'.scopes.classScopes = d.scopes.classScopes.insert type d.scopes.size
  methodScopes : d'.scopes.methodScopes = d.scopes.methodScopes
  blockScopes : d'.scopes.blockScopes = d.scopes.blockScopes
  entries : d'.entries = d.entries
  kind : (d'.scopes.scope d.scopes.size).kind = .classScope type
  depth : (d'.scopes.scope d.scopes.size).depth = 1
  empty : ∀ name, (d'.scopes.scope d.scopes.size).get? name = none

theorem meets_openClass (hsound : Sound d) (hparent : parent < d.scopes.size) (type : TypeId)
    (name : String) (superclass : Option TypeId)
    (heq : (superclass.bind d.scopes.classScopes.get?).getD ScopeTree.global = parent)
    {post : ScopeId → Definition → Prop}
    (h : ∀ d', ClassOpened type parent d d' → post d.scopes.size d') :
    Meets CompileError.IsRejection (openScope (·.addClassScope type name superclass)) d post := by
  refine meets_openScope (h _ ?_)
  simp only [ScopeTree.addClassScope, heq]
  have hself := ScopeTree.scope_addScope_self d.scopes parent (.classScope type) name
  have hext := ScopeTree.extends_addScope d.scopes parent (.classScope type) name
  have hkind := congrArg (·.kind) hself
  refine ⟨⟨.refl _, hext.of_scopes_eq rfl, ?_, rfl⟩, ⟨?_, ?_, ?_, hparent⟩, ⟨?_, ?_⟩, rfl, rfl, rfl,
    rfl, hkind, congrArg (·.depth) hself, ?_⟩
  · intro id hid
    exact ScopeTree.scope_addScope_of_lt d.scopes parent (.classScope type) name hid
  · have hsize := ScopeTree.size_addScope d.scopes parent (.classScope type) name
    exact Nat.lt_of_lt_of_eq (Nat.lt_succ_self _) hsize.symm
  · exact congrArg ScopeKind.isClass hkind
  · exact (congrArg Scope.enclosing hself).trans (hext.path_eq hparent).symm
  · exact ScopeTree.ordered_addScope d.scopes parent (.classScope type) name hsound.ordered hparent
  · exact (hsound.symbols.addScope parent (.classScope type) name).of_scopes_eq rfl
  · intro n
    exact congrArg (OrderedMap.get? · n) (congrArg (·.symbols) hself)

/-- No member is declared in a new scope. -/
theorem ClassOpened.declaring (h : ClassOpened type parent d d') :
    Declaring d.scopes.size parent [] [] d' d' := by
  refine ⟨.refl _ d', h.sound, h.toClassOpen, ⟨by simp, by simp, ?_, by simp⟩⟩
  intro name s hs
  rw [h.empty name] at hs
  simp at hs

/-- Declaring all members of a class. -/
theorem meets_declareMembers (entryMethod : String) (type : TypeId) (c : ClassDecl)
    (h : Declaring scope parent [] [] d d) {post : Unit → Definition → Prop}
    (hpost : ∀ d', Declaring scope parent c.fields c.methods d d' →
      EntriesFrom c.methods d.entries d'.entries → post () d') :
    Meets CompileError.IsRejection (c.fields.forM (declareField scope)) d fun _ t =>
      Meets CompileError.IsRejection (c.methods.forM (declareMethod entryMethod type scope)) t
        post := by
  refine (meets_forM (fun done d' => Declaring scope parent done [] d d' ∧ d'.entries = d.entries)
    c.fields ?_ ⟨h, rfl⟩).mono ?_
  · rintro done f rest - d₁ ⟨h₁, hentries⟩
    refine (meets_declareField h₁ f).mono ?_
    rintro _ d₂ ⟨h₂, hentries₂⟩
    exact ⟨h₂, hentries₂.trans hentries⟩
  · rintro _ d₁ ⟨h₁, hentries⟩
    refine (meets_forM (fun done d' => Declaring scope parent c.fields done d d' ∧
      EntriesFrom done d.entries d'.entries) c.methods ?_ ⟨h₁, ?_⟩).mono ?_
    · rintro done m rest - d₂ ⟨h₂, hfrom⟩
      refine (meets_declareMethod h₂ entryMethod type m).mono ?_
      rintro _ d₃ ⟨h₃, hfrom₃⟩
      refine ⟨h₃, fun e he => ?_⟩
      rcases hfrom₃ e he with he | ⟨hm, hstatic⟩
      · rcases hfrom e he with he | ⟨hm, hstatic⟩
        · exact .inl he
        · exact .inr ⟨List.mem_append_left _ hm, hstatic⟩
      · exact .inr ⟨List.mem_append_right _ hm, hstatic⟩
    · intro e he
      exact .inl (hentries ▸ he)
    · rintro _ d₂ ⟨h₂, hfrom⟩
      exact hpost d₂ h₂ hfrom

/-- Giving all methods of a class their scopes. -/
theorem meets_defineMethods {k owner : ScopeId} (hsound : Sound d) (hk : k ≤ d.scopes.size)
    (howner : owner < d.scopes.size) (ms : List MethodDecl) (hids : (ms.map (·.id)).Nodup)
    (hbodies : (bodyIds ms).Nodup) :
    Meets CompileError.IsRejection (ms.forM (defineMethod owner)) d fun _ d' =>
      MethodsStep k ms d d' ∧ Sound d' ∧
        ∀ m ∈ ms, ∃ s, d'.scopes.MethodOf owner m s ∧ HasVars d' m s := by
  refine meets_forM (fun done d' => MethodsStep k done d d' ∧ Sound d' ∧
    ∀ m ∈ done, ∃ s, d'.scopes.MethodOf owner m s ∧ HasVars d' m s) ms ?_
    ⟨.refl k [] d, hsound, by simp⟩
  rintro done m rest hms d₁ ⟨hstep, hsound₁, hdone⟩
  rw [hms, List.map_append, List.nodup_append] at hids
  rw [hms, bodyIds_append, List.nodup_append] at hbodies
  have hrest : bodyIds (m :: rest) = Stmt.idsOfList m.body ++ bodyIds rest := rfl
  rw [hrest, List.nodup_append] at hbodies
  have hsize := hstep.scopes.size_le
  refine (meets_defineMethod hsound₁ (Nat.le_refl _) (Nat.lt_of_lt_of_le howner hsize) m
    hbodies.2.1.1).mono ?_
  rintro _ d₂ ⟨hstep₂, hsound₂, hm⟩
  refine ⟨hstep.trans (hstep₂.mono (Nat.le_trans hk hsize)), hsound₂, ?_⟩
  intro m' hm'
  rcases List.mem_append.mp hm' with hm' | hm'
  · obtain ⟨s, hs, hvars⟩ := hdone m' hm'
    -- the new method shares no node with the ones before it
    have hsame : ∀ n ∈ Stmt.idsOfList m'.body,
        d₂.scopes.blockScopes.get? n = d₁.scopes.blockScopes.get? n := by
      intro n hn
      refine hstep₂.blockScopes n fun hn' => ?_
      have hn'' : n ∈ Stmt.idsOfList m.body := by simpa [bodyIds] using hn'
      exact hbodies.2.2 n (List.mem_flatMap.mpr ⟨m', hm', hn⟩) n
        (List.mem_append_left _ hn'') rfl
    have hvars' := hvars.step hsound₁ hstep₂.toGrows hsame
    refine ⟨s, hs.extend hstep₂.scopes (Nat.lt_of_lt_of_le howner hsize) ?_ hvars'.scoped, hvars'⟩
    refine hstep₂.methodScopes _ fun hmem => ?_
    exact hids.2.2 m'.id (List.mem_map_of_mem hm') m.id (by simp) (by simpa using hmem)
  · rw [List.mem_singleton.mp hm']
    exact hm

/-- Once its members are declared, the scope of a class is as it stays. -/
theorem ClassOpened.classDefined {d₁ d₂ : Definition} (h : ClassOpened type parent d d₁)
    (h₂ : Declaring d.scopes.size parent c.fields c.methods d₁ d₂) (hin : LiesIn d type parent)
    (hbase : ∀ base, d.types.superclass? type = some base → base ≠ type) :
    ClassDefined d₂ c type d.scopes.size parent := by
  have hclass : d₂.scopes.classScopes = d.scopes.classScopes.insert type d.scopes.size :=
    h₂.step.classScopes.trans h.classScopes
  refine ⟨h₂.isOpen, ?_, ?_, ?_, ?_, h₂.members⟩
  · rw [hclass]
    exact OrderedMap.get?_insert_self ..
  · exact (h₂.step.scopes.kind _ h.lt).trans h.kind
  · exact (h₂.step.scopes.depth _ h.lt).trans h.depth
  · refine hin.extend (h.types.trans h₂.step.types) fun base hb => ?_
    rw [hclass]
    exact OrderedMap.get?_insert_of_ne _ _ (hbase base hb)

theorem meets_defineClass (hsound : Sound d) (entryMethod : String) (c : ClassDecl)
    (htype : d.types.class? c.name.name = some type) (hparent : parent < d.scopes.size)
    (hin : LiesIn d type parent)
    (hbase : ∀ base, d.types.superclass? type = some base → base ≠ type)
    (hids : (c.methods.map (·.id)).Nodup) (hbodies : (bodyIds c.methods).Nodup) :
    Meets CompileError.IsRejection (defineClass entryMethod c) d fun _ d' =>
      ClassStep c type d d' ∧ Sound d' ∧ ClassOf d' c type d.scopes.size parent := by
  unfold defineClass
  rw [meets_bind, meets_get, meets_bind]
  refine meets_promised htype ?_
  rw [meets_bind]
  refine meets_openClass hsound hparent type c.name.name _ hin.parent_eq fun d₁ hopened => ?_
  simp only [meets_bind]
  refine meets_declareMembers entryMethod type c hopened.declaring fun d₂ h₂ hfrom => ?_
  have hlt₂ : d.scopes.size < d₂.scopes.size := h₂.isOpen.lt
  refine (meets_defineMethods h₂.sound (Nat.succ_le_of_lt hlt₂) hlt₂ c.methods hids
    hbodies).mono ?_
  rintro _ d₃ ⟨h₃, hsound₃, hmethods⟩
  have hgrows : Grows d.scopes.size d d₃ :=
    hopened.toGrows.trans (h₂.step.toGrows.trans (h₃.toGrows.mono (Nat.le_succ _)))
  have hclass : d₃.scopes.classScopes = d.scopes.classScopes.insert type d.scopes.size :=
    (h₃.classScopes.trans h₂.step.classScopes).trans hopened.classScopes
  refine ⟨⟨hgrows, ?_, ?_, ?_, ?_⟩, hsound₃, ⟨?_, hmethods⟩⟩
  · intro n hn
    rw [hclass]
    exact OrderedMap.get?_insert_of_ne _ _ hn
  · intro n hn
    rw [h₃.methodScopes n hn, h₂.step.methodScopes, hopened.methodScopes]
  · intro n hn
    rw [h₃.blockScopes n hn, h₂.step.blockScopes, hopened.blockScopes]
  · rw [h₃.entries, ← hopened.entries]
    exact hfrom
  · have hsame : ∀ n, d₃.scopes.classScopes.get? n = d₂.scopes.classScopes.get? n := by
      intro n
      rw [h₃.classScopes]
    exact (hopened.classDefined h₂ hin hbase).step h₂.sound h₃.toGrows (Nat.lt_succ_self _)
      (hsame type) fun base _ => hsame base

end Definition

end IcLir
