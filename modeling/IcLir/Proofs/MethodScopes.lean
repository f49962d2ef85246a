import IcLir.Proofs.NumberedLocals

/-
  The scopes of methods. Every method has a scope directly inside the scope of its class, with
  its parameters and the locals at the top of its body (`MethodOf`). The locals of its body are
  numbered in source order, and all its variables have the types written for them (`HasVars`).
-/

namespace IcLir

namespace ScopeTree

/-- `scope` is the scope of method `m` of the class whose scope is `owner`. -/
structure MethodOf (t : ScopeTree) (owner : ScopeId) (m : MethodDecl) (scope : ScopeId) : Prop where
  get? : t.methodScopes.get? m.id = some scope
  lt : scope < t.size
  kind : ∃ result, (t.scope scope).kind = .method m.isStatic result
  depth : (t.scope scope).depth = (t.scope owner).depth + 1
  enclosing : (t.scope scope).enclosing = t.path owner
  params : ∀ p ∈ m.params, ∃ s, (t.scope scope).get? p.name.name = some s ∧ s.kind = .parameter
  body : t.ScopedList scope m.body

theorem MethodOf.extend {t t' : ScopeTree} {owner scope : ScopeId} {m : MethodDecl}
    (h : t.MethodOf owner m scope) (he : t.Extends t') (howner : owner < t.size)
    (hmethod : t'.methodScopes.get? m.id = t.methodScopes.get? m.id)
    (hbody : t'.ScopedList scope m.body) : t'.MethodOf owner m scope where
  get? := hmethod.trans h.get?
  lt := Nat.lt_of_lt_of_le h.lt he.size_le
  kind := by
    obtain ⟨result, hk⟩ := h.kind
    exact ⟨result, (he.kind scope h.lt).trans hk⟩
  depth := by rw [he.depth scope h.lt, he.depth owner howner]; exact h.depth
  enclosing := by rw [he.enclosing scope h.lt, he.path_eq howner]; exact h.enclosing
  params p hp := by
    obtain ⟨s, hs, hk⟩ := h.params p hp
    exact ⟨s, he.symbol scope h.lt _ s hs, hk⟩
  body := hbody

end ScopeTree

namespace Definition

open Pass

variable {d : Definition} {scope k : ScopeId}

/-- The identities of the statements in the bodies of some methods. -/
def bodyIds (ms : List MethodDecl) : List NodeId := ms.flatMap fun m => Stmt.idsOfList m.body

theorem bodyIds_append (ms ms' : List MethodDecl) :
    bodyIds (ms ++ ms') = bodyIds ms ++ bodyIds ms' := List.flatMap_append

/-- The state after the methods `ms` of the class scope `owner` got their scopes. -/
structure MethodsStep (k : ScopeId) (ms : List MethodDecl) (d d' : Definition) : Prop
    extends Step k d d' where
  entries : d'.entries = d.entries
  methodScopes : ∀ n, n ∉ ms.map (·.id) →
    d'.scopes.methodScopes.get? n = d.scopes.methodScopes.get? n
  blockScopes : ∀ n, n ∉ bodyIds ms →
    d'.scopes.blockScopes.get? n = d.scopes.blockScopes.get? n

namespace MethodsStep

variable {k : ScopeId} {ms ms' : List MethodDecl} {d d' d'' : Definition}

theorem refl (k : ScopeId) (ms : List MethodDecl) (d : Definition) : MethodsStep k ms d d :=
  ⟨.refl k d, rfl, fun _ _ => rfl, fun _ _ => rfl⟩

theorem trans (h : MethodsStep k ms d d') (h' : MethodsStep k ms' d' d'') :
    MethodsStep k (ms ++ ms') d d'' := by
  refine ⟨h.toStep.trans h'.toStep, h'.entries.trans h.entries, ?_, ?_⟩
  · intro n hn
    rw [List.map_append, List.mem_append, not_or] at hn
    exact (h'.methodScopes n hn.2).trans (h.methodScopes n hn.1)
  · intro n hn
    rw [bodyIds_append, List.mem_append, not_or] at hn
    exact (h'.blockScopes n hn.2).trans (h.blockScopes n hn.1)

theorem mono {k' : ScopeId} (h : MethodsStep k ms d d') (hk : k' ≤ k) : MethodsStep k' ms d d' :=
  ⟨h.toStep.mono hk, h.entries, h.methodScopes, h.blockScopes⟩

end MethodsStep

/-! ## Variables -/

/-- `s` is the symbol of parameter `q` in `scope`. -/
structure ParamSymbol (d : Definition) (scope : ScopeId) (q : VarDecl) (s : Symbol) : Prop where
  get? : (d.scopes.scope scope).get? q.name.name = some s
  kind : s.kind = .parameter
  type : d.types.denoted? q.type = some s.type

theorem ParamSymbol.step {d' : Definition} {q : VarDecl} {s : Symbol} (h : ParamSymbol d scope q s)
    (hs : Grows k d d') (hscope : scope < d.scopes.size) : ParamSymbol d' scope q s :=
  ⟨hs.scopes.symbol scope hscope _ s h.get?, h.kind, hs.types.denoted?_of_some h.type⟩

/-- The variables of method `m`, whose scope is `scope`. -/
structure HasVars (d : Definition) (m : MethodDecl) (scope : ScopeId) : Prop where
  lt : scope < d.scopes.size
  param : ∀ q ∈ m.params, ∃ s, ParamSymbol d scope q s
  symbol : ∀ name s, (d.scopes.scope scope).get? name = some s →
    (∃ q ∈ m.params, q.name.name = name) ∨ ∃ ordinal, s.kind = .localVar ordinal
  body : ∃ n, d.scopes.NumberedList d.types scope scope m.body 0 n

theorem HasVars.scoped {m : MethodDecl} (h : HasVars d m scope) :
    d.scopes.ScopedList scope m.body := by
  obtain ⟨n, hbody⟩ := h.body
  exact hbody.scoped

/-- The variables of a method stay as they are while younger scopes are worked on. -/
theorem HasVars.step {d' : Definition} {m : MethodDecl} (h : HasVars d m scope) (hsound : Sound d)
    (hs : Grows d.scopes.size d d') (hblocks : ∀ n ∈ Stmt.idsOfList m.body,
      d'.scopes.blockScopes.get? n = d.scopes.blockScopes.get? n) : HasVars d' m scope where
  lt := Nat.lt_of_lt_of_le h.lt hs.scopes.size_le
  param q hq := by
    obtain ⟨s, hparam⟩ := h.param q hq
    exact ⟨s, hparam.step hs h.lt⟩
  symbol := by
    rw [hs.below scope h.lt]
    exact h.symbol
  body := by
    obtain ⟨n, hbody⟩ := h.body
    exact ⟨n, ScopeTree.NumberedList.later hsound.ordered hs.types m.body scope 0 n h.lt hbody
      (hs.below.later hs.scopes n) hblocks⟩

/-- The scope holds the given parameters, and from it on there are no other symbols. -/
structure HoldsParams (d : Definition) (scope : ScopeId) (params : List VarDecl) : Prop where
  param : ∀ q ∈ params, ∃ s, ParamSymbol d scope q s
  only : ∀ j, scope ≤ j → ∀ name s, (d.scopes.scope j).get? name = some s →
    s.kind = .parameter ∧ ∃ q ∈ params, q.name.name = name

/-- Declaring the parameters of a method: they all are in its scope afterwards. -/
theorem meets_defineParams (hsound : Sound d) (hk : k ≤ scope)
    (hscope : scope < d.scopes.size)
    (hkind : (d.scopes.scope scope).kind.Admits .parameter)
    (hempty : ∀ j, scope ≤ j → ∀ name, (d.scopes.scope j).get? name = none)
    (params : List VarDecl) :
    Meets CompileError.IsRejection (params.forM (defineParam scope)) d fun _ d' =>
      BodyStep k [] d d' ∧ Sound d' ∧ HoldsParams d' scope params := by
  have hnone : HoldsParams d scope [] := by
    refine ⟨by simp, fun j hj name s hs => ?_⟩
    rw [hempty j hj] at hs
    simp at hs
  refine meets_forM (fun done d' => BodyStep k [] d d' ∧ Sound d' ∧ HoldsParams d' scope done)
    params ?_ ⟨.refl k [] d, hsound, hnone⟩
  intro done p rest _ d₁ h₁
  obtain ⟨hstep, hsound₁, hdone⟩ := h₁
  have hscope₁ : scope < d₁.scopes.size := Nat.lt_of_lt_of_le hscope hstep.size_le
  have hkind₁ : (d₁.scopes.scope scope).kind.Admits .parameter := by
    rw [hstep.scopes.kind scope hscope]
    exact hkind
  unfold defineParam
  rw [meets_bind]
  refine meets_resolveType fun id types hr => ?_
  have hext := TypeTable.extends_resolve hr
  refine meets_insertSymbol fun scopes hi => ?_
  have hins := (step_withTypes hext k).trans (step_insert hi hscope₁ hk)
  refine ⟨?_, (hsound₁.withTypes _).insert hi hscope₁ hkind₁, ?_⟩
  · have hbody : BodyStep k [] d₁ { d₁ with types := types, scopes := scopes } := by
      refine ⟨hins, ScopeTree.methodScopes_insert hi, rfl, fun n _ => ?_⟩
      exact congrArg (OrderedMap.get? · n) (ScopeTree.blockScopes_insert hi)
    exact hstep.trans hbody
  · refine ⟨fun q hq => ?_, fun j hj name s hs => ?_⟩
    · rcases List.mem_append.mp hq with hq | hq
      · obtain ⟨s, hparam⟩ := hdone.param q hq
        exact ⟨s, hparam.step hins.toGrows hscope₁⟩
      · rw [List.mem_singleton.mp hq]
        exact ⟨⟨p.name.name, .parameter, id, scope, p.name.span⟩,
          by rw [ScopeTree.get?_insert hi hscope₁, if_pos rfl], rfl,
          TypeTable.denoted?_of_resolve hr⟩
    · have hold : (d₁.scopes.scope j).get? name = some s →
          s.kind = .parameter ∧ ∃ q ∈ done ++ [p], q.name.name = name := by
        intro hs
        obtain ⟨hk, q, hq, hname⟩ := hdone.only j hj name s hs
        exact ⟨hk, q, List.mem_append_left _ hq, hname⟩
      by_cases hself : j = scope
      · rw [hself, ScopeTree.get?_insert hi hscope₁] at hs
        split at hs
        · next hname =>
          rw [← Option.some.inj hs]
          exact ⟨rfl, p, by simp, hname.symm⟩
        · exact hold (hself ▸ hs)
      · rw [ScopeTree.scope_insert_of_ne hi hself] at hs
        exact hold hs

/-! ## One method -/

/-- The state after the scope of method `m` is opened, still empty, in the class scope `owner`. -/
structure MethodOpened (owner : ScopeId) (m : MethodDecl) (result : TypeId) (d d' : Definition) :
    Prop extends Step d.scopes.size d d' where
  sound : Sound d'
  entries : d'.entries = d.entries
  methodScopes : d'.scopes.methodScopes = d.scopes.methodScopes.insert m.id d.scopes.size
  blockScopes : d'.scopes.blockScopes = d.scopes.blockScopes
  lt : d.scopes.size < d'.scopes.size
  kind : (d'.scopes.scope d.scopes.size).kind = .method m.isStatic result
  depth : (d'.scopes.scope d.scopes.size).depth = (d.scopes.scope owner).depth + 1
  enclosing : (d'.scopes.scope d.scopes.size).enclosing = d.scopes.path owner
  empty : ∀ j, d.scopes.size ≤ j → ∀ name, (d'.scopes.scope j).get? name = none

theorem meets_openMethod (hsound : Sound d) {owner : ScopeId} (howner : owner < d.scopes.size)
    (m : MethodDecl) (result : TypeId) {post : ScopeId → Definition → Prop}
    (h : ∀ d', MethodOpened owner m result d d' → post d.scopes.size d') :
    Meets CompileError.IsRejection
      (openScope (·.addMethodScope owner m.id m.name.name m.isStatic result)) d post := by
  refine meets_openScope (h _ ?_)
  let kind := ScopeKind.method m.isStatic result
  have hself := ScopeTree.scope_addScope_self d.scopes owner kind m.name.name
  refine ⟨⟨⟨.refl _, ?_, ?_, rfl⟩, rfl⟩, ⟨?_, ?_⟩, rfl, rfl, rfl, ?_, ?_, ?_, ?_, ?_⟩
  · exact (ScopeTree.extends_addScope d.scopes owner kind m.name.name).of_scopes_eq rfl
  · intro id hid
    exact ScopeTree.scope_addScope_of_lt d.scopes owner kind m.name.name hid
  · exact ScopeTree.ordered_addScope d.scopes owner kind m.name.name hsound.ordered howner
  · exact (hsound.symbols.addScope owner kind m.name.name).of_scopes_eq rfl
  · have hsize := ScopeTree.size_addScope d.scopes owner kind m.name.name
    exact Nat.lt_of_lt_of_eq (Nat.lt_succ_self _) hsize.symm
  · exact congrArg (·.kind) hself
  · exact congrArg (·.depth) hself
  · exact congrArg Scope.enclosing hself
  · intro j hj n
    rcases Nat.eq_or_lt_of_le hj with rfl | hlt
    · exact congrArg (OrderedMap.get? · n) (congrArg (·.symbols) hself)
    · have hsize := ScopeTree.size_addScope d.scopes owner kind m.name.name
      have hdefault := ScopeTree.scope_of_size_le (d.scopes.addScope owner kind m.name.name).2
        (Nat.le_trans (Nat.le_of_eq hsize) hlt)
      exact congrArg (OrderedMap.get? · n) (congrArg (·.symbols) hdefault)

theorem meets_defineMethod {owner : ScopeId} (hsound : Sound d) (hk : k ≤ d.scopes.size)
    (howner : owner < d.scopes.size) (m : MethodDecl) (hnodup : (Stmt.idsOfList m.body).Nodup) :
    Meets CompileError.IsRejection (defineMethod owner m) d fun _ d' =>
      MethodsStep k [m] d d' ∧ Sound d' ∧
        ∃ scope, d'.scopes.MethodOf owner m scope ∧ HasVars d' m scope := by
  unfold defineMethod
  rw [meets_bind]
  refine meets_resolveType fun result types hr => ?_
  have hext := TypeTable.extends_resolve hr
  rw [meets_bind]
  refine meets_openMethod (hsound.withTypes types) howner m result fun d₁ hopen => ?_
  have hlt : d.scopes.size < d₁.scopes.size := hopen.lt
  have hstep₁ := (step_withTypes hext k).trans (hopen.toStep.mono hk)
  refine (meets_defineParams hopen.sound hk hlt (by rw [hopen.kind]; rfl) hopen.empty
    m.params).bind ?_
  intro _ d₂ h₂
  obtain ⟨hstep₂, hsound₂, hparams⟩ := h₂
  rw [meets_bind, meets_modify]
  have hholds : HoldsLocals { d₂ with nextOrdinal := 0 } d.scopes.size := by
    refine ⟨Nat.lt_of_lt_of_le hlt hstep₂.size_le, fun n => ?_⟩
    have hkind₂ := hstep₂.scopes.kind d.scopes.size hlt
    change ((d₂.scopes.scope d.scopes.size).kind).Admits _
    rw [hkind₂, hopen.kind]
    rfl
  have hsound₂' : Sound { d₂ with nextOrdinal := 0 } := ⟨hsound₂.ordered, hsound₂.symbols⟩
  -- the only scope of the method so far holds no locals
  have hunder : Under d.scopes.size { d₂ with nextOrdinal := 0 } := by
    intro j hj name s ordinal hs hlocal
    rw [(hparams.only j hj name s hs).1] at hlocal
    simp at hlocal
  refine (meets_defineStmts d.scopes.size m.body hnodup d.scopes.size _ hsound₂' (Nat.le_refl _)
    hholds hunder).mono fun _ d₃ hstep₃ => ?_
  have hstep₂' : Step k d₁ { d₂ with nextOrdinal := 0 } :=
    ⟨⟨hstep₂.types, hstep₂.scopes, hstep₂.below, hstep₂.declarations⟩, hstep₂.classScopes⟩
  have hstep := hstep₁.trans (hstep₂'.trans (hstep₃.toStep.mono hk))
  have hfrom₁ := hstep₂'.trans (hstep₃.toStep.mono hk)
  have hmethods₃ : d₃.scopes.methodScopes =
      d.scopes.methodScopes.insert m.id d.scopes.size :=
    (hstep₃.methodScopes.trans hstep₂.methodScopes).trans hopen.methodScopes
  have hlt₂ : d.scopes.size < d₂.scopes.size := Nat.lt_of_lt_of_le hlt hstep₂.size_le
  have hlt₃ : d.scopes.size < d₃.scopes.size := Nat.lt_of_lt_of_le hlt₂ hstep₃.size_le
  refine ⟨⟨hstep, ?_, ?_, ?_⟩, hstep₃.sound, d.scopes.size,
    ⟨?_, hlt₃, ⟨result, ?_⟩, ?_, ?_, ?_, hstep₃.numbered.scoped⟩,
    ⟨hlt₃, ?_, ?_, _, hstep₃.numbered⟩⟩
  · exact (hstep₃.entries.trans hstep₂.entries).trans hopen.entries
  · intro n hn
    rw [hmethods₃]
    exact OrderedMap.get?_insert_of_ne _ _ (by simpa using hn)
  · intro n hn
    have hn' : n ∉ Stmt.idsOfList m.body := by simpa [bodyIds] using hn
    rw [hstep₃.blockScopes n hn', hstep₂.blockScopes n (by simp), hopen.blockScopes]
  · rw [hmethods₃]
    exact OrderedMap.get?_insert_self ..
  · exact (hfrom₁.scopes.kind _ hlt).trans hopen.kind
  · rw [hfrom₁.scopes.depth _ hlt, hopen.depth, hstep.scopes.depth owner howner]
  · rw [hfrom₁.scopes.enclosing _ hlt, hopen.enclosing, hstep.scopes.path_eq howner]
  · intro q hq
    obtain ⟨s, hparam⟩ := hparams.param q hq
    exact ⟨s, hstep₃.scopes.symbol _ hlt₂ _ s hparam.get?, hparam.kind⟩
  · intro q hq
    obtain ⟨s, hparam⟩ := hparams.param q hq
    exact ⟨s, hstep₃.scopes.symbol _ hlt₂ _ s hparam.get?, hparam.kind,
      hstep₃.types.denoted?_of_some hparam.type⟩
  · intro name s hs
    rcases hstep₃.new _ name s hs with hold | ⟨ordinal, hlocal, _⟩
    · exact .inl (hparams.only _ (Nat.le_refl _) name s hold).2
    · exact .inr ⟨ordinal, hlocal⟩

end Definition

end IcLir
